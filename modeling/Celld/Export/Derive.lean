import Celld.Export.Record

/-!
# The derivation of a stream's state

`derive` computes what one stream's records say about its tables: which generations are open, their
rows from the winning snapshot and the live changes above it, which tables are uncertain, how far
each epoch is certified, and which holes remain.

A derivation reads the position, the origin and the body of a record, and nothing else of its
envelope; `Entry` is that part.  The maps of the derived state are functions of their key, so each
is the body of the source's loop at one key.
-/

namespace Celld.Export

/-- What a derivation reads of a record. -/
structure Entry (V : Type) where
  position : Position
  origin : Origin
  body : Body V
  deriving DecidableEq

def Record.entry {V : Type} (r : Record V) : Entry V := ⟨r.position, r.origin, r.body⟩

/-- A hole the consumer cannot fill from the stream. -/
inductive Gap where
  | reported (body : GapBody)
  | link (prevEpoch prevTxid : ℕ) (certified : Option Position)
  | recovered (head : Position) (certified : Option Position) (loss : Bool)
  deriving DecidableEq

section

variable {V : Type} (records : List (Entry V))

/-! ## Deletion and snapshots -/

def Body.deletesStream : Body V → Bool
  | .deleted body => body.facet.isNone
  | _ => false

/-- Where a `deleted` record that names the stream itself removed it. -/
def deletedAt (all : List (Entry V)) : Option Position :=
  ((all.filter (·.body.deletesStream)).map (·.position)).max?

/-- The records a deletion leaves. -/
def undeleted (all : List (Entry V)) : List (Entry V) :=
  all.filter fun e => (deletedAt all).all (· < e.position)

/-- A record of the snapshot `snapshotId` at a position. -/
def Entry.isPartOf (snapshotId : String) (position : Position) (e : Entry V) : Bool :=
  match e.body with
  | .snapshot id _ => id = snapshotId && e.position = position
  | _ => false

/-- A complete snapshot and what it replaces. -/
structure Cut where
  position : Position
  origin : Origin
  end_ : SnapshotEndBody
  deriving DecidableEq

/-- What the precedence of two cuts is decided by. -/
def Cut.rank (c : Cut) : Position ×ₗ Origin ×ₗ String :=
  toLex (c.position, toLex (c.origin, c.end_.snapshotId))

def Cut.beats (c other : Cut) : Bool := other.rank < c.rank

/-- The cut of a `snapshot_end` whose record count is present. -/
def cutOf (e : Entry V) : Option Cut :=
  match e.body with
  | .snapshotEnd body =>
      if records.countP (Entry.isPartOf body.snapshotId e.position) = body.records then
        some ⟨e.position, e.origin, body⟩
      else none
  | _ => none

def cuts : List Cut := records.filterMap (cutOf records)

/-- The first cut that no later one beats, as the source's folds pick it. -/
def bestCut (cs : List Cut) : Option Cut :=
  cs.foldl (fun best c => if best.all c.beats then some c else best) none

def streamCut : Option Cut :=
  bestCut ((cuts records).filter (·.end_.scope = .stream))

def cutFor (tg : TableGen) : Option Cut :=
  bestCut ((cuts records).filter (fun c => c.end_.scope = .tables && tg ∈ c.end_.tables) ++
    (streamCut records).toList)

/-! ## Generations -/

/-- The table generations a body names. -/
def Body.names : Body V → List TableGen
  | .schema body => [⟨body.table, body.generation⟩]
  | .bulk tables => tables
  | .rows data | .snapshot _ data => [data.tableGen]
  | _ => []

/-- The first position a generation is named at. -/
def openedAt (tg : TableGen) : Option Position :=
  ((records.filter fun e => tg ∈ e.body.names).map (·.position)).min?

def Body.drops (tg : TableGen) : Body V → Bool
  | .schema body => body.dropped && (⟨body.table, body.generation⟩ : TableGen) = tg
  | _ => false

def Body.renames (table : String) : Body V → Bool
  | .schema body => body.renamedFrom = some table
  | _ => false

/-- A higher generation of the same name is open. -/
def superseded (tg : TableGen) : Bool :=
  records.any fun e => e.body.names.any fun other =>
    other.table = tg.table && tg.generation < other.generation

/-- A generation that is named, and neither dropped, superseded nor renamed away. -/
def isOpen (tg : TableGen) : Bool :=
  match openedAt records tg with
  | none => false
  | some opened =>
      !(records.any (·.body.drops tg) || superseded records tg ||
        records.any fun e => e.body.renames tg.table && opened ≤ e.position)

/-! ## Rows -/

/-- One table generation's current rows. -/
structure TableState (V : Type) [Ord V] where
  columns : List String := []
  keyColumns : List String := []
  rows : BTreeMap (List V) (List V) := ∅

variable [Ord V] [Std.TransOrd V]

/-- Insert the rows of a snapshot record. -/
def TableState.load (table : TableState V) (data : TableRows V) : TableState V where
  columns := data.columns
  keyColumns := data.keyColumns
  rows := data.rows.foldl (fun rows change => rows.insert change.key change.row) table.rows

/-- Apply the changes of a `rows` record. -/
def TableState.apply (table : TableState V) (data : TableRows V) : TableState V where
  columns := data.columns
  keyColumns := data.keyColumns
  rows := data.rows.foldl (fun rows change =>
    match change.op with
    | .insert | .update => rows.insert change.key change.row
    | .delete => rows.erase change.key) table.rows

/-- The data of a snapshot record of the cut, for the table. -/
def Entry.snapshotData (c : Cut) (tg : TableGen) (e : Entry V) : Option (TableRows V) :=
  match e.body with
  | .snapshot id data =>
      if e.position = c.position && id = c.end_.snapshotId && e.origin = c.origin &&
          data.tableGen = tg then some data
      else none
  | _ => none

/-- The changes of a `rows` record, for the table. -/
def Body.rowsData (tg : TableGen) : Body V → Option (TableRows V)
  | .rows data => if data.tableGen = tg then some data else none
  | _ => none

/-- The `rows` records of a table above its cut, in position order; equal positions keep their
arrival order. -/
def liveRows (tg : TableGen) (cut : Option Cut) : List (Entry V) :=
  (records.filter fun e => (e.body.rowsData tg).isSome && cut.all (·.position < e.position)
    ).insertionSort fun a b => a.position ≤ b.position

/-- The rows of a generation: the winning snapshot, then live rows above it. -/
def tableState (records : List (Entry V)) (tg : TableGen) : TableState V :=
  let cut := cutFor records tg
  let table := (cut.map fun c =>
    (records.filterMap (Entry.snapshotData c tg)).foldl TableState.load {}).getD {}
  ((liveRows records tg cut).filterMap (·.body.rowsData tg)).foldl TableState.apply table

def Body.marksBulk (tg : TableGen) : Body V → Bool
  | .bulk tables => tg ∈ tables
  | _ => false

end

/-! ## Certification -/

section

variable {V : Type} (records : List (Entry V))

/-- What the node's sink sent: everything but repair output, watermarks and `recovered`
records. -/
def Entry.isSent (e : Entry V) : Bool :=
  e.origin ≠ .repair && match e.body with
    | .watermark _ | .recovered _ => false
    | _ => true

/-- The range of a watermark; the first one of an epoch includes its lower end. -/
def WatermarkBody.spans (w : WatermarkBody) (p : Position) : Bool :=
  p ≤ w.through && (match w.from_ with
    | some lo => lo < p
    | none => ⟨w.through.epoch, 0, 0⟩ ≤ p)

/-- The counts of a watermark match the records held in its range. -/
def WatermarkBody.matches_ (w : WatermarkBody) (records : List (Entry V)) : Bool :=
  let inRange := (records.filter (·.isSent)).filter fun e => w.spans e.position
  inRange.length = w.records && (inRange.map (·.position)).dedup.length = w.commits

/-- A watermark that carries the chain of an epoch on from `reached`. -/
def WatermarkBody.continues (w : WatermarkBody) (records : List (Entry V)) (epoch : ℕ)
    (reached : Option Position) : Bool :=
  w.through.epoch = epoch && w.from_ = reached && reached.all (· < w.through) &&
    w.matches_ records

def watermarks : List WatermarkBody :=
  records.filterMap fun e => match e.body with
    | .watermark w => some w
    | _ => none

/-- The loop of `certify`.  The chain climbs strictly, so it takes each watermark at most once, and
their number bounds the passes. -/
def chain (records : List (Entry V)) (epoch : ℕ) : ℕ → Option Position → Option Position
  | 0, reached => reached
  | fuel + 1, reached =>
      match (watermarks records).find? fun w => w.continues records epoch reached with
      | some w => chain records epoch fuel (some w.through)
      | none => reached

/-- The position an epoch is certified to. -/
def certify (epoch : ℕ) : Option Position :=
  chain records epoch (watermarks records).length none

/-! ## Gaps -/

/-- A stream-wide snapshot covers a transaction. -/
def covered (epoch txid : ℕ) : Bool :=
  (streamCut records).any fun c =>
    epoch < c.position.epoch || epoch = c.position.epoch && txid ≤ c.position.txid

/-- A transaction beyond what its epoch is certified to. -/
def beyond (epoch txid : ℕ) : Bool :=
  match certify records epoch with
  | some c => c.txid < txid
  | none => 0 < txid

def gapOf (e : Entry V) : Option Gap :=
  match e.body with
  | .gap body => if covered records body.to_.epoch body.to_.txid then none
      else some (.reported body)
  | .link body =>
      match body.prevEpoch, body.prevTxid with
      | some epoch, some txid =>
          if beyond records epoch txid && !covered records epoch txid then
            some (.link epoch txid (certify records epoch))
          else none
      | _, _ => none
  | .recovered body =>
      let head := body.head
      let certified := certify records head.epoch
      let short := beyond records head.epoch head.txid && !covered records head.epoch head.txid
      -- Only a snapshot past the lost changes supersedes them.
      let ahead := body.loss &&
        certified.any fun c => head.txid < c.txid && !covered records c.epoch c.txid
      if short || ahead then some (.recovered head certified body.loss) else none
  | _ => none

end

/-! ## The state of a stream -/

structure StreamState (V : Type) [Ord V] where
  /-- Open table generations that hold rows. -/
  tables : TableGen → Option (TableState V)
  /-- Tables a `bulk` record made unknown and no later snapshot covered. -/
  uncertain : TableGen → Bool
  certified : ℕ → Option Position
  gaps : List Gap
  deletedAt : Option Position
  snapshotAt : Option Position

variable {V : Type} [Ord V] [Std.TransOrd V]

/-- Derive a stream's state from its records. -/
def derive (all : List (Entry V)) : StreamState V :=
  let records := undeleted all
  { tables := fun tg =>
      if isOpen records tg && !(tableState records tg).rows.isEmpty then
        some (tableState records tg)
      else none
    uncertain := fun tg =>
      isOpen records tg && records.any fun e =>
        e.body.marksBulk tg && (cutFor records tg).all (·.position < e.position)
    certified := certify records
    gaps := records.filterMap (gapOf records)
    deletedAt := deletedAt all
    snapshotAt := (streamCut records).map (·.position) }

end Celld.Export
