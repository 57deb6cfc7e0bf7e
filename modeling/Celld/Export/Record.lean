import Celld.Core.Types

/-!
# Export records

A cell's changes leave the node as records: an envelope that says which stream and which position
a record belongs to, and a body per kind.  A record too large for the sink is cut into fragments,
and what tells two records apart, on the wire and in the consumer, is a dedup key computed from
the envelope and the body.

The values of a row are a parameter `V`: the consumer compares row keys and stores rows, and looks
at nothing inside a value.
-/

namespace Celld.Export

/-- Which state a record belongs to. -/
structure StreamId where
  script : String
  class_ : String
  cell : String
  facet : Option String := none
  incarnation : ℕ
  deriving DecidableEq

/-- `(epoch, txid, commit)`: totally orders a stream. -/
structure Position where
  epoch : ℕ
  txid : ℕ
  commit : ℕ
  deriving DecidableEq

namespace Position

/-- The order of positions is the order of their fields. -/
def key (p : Position) : ℕ ×ₗ ℕ ×ₗ ℕ := toLex (p.epoch, toLex (p.txid, p.commit))

theorem key_injective : Function.Injective key := by
  rintro ⟨_, _⟩ ⟨_, _⟩ same
  simpa [key] using same

instance : LinearOrder Position := LinearOrder.lift' key key_injective

theorem lt_iff {p q : Position} : p < q ↔ p.epoch < q.epoch ∨ p.epoch = q.epoch ∧
    (p.txid < q.txid ∨ p.txid = q.txid ∧ p.commit < q.commit) := by
  have keys : p < q ↔ p.key < q.key := Iff.rfl
  rw [keys, key, key, Prod.Lex.toLex_lt_toLex, Prod.Lex.toLex_lt_toLex]

theorem le_iff {p q : Position} : p ≤ q ↔ p.epoch < q.epoch ∨ p.epoch = q.epoch ∧
    (p.txid < q.txid ∨ p.txid = q.txid ∧ p.commit ≤ q.commit) := by
  have keys : p ≤ q ↔ p.key ≤ q.key := Iff.rfl
  rw [keys, key, key, Prod.Lex.toLex_le_toLex, Prod.Lex.toLex_le_toLex]

end Position

/-- Where a record comes from; the order is that of precedence at one position. -/
inductive Origin where
  | live
  | snapshot
  | repair
  deriving DecidableEq

namespace Origin

def rank : Origin → ℕ
  | .live => 0
  | .snapshot => 1
  | .repair => 2

theorem rank_injective : Function.Injective rank := by
  intro a b same
  cases a <;> cases b <;> first | rfl | cases same

instance : LinearOrder Origin := LinearOrder.lift' rank rank_injective

end Origin

/-- The fields of every record that are looked at. -/
structure Envelope where
  stream : StreamId
  cellName : Option String := none
  position : Position
  origin : Origin := .live
  /-- `i` of `fragments`, from one. -/
  fragment : ℕ := 1
  fragments : ℕ := 1
  deriving DecidableEq

inductive Op where
  | insert
  | update
  | delete
  deriving DecidableEq

/-- `[op, key, row]`. -/
structure RowChange (V : Type) where
  op : Op
  key : List V
  row : List V
  deriving DecidableEq

/-- A table at a generation. -/
structure TableGen where
  table : String
  generation : ℕ
  deriving DecidableEq

/-- The part `rows` and `snapshot` share: one table of one commit. -/
structure TableRows (V : Type) where
  table : String
  generation : ℕ
  columns : List String
  keyColumns : List String
  rows : List (RowChange V)
  deriving DecidableEq

def TableRows.tableGen {V : Type} (data : TableRows V) : TableGen := ⟨data.table, data.generation⟩

/-- What a snapshot replaces. -/
inductive SnapshotScope where
  | stream
  | tables
  deriving DecidableEq

structure SnapshotEndBody where
  snapshotId : String
  scope : SnapshotScope
  tables : List TableGen
  records : ℕ
  deriving DecidableEq

structure SchemaBody where
  table : String
  generation : ℕ
  dropped : Bool := false
  renamedFrom : Option String := none
  deriving DecidableEq

structure LinkBody where
  startTxid : ℕ
  prevEpoch : Option ℕ := none
  prevTxid : Option ℕ := none
  deriving DecidableEq

structure RecoveredBody where
  head : Position
  loss : Bool := false
  deriving DecidableEq

structure DeletedBody where
  facet : Option String := none
  incarnation : Option ℕ := none
  subtree : Bool := false
  throughIncarnation : Option ℕ := none
  deriving DecidableEq

/-- Certifies a delivered position, and counts what lies in `(from, through]`. -/
structure WatermarkBody where
  from_ : Option Position := none
  through : Position
  commits : ℕ
  records : ℕ
  deriving DecidableEq

structure GapBody where
  from_ : Position
  to_ : Position
  reason : String
  deriving DecidableEq

inductive Kind where
  | rows
  | snapshot
  | snapshotEnd
  | schema
  | link
  | recovered
  | deleted
  | watermark
  | bulk
  | gap
  deriving DecidableEq

inductive Body (V : Type) where
  | rows (data : TableRows V)
  | snapshot (snapshotId : String) (data : TableRows V)
  | snapshotEnd (body : SnapshotEndBody)
  | schema (body : SchemaBody)
  | link (body : LinkBody)
  | recovered (body : RecoveredBody)
  | deleted (body : DeletedBody)
  | watermark (body : WatermarkBody)
  | bulk (tables : List TableGen)
  | gap (body : GapBody)
  deriving DecidableEq

namespace Body

variable {V : Type}

def kind : Body V → Kind
  | .rows _ => .rows
  | .snapshot _ _ => .snapshot
  | .snapshotEnd _ => .snapshotEnd
  | .schema _ => .schema
  | .link _ => .link
  | .recovered _ => .recovered
  | .deleted _ => .deleted
  | .watermark _ => .watermark
  | .bulk _ => .bulk
  | .gap _ => .gap

/-- The table data of a `rows` or `snapshot` record. -/
def tableRows : Body V → Option (TableRows V)
  | .rows data | .snapshot _ data => some data
  | _ => none

/-- Replace the rows of a `rows` or `snapshot` record. -/
def withRows (rows : List (RowChange V)) : Body V → Body V
  | .rows data => .rows { data with rows := rows }
  | .snapshot snapshotId data => .snapshot snapshotId { data with rows := rows }
  | body => body

end Body

structure Record (V : Type) where
  envelope : Envelope
  body : Body V
  deriving DecidableEq

namespace Record

variable {V : Type}

def stream (r : Record V) : StreamId := r.envelope.stream

def position (r : Record V) : Position := r.envelope.position

def origin (r : Record V) : Origin := r.envelope.origin

/-- Renumber a piece of a record. -/
def piece (r : Record V) (fragment fragments : ℕ) : Record V :=
  { r with envelope := { r.envelope with fragment := fragment, fragments := fragments } }

end Record

/-- Identifies a whole record, all fragments together. -/
structure RecordKey where
  stream : StreamId
  position : Position
  kind : Kind
  origin : Origin
  table : Option TableGen
  snapshotId : Option String
  target : Option (String × ℕ)
  bulkTables : List TableGen
  deriving DecidableEq

/-- Identifies one fragment of one record. -/
structure DedupKey where
  record : RecordKey
  fragment : ℕ
  fragments : ℕ
  deriving DecidableEq

namespace TableGen

def key (tg : TableGen) : String ×ₗ ℕ := toLex (tg.table, tg.generation)

theorem key_injective : Function.Injective key := by
  rintro ⟨_, _⟩ ⟨_, _⟩ same
  simpa [key] using same

instance : LinearOrder TableGen := LinearOrder.lift' key key_injective

end TableGen

namespace RecordKey

variable {V : Type}

def tableOf : Body V → Option TableGen
  | .rows data | .snapshot _ data => some data.tableGen
  | .schema body => some ⟨body.table, body.generation⟩
  | _ => none

def snapshotOf : Body V → Option String
  | .snapshot snapshotId _ => some snapshotId
  | .snapshotEnd body => some body.snapshotId
  | _ => none

def targetOf : Body V → Option (String × ℕ)
  | .deleted body =>
      body.facet.map fun facet => (facet, (body.incarnation.or body.throughIncarnation).getD 0)
  | _ => none

def bulkOf : Body V → List TableGen
  | .bulk tables => tables.insertionSort (· ≤ ·)
  | _ => []

def of (r : Record V) : RecordKey where
  stream := r.stream
  position := r.position
  kind := r.body.kind
  origin := r.origin
  table := tableOf r.body
  snapshotId := snapshotOf r.body
  target := targetOf r.body
  bulkTables := bulkOf r.body

end RecordKey

def DedupKey.of {V : Type} (r : Record V) : DedupKey :=
  ⟨RecordKey.of r, r.envelope.fragment, r.envelope.fragments⟩

end Celld.Export
