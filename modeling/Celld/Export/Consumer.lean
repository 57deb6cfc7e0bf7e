import Celld.Export.Derive
import Celld.Export.Fragment

/-!
# The reference consumer

The consumer keeps every whole record it has been given once, and derives each stream's state from
what it holds.  Of a record it holds, a derivation reads the stream, the position, the origin and
the body (`Filed`).

The records are one list in arrival order; those of a stream are the ones filed under it.
-/

namespace Celld.Export

/-- A record as the consumer's state reads it. -/
structure Filed (V : Type) where
  stream : StreamId
  entry : Entry V
  deriving DecidableEq

def Record.filed {V : Type} (r : Record V) : Filed V := ⟨r.stream, r.entry⟩

structure Consumer (V : Type) where
  seen : List DedupKey := []
  reassembler : Reassembler V := {}
  records : List (Record V) := []

namespace Consumer

variable {V : Type} [DecidableEq V]

/-- Accept one record or fragment. -/
def ingest (c : Consumer V) (record : Record V) : Except ReassembleError Unit × Consumer V :=
  if DedupKey.of record ∈ c.seen then (.ok (), c)
  else
    let c := { c with seen := DedupKey.of record :: c.seen }
    match c.reassembler.push record with
    | (.error refused, reassembler) => (.error refused, { c with reassembler := reassembler })
    | (.ok none, reassembler) => (.ok (), { c with reassembler := reassembler })
    | (.ok (some whole), reassembler) =>
        (.ok (), { c with reassembler := reassembler, records := c.records ++ [whole] })

/-- Accept records until one is refused. -/
def ingestAll (c : Consumer V) : List (Record V) → Except ReassembleError Unit × Consumer V
  | [] => (.ok (), c)
  | record :: rest =>
      match c.ingest record with
      | (.error refused, c) => (.error refused, c)
      | (.ok (), c) => ingestAll c rest

end Consumer

/-! ## The derived state -/

/-- The facet at `path` of the same root, or a facet below it. -/
def StreamId.isAtOrUnder (s root : StreamId) (path : String) : Bool :=
  s.script = root.script && s.class_ = root.class_ && s.cell = root.cell &&
    s.facet.any fun facet => facet = path || (path.toList ++ ['/']).isPrefixOf facet.toList

/-- A `recovered` record of a stream without a script applies to this stream. -/
def StreamId.recoveredMatches (s recovered : StreamId) (head : Position)
    (candidates : List StreamId) : Bool :=
  let fits (s : StreamId) : Bool :=
    s.facet = recovered.facet && s.class_ = recovered.class_ && s.cell = recovered.cell &&
      (s.facet.isSome || s.incarnation ≤ head.epoch) &&
      (recovered.script.isEmpty || s.script = recovered.script)
  fits s && (s.facet.isSome ||
    (candidates.filter fun c => fits c && c.script = s.script).all (·.incarnation ≤ s.incarnation))

/-- A `deleted` record on the stream `root` removes the facet stream `s`. -/
def DeletedBody.removes (d : DeletedBody) (root s : StreamId) : Bool :=
  d.facet.any fun path =>
    let atPath := s.facet = some path
    let under := atPath || (d.subtree && s.isAtOrUnder root path)
    let removed := match d.throughIncarnation with
      | some bound => under && s.incarnation ≤ bound
      | none => (atPath && d.incarnation.all (· = s.incarnation)) || (under && !atPath)
    s.script = root.script && s.class_ = root.class_ && s.cell = root.cell && removed

section

variable {V : Type}

/-- A stream removed by a `deleted` record that names a facet. -/
def facetDeleted (held : List (Filed V)) (s : StreamId) : Bool :=
  held.any fun r => match r.entry.body with
    | .deleted d => d.removes r.stream s
    | _ => false

/-- A record of the stream `stream` without a script is a `recovered` record that applies to a
stream with a script. -/
def adopted (held : List (Filed V)) (stream : StreamId) (e : Entry V) : Bool :=
  match e.body with
  | .recovered b => (held.map (·.stream)).any fun s => !s.script.isEmpty &&
      s.recoveredMatches stream b.head (held.map (·.stream))
  | _ => false

/-- The entries of a stream. -/
def filedUnder (held : List (Filed V)) (stream : StreamId) : List (Entry V) :=
  (held.filter (·.stream = stream)).map (·.entry)

def fullyAdopted (held : List (Filed V)) (stream : StreamId) : Bool :=
  stream.script.isEmpty && (filedUnder held stream).all (adopted held stream)

/-- A record of a stream without a script that applies to `stream`. -/
def appliesTo (held : List (Filed V)) (stream : StreamId) (r : Filed V) : Bool :=
  r.stream.script.isEmpty && match r.entry.body with
    | .recovered b => stream.recoveredMatches r.stream b.head (held.map (·.stream))
    | _ => false

/-- A stream's own records and the `recovered` records that apply to it; a stream without a script
keeps only the records no other stream adopted. -/
def recordsOf (held : List (Filed V)) (stream : StreamId) : List (Entry V) :=
  if stream.script.isEmpty then (filedUnder held stream).filter fun e => !adopted held stream e
  else filedUnder held stream ++ (held.filter (appliesTo held stream)).map (·.entry)

variable [Ord V] [Std.TransOrd V]

/-- Derive every live stream's state. -/
def stateOf (held : List (Filed V)) (stream : StreamId) : Option (StreamState V) :=
  if stream ∈ held.map (·.stream) && !facetDeleted held stream && !fullyAdopted held stream then
    some (derive (recordsOf held stream))
  else none

def Consumer.state (c : Consumer V) : StreamId → Option (StreamState V) :=
  stateOf (c.records.map Record.filed)

end

end Celld.Export
