import Celld.Export.Delivered
import Celld.Export.Derive
import Celld.Export.Fragment

/-!
# The exporter of one process

Streams submit their records to the sink, each record numbered and registered before the sink gets
it.  The sink takes or refuses a batch, and later reports each record it took as acknowledged or
dropped.  The delivery task reads the reports, follows each stream's delivered position, and
submits watermarks, and a gap for a record that was dropped.

Everything the tasks share is one state (`Exporter`), and one event (`Event`) is one step of one of
them between two accesses to what is shared: a submission is registered, handed to the sink and, if
refused, withdrawn in three steps, and the delivery task takes its results one at a time.  What the
environment may do (the order a stream submits in, what the sink may report) is `Exporter.Legal`.

The spill table is a map and does not fail, so the flag that stops a process after a failed spill
is left out.
-/

namespace Celld.Export

/-! ## The state of a process -/

/-- A record with its number, the record it is a piece of and what is registered for it. -/
structure Queued (V : Type) where
  seq : ℕ
  record : Record V
  source : Record V
  info : Submitted

/-- Who submits. -/
inductive Submitter where
  | stream (key : DeliveryKey)
  | recovery
  | delivery
  deriving DecidableEq

/-- Where a submission is between being registered and done. -/
inductive Flight (V : Type) where
  | idle
  | registered (batch : List (Queued V))
  | refused (batch : List (Queued V))

/-- Where the delivery task is. -/
inductive Task (V : Type) where
  | idle
  /-- Reading an outcome. -/
  | results (rest : List (ℕ × SinkDelivery)) (dirty : BTreeSet DeliveryKey)
      (followUp : List (Record V × Submitted))
  /-- About to submit watermarks and gaps. -/
  | submitting (followUp : List (Record V × Submitted))

structure Exporter (V : Type) where
  nextSeq : ℕ := 0
  submitted : BTreeMap ℕ Submitted := ∅
  advances : BTreeMap ℕ Submitted := ∅
  flight : Submitter → Flight V := fun _ => .idle
  /-- The sink has refused a batch. -/
  closed : Bool := false
  /-- What the sink has taken. -/
  accepted : List (Queued V) := []
  /-- The reports the delivery task has not read. -/
  outcomes : List (List (ℕ × SinkDelivery)) := []
  task : Task V := .idle
  streams : DeliveryStates := .empty _ _ _
  /-- Everything that was registered. -/
  log : List (Queued V) := []
  /-- The results the delivery task has settled. -/
  handled : List (ℕ × SinkDelivery) := []
  /-- The highest position a stream submitted or advanced to. -/
  cursor : DeliveryKey → Option Position := fun _ => none

/-- A step of one of the tasks. -/
inductive Event (V : Type) where
  /-- A stream registers the records of its next commits, gaps, deletes or its link. -/
  | submit (key : DeliveryKey) (stream : StreamId) (cellName : Option String)
      (groups : List (List (Record V)))
  | recover (records : List (Record V × Submitted))
  /-- The sink takes a batch, or refuses it. -/
  | take (who : Submitter)
  | refuse (who : Submitter)
  | withdraw (who : Submitter)
  | advance (m : Submitted)
  | report (results : List (ℕ × SinkDelivery))
  | receive
  | result
  | resolve
  | followUp

section

variable {V : Type}

/-- The pieces of the records of one commit, with what is registered for each. -/
def groupEntries (sizes : Sizes V) (maxRecord : ℕ) (key : DeliveryKey) (stream : StreamId)
    (cellName : Option String) (group : List (Record V)) :
    List (Record V × Record V × Submitted) :=
  let pieces := group.flatMap fun r =>
    (split sizes maxRecord r).wire.map fun piece => (piece, whole sizes maxRecord r)
  pieces.mapIdx fun i piece => (piece.1, piece.2,
    { cell := key.cell
      epoch := key.epoch
      stream := stream
      cellName := cellName
      position := piece.1.position
      whole := piece.1.envelope.fragment = piece.1.envelope.fragments
      closes := i + 1 = pieces.length })

/-- Entries numbered from `seq`. -/
def numbered (seq : ℕ) (entries : List (Record V × Record V × Submitted)) : List (Queued V) :=
  entries.mapIdx fun i e => ⟨seq + i, e.1, e.2.1, e.2.2⟩

namespace Exporter

variable (x : Exporter V)

/-- Number and register a batch. -/
def register (who : Submitter)
    (entries : List (Record V × Record V × Submitted)) : Exporter V :=
  if entries.isEmpty then x
  else
    { x with
      nextSeq := x.nextSeq + entries.length
      submitted := (numbered x.nextSeq entries).foldl
        (fun submitted q => submitted.insert q.seq q.info) x.submitted
      flight := Function.update x.flight who (.registered (numbered x.nextSeq entries))
      log := x.log ++ numbered x.nextSeq entries }

/-- One result of an outcome. -/
def settleResult (seq : ℕ) (result : SinkDelivery)
    (rest : List (ℕ × SinkDelivery)) (dirty : BTreeSet DeliveryKey)
    (followUp : List (Record V × Submitted)) : Exporter V :=
  let settled := { x with
    handled := x.handled ++ [(seq, result)]
    submitted := x.submitted.erase seq
    task := .results rest dirty followUp }
  match x.submitted[seq]? with
  | none => settled
  | some m =>
      if m.recovered then settled
      else
        let gap := ((x.streams.value m.key).dropGap m result).map fun gap =>
          (({ envelope := { stream := m.stream, cellName := m.cellName, position := m.position }
              body := .gap gap } : Record V), { m with watermark := true })
        { settled with
          streams := x.streams.modify m.key (·.settle m result)
          task := .results rest (dirty.insert m.key) (followUp ++ gap.toList) }

/-- The advances nothing submitted before them still holds up. -/
def ready : List (ℕ × Submitted) :=
  x.advances.toList.filter fun a => (x.submitted.toList.head?).all fun oldest => a.1 < oldest.1

/-- The watermarks of the streams an outcome touched. -/
def markAll (streams : DeliveryStates) :
    List DeliveryKey → List (Record V × Submitted) ×
      DeliveryStates
  | [] => ([], streams)
  | key :: keys =>
      let mark := (streams.value key).due.map fun due =>
        (({ envelope := { stream := due.1.1, cellName := due.1.2, position := due.2.through }
            body := .watermark due.2 } : Record V),
          { cell := key.cell
            epoch := key.epoch
            stream := due.1.1
            cellName := due.1.2
            position := due.2.through
            whole := false
            closes := false
            watermark := true : Submitted })
      let rest := markAll (streams.modify key Delivered.mark) keys
      (mark.toList ++ rest.1, rest.2)

/-- The end of an outcome: advances are applied, and watermarks are made. -/
def resolve (dirty : BTreeSet DeliveryKey)
    (followUp : List (Record V × Submitted)) : Exporter V :=
  let ready := x.ready
  let streams := ready.foldl (fun streams a => streams.modify a.2.key (·.advance a.2)) x.streams
  let dirty := ready.foldl (fun dirty a => dirty.insert a.2.key) dirty
  let marks := markAll streams dirty.toList
  { x with
    advances := ready.foldl (fun advances a => advances.erase a.1) x.advances
    streams := marks.2
    task := .submitting (followUp ++ marks.1) }

def step (sizes : Sizes V) (maxRecord : ℕ) (x : Exporter V) : Event V → Exporter V
  | .submit key stream cellName groups =>
      { x.register (.stream key) (groups.flatMap (groupEntries sizes maxRecord key stream cellName))
        with
        cursor := Function.update x.cursor key (groups.foldl
          (fun cursor group => (group.head?.map (·.position)).or cursor) (x.cursor key)) }
  | .recover records => x.register .recovery (records.map fun r => (r.1, r.1, r.2))
  | .take who =>
      match x.flight who with
      | .registered batch =>
          { x with
            accepted := x.accepted ++ batch
            flight := Function.update x.flight who .idle }
      | _ => x
  | .refuse who =>
      match x.flight who with
      | .registered batch =>
          { x with closed := true, flight := Function.update x.flight who (.refused batch) }
      | _ => x
  | .withdraw who =>
      match x.flight who with
      | .refused batch =>
          { x with
            submitted := batch.foldl (fun submitted q => submitted.erase q.seq) x.submitted
            flight := Function.update x.flight who .idle }
      | _ => x
  | .advance m =>
      { x with
        nextSeq := x.nextSeq + 1
        advances := x.advances.insert x.nextSeq m
        outcomes := x.outcomes ++ [[]]
        cursor := Function.update x.cursor m.key (some m.position) }
  | .report results => { x with outcomes := x.outcomes ++ [results] }
  | .receive =>
      match x.outcomes with
      | outcome :: outcomes => { x with task := .results outcome ∅ [], outcomes := outcomes }
      | [] => x
  | .result =>
      match x.task with
      | .results ((seq, result) :: rest) dirty followUp =>
          x.settleResult seq result rest dirty followUp
      | _ => x
  | .resolve =>
      match x.task with
      | .results [] dirty followUp => x.resolve dirty followUp
      | _ => x
  | .followUp =>
      match x.task with
      | .submitting followUp =>
          { x.register .delivery (followUp.map fun r => (r.1, r.1, r.2)) with task := .idle }
      | _ => x

/-! ## What the environment may do -/

/-- The results the delivery task has still to settle. -/
def pending : List (ℕ × SinkDelivery) :=
  (match x.task with
    | .results rest _ _ => rest
    | _ => []) ++ x.outcomes.flatten

/-- The watermarks and gaps the delivery task is about to submit. -/
def followUps : List (Record V × Submitted) :=
  match x.task with
  | .idle => []
  | .results _ _ followUp | .submitting followUp => followUp

/-- A record a stream submitted itself. -/
def isOwn (key : DeliveryKey) (q : Queued V) : Bool :=
  q.info.key = key && !q.info.watermark && !q.info.recovered

def own (key : DeliveryKey) : List (Queued V) := x.log.filter (isOwn key)

/-- Commits at strictly increasing positions above `cursor`, each of one position. -/
def Ascends (key : DeliveryKey) (stream : StreamId) :
    Option Position → List (List (Record V)) → Prop
  | _, [] => True
  | _, [] :: _ => False
  | cursor, (r :: rest) :: groups =>
      (∀ r' ∈ r :: rest, r'.position = r.position ∧ r'.stream = stream ∧ r'.entry.isSent) ∧
        r.position.epoch = key.epoch ∧ cursor.all (· < r.position) ∧
        Ascends key stream (some r.position) groups

/-- A stream submits in increasing order, one batch at a time, and advances between what it
submitted and what it will submit.  The sink takes nothing after it refused a batch, and reports
each record it took once, the records of a stream in their order. -/
def Legal : Event V → Prop
  | .submit key stream _ groups =>
      x.flight (.stream key) = .idle ∧ stream.incarnation = key.incarnation ∧
        Ascends key stream (x.cursor key) groups
  | .recover records =>
      x.flight .recovery = .idle ∧ ∀ r ∈ records, r.2.recovered ∧ r.2.watermark = false
  | .take _ => x.closed = false
  | .refuse _ | .withdraw _ | .result | .resolve => True
  | .advance m =>
      x.flight (.stream m.key) = .idle ∧ (x.cursor m.key).all (· ≤ m.position) ∧
        m.position.epoch = m.epoch
  | .report results => ∀ before seq result after, results = before ++ (seq, result) :: after →
      seq ∉ (x.handled ++ x.pending ++ before).map (·.1) ∧
        ∃ q ∈ x.accepted, q.seq = seq ∧ ∀ key, isOwn key q → ∀ q' ∈ x.accepted, isOwn key q' →
          q'.seq < seq → q'.seq ∈ (x.handled ++ x.pending ++ before).map (·.1)
  | .receive => (match x.task with | .idle => True | _ => False) ∧ x.flight .delivery = .idle
  | .followUp => x.flight .delivery = .idle

/-- The numbers the delivery task keeps are of 64 bits, as in the source. -/
def Fits : Prop :=
  (∀ key, (x.streams.value key).fits) ∧ ∀ a ∈ x.advances.toList, a.2.fits

/-- The states of a process, from states within 64 bits. -/
inductive Reachable (sizes : Sizes V) (maxRecord : ℕ) : Exporter V → Prop
  | start : Reachable sizes maxRecord {}
  | step {x : Exporter V} (before : Reachable sizes maxRecord x) (fits : x.Fits)
      (event : Event V) (legal : x.Legal event) :
      Reachable sizes maxRecord (x.step sizes maxRecord event)

end Exporter

end

end Celld.Export
