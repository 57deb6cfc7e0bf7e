import Celld.Moves.View

/-!
# The books of admission

Which cells hold a residency slot, which hold an activation permit, which wait in a queue
and which are being confirmed is written down twice: on the cells, and in the counters and
queues beside them.  `Ledger` is that part of a core.  As in `View`, an absent cell is the
default one, and a handler that holds a cell is seen with the cell put back.

A `Shift` changes the books of one cell, or clears a queue together with the cells in it.
Every handler is a chain of them; what the two sides agree on is then proved shift by shift.
A chain may pass through books that no state has: a cell that a pump takes off its queue is
between two phases, and `Shift.leave` gives it one.

Some shifts break what others keep.  `Rules` says which of them a chain may take, so that a
handler is gone through once, and every invariant asks for the rules it needs.
-/

namespace Celld.Phase

/-- The phases that cannot exist outside one admitted cold route.  A start and a publication
also serve a generation swap. -/
def requiresActivationPermit (phase : Phase) (swapping : Bool) : Bool :=
  match phase with
  | .readingOwner _ | .readingNodeLease _ _ _ _ | .recoveringOwnerLog _ _
  | .readingCapacity _ _ _ | .waitingCapacity | .acquiring _ _ _
  | .reconcilingAcquire _ _ _ | .restoring _ _ => true
  | .starting _ _ | .publishing _ _ => !swapping
  | _ => false

/-- The cell stands in one of the two queues. -/
def isQueued : Phase → Bool
  | .waitingActivation | .waitingCapacity => true
  | _ => false

/-- The runtime is stopped for a generation swap. -/
def isSwapStop : Phase → Bool
  | .cleaning _ _ .swap => true
  | _ => false

/-- Where the books see a phase whose permit and whose queue are gone. -/
def revoked (phase : Phase) : Phase :=
  if phase.isParked then phase else if phase.occupiesCapacity then .resident 0 else .inactive

/-- The count of occupied slots when a cell goes from one phase to another. -/
def rebook (before after : Phase) (occupied : ℕ) : ℕ :=
  match before.occupiesCapacity, after.occupiesCapacity with
  | false, true => occupied + 1
  | true, false => occupied - 1
  | _, _ => occupied

theorem occupiesCapacity_of_isQueued {phase : Phase} (queued : phase.isQueued = true) :
    phase.occupiesCapacity = false := by
  cases phase <;> first | rfl | cases queued

theorem revoked_occupiesCapacity (phase : Phase) :
    phase.revoked.occupiesCapacity = phase.occupiesCapacity := by
  unfold revoked
  split
  · rfl
  split
  · rename_i occupies
    exact occupies.symm
  · rename_i free
    exact (Bool.eq_false_iff.mpr free).symm

theorem revoked_holds_nothing (phase : Phase) : phase.revoked.isQueued = false ∧
      (∀ swapping, phase.revoked.requiresActivationPermit swapping = false) ∧
        phase.revoked.isSwapStop = false := by
  unfold revoked
  split
  · rename_i parked
    cases phase <;> first | exact ⟨rfl, fun _ => rfl, rfl⟩ | cases parked
  split
  · exact ⟨rfl, fun _ => rfl, rfl⟩
  · exact ⟨rfl, fun _ => rfl, rfl⟩

theorem rebook_of_eq {before after : Phase}
    (same : after.occupiesCapacity = before.occupiesCapacity)
    (occupied : ℕ) : before.rebook after occupied = occupied := by
  unfold rebook
  rw [same]
  cases before.occupiesCapacity <;> rfl

end Phase

namespace Cell

/-- An owner read of the cell is outstanding, or queued. -/
def asks (cell : Cell) : Bool :=
  match cell.phase with
  | .readingOwner _ => true
  | .waitingActivation => cell.waitingActivation = some .readOwner
  | _ => false

/-- The cell cannot be where it is without a permit. -/
def requiresPermit (cell : Cell) : Bool := cell.phase.requiresActivationPermit cell.swapping

end Cell

/-- What a chain of shifts may do beyond the rules. -/
structure Rules where
  /-- A cell may leave its owner read while it is being confirmed. -/
  lenient : Prop
  /-- A cell of the table may be replaced by a new one. -/
  replaces : Prop
  /-- A queued cell may be admitted or queued once more. -/
  requeues : Prop
  /-- A permit may be left with a cell that is done with it. -/
  drops : Prop
  /-- The answer to an inventory read is outstanding. -/
  awaits : Prop

/-- The rules of one who does not ask for the books. -/
def Rules.free : Rules := ⟨True, True, True, True, True⟩

/-- The part of a core that admission keeps books on. -/
@[ext] structure Ledger where
  cellAt : CellId → Cell
  occupied : ℕ
  activationPermits : BTreeSet CellId
  activationWaiters : List CellId
  capacityWaiters : List CellId
  confirmingCells : BTreeSet CellId
  confirming : Bool
  maxResident : ℕ
  maxActivations : ℕ

namespace Ledger

variable (v : Ledger)

def put (id : CellId) (cell : Cell) : Ledger :=
  { v with cellAt := Function.update v.cellAt id cell }

@[simp] theorem put_cellAt_self (id : CellId) (next : Cell) :
    (v.put id next).cellAt id = next := Function.update_self _ _ _

theorem put_cellAt_of_ne {id other : CellId} (next : Cell) (differs : other ≠ id) :
    (v.put id next).cellAt other = v.cellAt other := Function.update_of_ne differs _ _

/-- What holds of the cell put and of every other cell holds of all. -/
theorem forall_put {v : Ledger} {id : CellId} {next : Cell} {P : CellId → Cell → Prop}
    (self : P id next)
    (others : ∀ other, other ≠ id → P other (v.cellAt other)) (key : CellId) :
    P key ((v.put id next).cellAt key) := by
  by_cases same : key = id
  · subst same
    rw [put_cellAt_self]
    exact self
  · rw [put_cellAt_of_ne v next same]
    exact others key same

/-- Put a cell in another phase. -/
def rebook (id : CellId) (next : Cell) : Ledger :=
  { v.put id next with occupied := (v.cellAt id).phase.rebook next.phase v.occupied }

/-- The cell may go on with a cold route: it is on one, or a permit is in its name. -/
def holds (id : CellId) : Prop :=
  (v.cellAt id).requiresPermit = true ∨ id ∈ v.activationPermits

/-- The cells of both queues out of them. -/
def dequeued : Ledger :=
  { v with
    cellAt := fun id =>
      if (v.cellAt id).phase.isQueued then { v.cellAt id with phase := .inactive } else v.cellAt id
    activationWaiters := []
    capacityWaiters := [] }

/-- No permits and no queues: every cell holds a slot as it did, and nothing else. -/
def revoked : Ledger :=
  { v with
    cellAt := fun id => { v.cellAt id with phase := (v.cellAt id).phase.revoked }
    activationPermits := ∅
    activationWaiters := []
    capacityWaiters := [] }

/-- The name leaves a queue, if the cell waits in that one. -/
structure Left (waits : Prop) (id : CellId) (before after : List CellId) : Prop where
  sublist : after.Sublist before
  others : ∀ other ∈ before, other ≠ id → other ∈ after
  gone : waits → before.Nodup → id ∉ after

theorem left_filter (waits : Prop) (id : CellId) (queue : List CellId) :
    Left waits id queue (queue.filter (· ≠ id)) where
  sublist := List.filter_sublist
  others _ mem differs := List.mem_filter.mpr ⟨mem, decide_eq_true differs⟩
  gone _ _ mem := of_decide_eq_true (List.mem_filter.mp mem).2 rfl

theorem left_pop (waits : Prop) (id : CellId) (rest : List CellId) :
    Left waits id (id :: rest) rest where
  sublist := List.sublist_cons_self id rest
  others _ mem differs := (List.mem_cons.mp mem).resolve_left differs
  gone _ nodup := (List.nodup_cons.mp nodup).1

theorem left_of_not {waits : Prop} (elsewhere : ¬ waits) (id : CellId) (queue : List CellId) :
    Left waits id queue queue where
  sublist := List.Sublist.refl queue
  others _ mem _ := mem
  gone here := absurd here elsewhere

end Ledger

/-- The mark of a confirmation is carried along, and the cell stays with its owner read. -/
def Rules.carries (r : Rules) (cell next : Cell) : Prop :=
  next.confirming = cell.confirming ∧
    (r.lenient ∨ cell.confirming = false ∨ (cell.asks = true → next.asks = true))

/-- **One entry in the books.** -/
inductive Shift (r : Rules) (v : Ledger) : Ledger → Prop
  /-- The cell stays in its phase. -/
  | touch (id : CellId) (next : Cell) (phase : next.phase = (v.cellAt id).phase)
      (waitingFor : next.waitingFor = (v.cellAt id).waitingFor ∨ next.phase.isQueued = false)
      (waitingActivation :
        next.waitingActivation = (v.cellAt id).waitingActivation ∨ next.phase.isQueued = false)
      (confirming : next.confirming = (v.cellAt id).confirming)
      (swapping : next.swapping = (v.cellAt id).swapping ∨ next.phase.isResident = true) :
      Shift r v (v.put id next)
  | move (id : CellId) (next : Cell)
      (settled : (v.cellAt id).phase.isQueued = false ∨ r.requeues)
      (unqueued : next.phase.isQueued = false)
      (permitted : next.requiresPermit = true → v.holds id ∨
        (v.cellAt id).phase.isSwapStop = true ∧ next.swapping = (v.cellAt id).swapping ∧
          next.phase.requiresActivationPermit true = false)
      (swaps : next.phase.isSwapStop = true → next.swapping = true)
      (room : next.phase.occupiesCapacity = true →
        (v.cellAt id).phase.occupiesCapacity = true ∨ v.occupied < v.maxResident)
      (keeps : r.drops ∨
        ((v.cellAt id).phase.holdsActivation = true → next.phase.holdsActivation = true))
      (carries : r.carries (v.cellAt id) next) : Shift r v (v.rebook id next)
  /-- The cell waits for a permit. -/
  | queue (id : CellId) (next : Cell)
      (settled : (v.cellAt id).phase.isQueued = false ∨ r.requeues)
      (phase : next.phase = .waitingActivation) (kept : next.waitingActivation.isSome = true)
      (unpermitted : id ∉ v.activationPermits) (carries : r.carries (v.cellAt id) next) :
      Shift r v { v.rebook id next with activationWaiters := v.activationWaiters ++ [id] }
  /-- The cell waits for a residency slot. -/
  | wait (id : CellId) (next : Cell)
      (settled : (v.cellAt id).phase.isQueued = false ∨ r.requeues)
      (phase : next.phase = .waitingCapacity) (kept : next.waitingFor.isSome = true)
      (permitted : v.holds id) (carries : r.carries (v.cellAt id) next) :
      Shift r v { v.rebook id next with capacityWaiters := v.capacityWaiters ++ [id] }
  /-- The cell leaves its queue, with a permit or without. -/
  | leave (id : CellId) (next : Cell) (queued : (v.cellAt id).phase.isQueued = true)
      (unqueued : next.phase.isQueued = false) (free : next.phase.occupiesCapacity = false)
      (activation capacity : List CellId)
      (leftActivation : Ledger.Left ((v.cellAt id).phase = .waitingActivation) id
        v.activationWaiters activation)
      (leftCapacity : Ledger.Left ((v.cellAt id).phase = .waitingCapacity) id
        v.capacityWaiters capacity)
      (grant : Bool)
      (granted : grant = true → v.activationPermits.size < v.maxActivations)
      (permitted : next.requiresPermit = true → grant = true ∨ v.holds id)
      (keeps : r.drops ∨
        ((v.cellAt id).phase.holdsActivation = true ∨ grant = true →
          next.phase.holdsActivation = true))
      (carries : r.carries (v.cellAt id) next) :
      Shift r v { v.put id next with
        activationWaiters := activation
        capacityWaiters := capacity
        activationPermits :=
          if grant then v.activationPermits.insert id else v.activationPermits }
  /-- The head of the activation queue does not wait there. -/
  | skipActivation (id : CellId) (rest : List CellId) (head : v.activationWaiters = id :: rest)
      (idle : (v.cellAt id).phase ≠ .waitingActivation ∨ (v.cellAt id).waitingActivation = none) :
      Shift r v { v with activationWaiters := rest }
  /-- The head of the capacity queue does not wait there. -/
  | skipCapacity (id : CellId) (rest : List CellId) (head : v.capacityWaiters = id :: rest)
      (idle : (v.cellAt id).phase ≠ .waitingCapacity ∨ (v.cellAt id).waitingFor = none) :
      Shift r v { v with capacityWaiters := rest }
  | permit (id : CellId) (room : v.activationPermits.size < v.maxActivations)
      (settled : (v.cellAt id).phase.isQueued = false ∨ r.requeues) (drops : r.drops) :
      Shift r v { v with activationPermits := v.activationPermits.insert id }
  /-- The cells that left their cold route return their permits. -/
  | retain (permits : BTreeSet CellId)
      (kept : ∀ id, id ∈ permits ↔
        id ∈ v.activationPermits ∧ (v.cellAt id).phase.holdsActivation = true)
      (size : permits.size ≤ v.activationPermits.size) :
      Shift r v { v with activationPermits := permits }
  | dequeue (quiet : r.lenient ∨ ∀ id, (v.cellAt id).confirming = false) (drops : r.drops) :
      Shift r v v.dequeued
  | revoke (quiet : r.lenient ∨ ∀ id, (v.cellAt id).confirming = false) : Shift r v v.revoked
  /-- A cell whose owner is being read is marked as one to confirm. -/
  | mark (id : CellId) (asks : (v.cellAt id).asks = true) :
      Shift r v { v.put id { v.cellAt id with confirming := true } with
        confirmingCells := v.confirmingCells.insert id }
  | settle (id : CellId) :
      Shift r v { v.put id { v.cellAt id with confirming := false } with
        confirmingCells := v.confirmingCells.erase id
        confirming :=
          if v.confirmingCells.contains id && (v.confirmingCells.erase id).isEmpty then false
          else v.confirming }
  | lower : Shift r v { v with confirming := false }
  | inventory (awaits : r.awaits) : Shift r v { v with confirming := true }
  | replace (id : CellId) (next : Cell) (allowed : r.replaces)
      (confirming : next.confirming = false)
        (unmarked : (v.cellAt id).confirming = false ∨ r.lenient)
      (phase : next.phase = .inactive) : Shift r v (v.put id next)

/-- A chain of shifts. -/
abbrev Shifts (r : Rules) : Ledger → Ledger → Prop := Trail (Shift r)

/-- No cell is being confirmed, or the mark is of no concern. -/
def Rules.calm (r : Rules) (v : Ledger) : Prop :=
  r.lenient ∨ ∀ key, (v.cellAt key).confirming = false

/-- The cell stays in its phase and in its queue. -/
structure Cell.Touches (cell next : Cell) : Prop where
  phase : next.phase = cell.phase
  waitingFor : next.waitingFor = cell.waitingFor ∨ next.phase.isQueued = false
  waitingActivation :
    next.waitingActivation = cell.waitingActivation ∨ next.phase.isQueued = false
  confirming : next.confirming = cell.confirming
  swapping : next.swapping = cell.swapping ∨ next.phase.isResident = true

namespace Cell

/-- The books take the cell in hand for `base`. -/
structure Stands (base cell : Cell) : Prop where
  occupies : cell.phase.occupiesCapacity = base.phase.occupiesCapacity
  confirming : cell.confirming = base.confirming

theorem Stands.refl (cell : Cell) : cell.Stands cell := ⟨rfl, rfl⟩

theorem Touches.stands {base cell : Cell} (touches : base.Touches cell) : base.Stands cell :=
  ⟨by rw [touches.phase], touches.confirming⟩

theorem Stands.touch {base cell next : Cell} (stands : base.Stands cell)
    (phase : next.phase = cell.phase) (confirming : next.confirming = cell.confirming) :
    base.Stands next :=
  ⟨by rw [phase]; exact stands.occupies, confirming.trans stands.confirming⟩

end Cell

/-- The cell has no mark, or no read to leave. -/
def Rules.quiet (r : Rules) (cell : Cell) : Prop :=
  r.lenient ∨ cell.confirming = false ∨ cell.asks = false

theorem Rules.quiet.carries {r : Rules} {base next : Cell} (quiet : r.quiet base)
    (confirming : next.confirming = base.confirming) : r.carries base next := by
  refine ⟨confirming, quiet.imp_right (Or.imp_right fun silent asks => ?_)⟩
  rw [silent] at asks
  cases asks

namespace Phase

/-- A phase that holds nothing: no slot, no permit, no place in a queue. -/
def isFree : Phase → Bool
  | .adopting _ _ => true
  | phase => phase.isParked

theorem isFree_of_isParked {phase : Phase} (parked : phase.isParked = true) :
    phase.isFree = true := by
  cases phase <;> first | rfl | exact parked

/-- A phase that takes a permit and keeps it. -/
def isCold (phase : Phase) : Bool :=
  phase.requiresActivationPermit false && !phase.isQueued

structure Free (phase : Phase) : Prop where
  unqueued : phase.isQueued = false
  unpermitted : ∀ swapping, phase.requiresActivationPermit swapping = false
  noStop : phase.isSwapStop = false
  vacant : phase.occupiesCapacity = false

theorem free_of_isFree {phase : Phase} (free : phase.isFree = true) : phase.Free := by
  cases phase with
  | inactive | waitingOwnerLogRecovery | dormant | adopting | remote | fenced =>
    exact ⟨rfl, fun _ => rfl, rfl, rfl⟩
  | _ => cases free

structure Cold (phase : Phase) : Prop where
  unqueued : phase.isQueued = false
  noStop : phase.isSwapStop = false
  holds : phase.holdsActivation = true

theorem cold_of_isCold {phase : Phase} (cold : phase.isCold = true) : phase.Cold := by
  cases phase with
  | readingOwner | readingNodeLease | recoveringOwnerLog | readingCapacity | acquiring
  | reconcilingAcquire | restoring | starting | publishing => exact ⟨rfl, rfl, rfl⟩
  | _ => cases cold

end Celld.Phase
