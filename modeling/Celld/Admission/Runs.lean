import Celld.Admission.Books
import Celld.Lease.Lapse

/-!
# The books of a run

What the books agree on, in every state of every run: the count of residents and its cap, the
permits and the two queues, and the cells to confirm.  The invariants are those of
`Celld.Admission.Books`, read off the table itself.

Each of the three goes wrong on an input that the node can be given.  A resuming node that is
told two live epochs of one cell counts the cell twice.  A move to another node that completes
while its cell waits in a queue puts the cell there once more.  And a cell to confirm is
forgotten when its last caller leaves, on a clean reload and when the lease is lost: it stays
marked, and no owner read settles it.
-/

namespace Celld

open List Std.ExtTreeMap

/-! ## The table behind the books -/

namespace Core

variable {c : Core} {id : CellId}

/-- The cells that occupy a residency slot. -/
def occupants (c : Core) : List (CellId × Cell) :=
  c.cells.toList.filter fun (_, cell) => cell.phase.occupiesCapacity

theorem ledger_cellAt (c : Core) (id : CellId) :
    c.ledger.cellAt id = (c.cells[id]?).getD {} := rfl

theorem ledger_cellAt_of_get {cell : Cell} (found : c.cells[id]? = some cell) :
    c.ledger.cellAt id = cell := by
  rw [ledger_cellAt, found]
  rfl

/-- What the books say of a cell that is not a new one, they say of the table. -/
theorem exists_cell {P : Cell → Prop} (fresh : ¬ P {}) :
    P (c.ledger.cellAt id) ↔ ∃ cell, c.cells[id]? = some cell ∧ P cell := by
  rw [ledger_cellAt]
  cases c.cells[id]? with
  | none => simpa using fresh
  | some => simp

theorem occupants_length {cells : Finset CellId} (seen : c.ledger.Occupants cells) :
    c.occupants.length = cells.card := by
  have distinct : (c.occupants.map Prod.fst).Nodup := by
    have keys : (c.cells.toList.map Prod.fst).Nodup := by
      rw [map_fst_toList_eq_keys]
      exact nodup_keys
    exact keys.sublist (filter_sublist.map Prod.fst)
  have same : (c.occupants.map Prod.fst).toFinset = cells := by
    ext id
    rw [mem_toFinset, seen id,
      exists_cell (P := fun cell => cell.phase.occupiesCapacity = true)
        (by simp [Phase.occupiesCapacity])]
    simp only [occupants, mem_map, mem_filter, Prod.exists]
    constructor
    · rintro ⟨_, cell, ⟨mem, occupies⟩, rfl⟩
      exact ⟨cell, mem_toList_iff_getElem?_eq_some.mp mem, occupies⟩
    · rintro ⟨cell, found, occupies⟩
      exact ⟨id, cell, ⟨mem_toList_iff_getElem?_eq_some.mpr found, occupies⟩, rfl⟩
  rw [← same, toFinset_card_of_nodup distinct, length_map]

/-- Permits, queues and phases agree. -/
structure AdmitsInOrder (c : Core) : Prop where
  ceiling : c.activationPermits.size ≤ c.config.maxActivations
  used : ∀ id ∈ c.activationPermits,
    ∃ cell, c.cells[id]? = some cell ∧ cell.phase.holdsActivation = true
  permitted : ∀ (id : CellId) (cell : Cell), c.cells[id]? = some cell →
    cell.phase.requiresActivationPermit cell.swapping = true → id ∈ c.activationPermits
  activation : ∀ id, id ∈ c.activationWaiters ↔
    ∃ cell, c.cells[id]? = some cell ∧ cell.phase = .waitingActivation
  activationNodup : c.activationWaiters.Nodup
  apart : ∀ id ∈ c.activationWaiters, id ∉ c.activationPermits
  capacity : ∀ id, id ∈ c.capacityWaiters ↔
    ∃ cell, c.cells[id]? = some cell ∧ cell.phase = .waitingCapacity
  capacityNodup : c.capacityWaiters.Nodup
  saved : ∀ id ∈ c.capacityWaiters,
    ∃ cell, c.cells[id]? = some cell ∧ cell.waitingFor.isSome = true

theorem admitsInOrder_of_books (booked : c.ledger.Booked) (held : c.ledger.Held) :
    c.AdmitsInOrder where
  ceiling := booked.permits
  used id mem := (exists_cell
    (by simp [Phase.holdsActivation])).mp (held id mem)
  permitted id cell found requires := by
    refine (booked.cells id).admitted ?_
    rw [ledger_cellAt_of_get found]
    exact requires
  activation id := (booked.cells id).activation.trans
    (exists_cell (P := fun cell => cell.phase = .waitingActivation) (by simp))
  activationNodup := booked.activationNodup
  apart id mem := (booked.cells id).apart ((booked.cells id).activation.mp mem)
  capacity id := (booked.cells id).capacity.trans
    (exists_cell (P := fun cell => cell.phase = .waitingCapacity) (by simp))
  capacityNodup := booked.capacityNodup
  saved id mem := (exists_cell (by simp)).mp
    ((booked.cells id).saved ((booked.cells id).capacity.mp mem))

/-- Every cell to confirm has its owner read ahead, and the node confirms only while there is
one, or while an inventory is outstanding. -/
structure ConfirmsInOrder (c : Core) (outstanding : Prop) : Prop where
  marked : ∀ id, id ∈ c.confirmingCells ↔
    ∃ cell, c.cells[id]? = some cell ∧ cell.confirming = true
  asks : ∀ (id : CellId) (cell : Cell), c.cells[id]? = some cell → cell.confirming = true →
    (∃ op, cell.phase = .readingOwner op) ∨
      cell.phase = .waitingActivation ∧ cell.waitingActivation = some .readOwner
  drains : c.confirming = true → c.confirmingCells.isEmpty = false ∨ outstanding

theorem confirmsInOrder_of_books {outstanding : Prop} (marked : c.ledger.Marked)
    (drains : c.ledger.Drains outstanding) : c.ConfirmsInOrder outstanding where
  marked id :=
    (marked.cells id).trans (exists_cell (P := fun cell => cell.confirming = true) (by simp))
  asks id cell found confirming := by
    have asks := marked.asks id
    rw [ledger_cellAt_of_get found] at asks
    have asks := asks confirming
    unfold Cell.asks at asks
    split at asks
    · rename_i op phase
      exact .inl ⟨op, phase⟩
    · rename_i phase
      exact .inr ⟨phase, by simpa using asks⟩
    · cases asks
  drains := drains

end Core

theorem Turn.retained_held {χ : Type} (t : Turn χ) : t.retained.Held := fun id mem =>
  ((CoreTurn.mem_retainActivationPermits { t.toCore with effects := [] } id).mp mem).2

/-- **After every event, every permit is used.** -/
theorem onEvent_held {χ : Type} (s : State χ) (event : Event χ) :
    (onEvent s event).1.ledger.Held := by
  rw [onEvent_toLedger]
  let strict : Rules := ⟨True, False, True, False, True⟩
  exact Trail.invariant (fun _ _ => Ledger.Held.shift id id) (Turn.pumps_retained (r := strict))
    (Turn.retained_held _)

namespace Run

variable {χ : Type} {r : Run χ} {i : ℕ}

/-- What a starting process has and every event keeps, given what the event may meet. -/
theorem books {P : State χ → Event χ → Prop} {Q : Ledger → Prop}
    (meets : ∀ i event, r.events[i]? = some event → P (r.stateAt i) event)
    (start : Q (State.new r.node r.config : State χ).ledger)
    (step : ∀ s event, (s.view []).CacheSound → P s event → Q s.ledger →
      Q (onEvent s event).1.ledger) :
    ∀ i ≤ r.events.length, Q (r.stateAt i).ledger := by
  refine history ?_ ?_
  · rw [stateAt_zero]
    exact start
  · intro i event told holds
    rw [stateAt_succ told]
    exact step _ event (r.stateAt_cacheSound i) (meets i event told) holds

/-- The same, for what every shift of the books keeps. -/
theorem books_of_shifts {P : State χ → Event χ → Prop} {Q : Ledger → Prop} (rules : Rules)
    (awaits : rules.awaits) (meets : ∀ i event, r.events[i]? = some event → P (r.stateAt i) event)
    (start : Q (State.new r.node r.config : State χ).ledger)
    (allows : ∀ s event, P s event → s.Allows rules event)
    (step : ∀ v w, Shift rules v w → Q v → Q w) : ∀ i ≤ r.events.length, Q (r.stateAt i).ledger :=
  books meets start fun s event sound meets =>
    (onEvent_ledger sound (allows s event meets) fun _ => awaits).invariant step

/-! ## Residency -/

theorem counted (once : ∀ i event, r.events[i]? = some event → (r.stateAt i).ResumesOnce event) :
    ∀ i ≤ r.events.length, (r.stateAt i).ledger.Counted := by
  refine books_of_shifts ⟨True, False, True, True, True⟩ trivial once
    ⟨⟨∅, fun id => ?_, rfl⟩, Nat.zero_le _⟩
    (fun _ _ resumes => ⟨trivial, .inr resumes, .inl trivial, .inl trivial⟩)
    fun _ _ shift => Ledger.Counted.shift id shift
  simp [Core.ledger_cellAt, State.new, Phase.occupiesCapacity]

/-- **The residency cap.**  If a node that resumes is told each live cell once, the count of
occupied slots is the number of cells that occupy one, and never exceeds the cap. -/
theorem occupied_eq_occupants (r : Run χ)
    (once : ∀ i event, r.events[i]? = some event → (r.stateAt i).ResumesOnce event) :
    ∀ i ≤ r.events.length,
      (r.stateAt i).occupied = (r.stateAt i).occupants.length ∧
        (r.stateAt i).occupied ≤ r.config.maxResident := by
  intro i within
  have books := counted once i within
  obtain ⟨_, seen, card⟩ := books.occupants
  refine ⟨card.symm.trans (Core.occupants_length seen).symm, ?_⟩
  rw [← (r.node_config i within).2]
  exact books.cap

/-- A process restarts after a clean stop, within the lease of its predecessor, and is told what
is on its disk. -/
def resumed (cells : List LocalCell) : Run Unit :=
  leased [.startNodeLease 100000 0 { nineSeconds with resumeGeneration := some "f" },
    .selfNodeLeaseRead 1 100000 0 (.ok (some { ourRecord 101000 "e0" with generation := "f" })),
    .nodeLeaseCasCompleted 2 0 (.ok (.applied "e1")) none, .localCellsRead (.ok cells)]

/-- Two live epochs of one cell take two slots, for one cell that occupies one. -/
theorem twoEpochs_occupied :
    ((resumed [⟨"a", 1, true⟩, ⟨"a", 2, true⟩]).stateAt 4).occupied = 2 ∧
      ((resumed [⟨"a", 1, true⟩, ⟨"a", 2, true⟩]).stateAt 4).occupants.length = 1 := by
  decide +kernel

/-- Two cells, and an older epoch of one that was evicted. -/
theorem resumed_occupied :
    ((resumed [⟨"a", 2, true⟩, ⟨"a", 1, false⟩, ⟨"b", 5, true⟩]).stateAt 4).occupied = 2 ∧
    ((resumed [⟨"a", 2, true⟩, ⟨"a", 1, false⟩, ⟨"b", 5, true⟩]).stateAt 4).occupied =
      ((resumed [⟨"a", 2, true⟩, ⟨"a", 1, false⟩, ⟨"b", 5, true⟩]).stateAt 4).occupants.length := by
  refine ⟨by decide +kernel, (occupied_eq_occupants _ (fun i event told => ?_) 4 le_rfl).1⟩
  rcases i with _ | _ | _ | _ | i <;> cases told
  · trivial
  · trivial
  · trivial
  · intro _ _ _
    unfold CoreTurn.LivesOnce
    decide

/-! ## Permits and queues -/

theorem booked (once : ∀ i event, r.events[i]? = some event →
      (r.stateAt i).ResumesOnce event ∧ (r.stateAt i).ReleasesOnce event) :
    ∀ i ≤ r.events.length, (r.stateAt i).ledger.Booked := by
  refine books_of_shifts (P := fun s event => s.ResumesOnce event ∧ s.ReleasesOnce event)
    ⟨True, False, False, True, True⟩ trivial once
    ⟨Nat.zero_le _, nodup_nil, nodup_nil, fun id => ?_⟩
    (fun _ _ meets => ⟨trivial, .inr meets.1, .inr meets.2, .inl trivial⟩)
    fun _ _ shift => Ledger.Booked.shift id id shift
  refine .of_unqueued ?_ not_mem_nil not_mem_nil ?_ ?_ <;>
    simp [Core.ledger_cellAt, State.new, Phase.isQueued, Cell.requiresPermit,
      Phase.requiresActivationPermit, Phase.isSwapStop]

theorem held (r : Run χ) : ∀ i ≤ r.events.length, (r.stateAt i).ledger.Held := by
  refine books (P := fun _ _ => True) (fun _ _ _ => trivial) ?_ fun s event _ _ _ =>
    onEvent_held s event
  intro _ mem
  simp [Core.ledger, CoreTurn.ledger, State.new] at mem

/-- **Activation admission.**  If moreover no completed release meets its cell in a queue with
callers, permits, queues and phases agree in every state. -/
theorem admitsInOrder (r : Run χ)
    (once : ∀ i event, r.events[i]? = some event →
      (r.stateAt i).ResumesOnce event ∧ (r.stateAt i).ReleasesOnce event) :
    ∀ i ≤ r.events.length, (r.stateAt i).AdmitsInOrder := fun i within =>
  Core.admitsInOrder_of_books (booked once i within) (r.held i within)

/-- A process with one permit, told `events` once it has its first lease and was asked for the
inventory of its disk. -/
def inventoried (events : List (Event Unit)) : Run Unit where
  node := "n"
  config := { sampleConfig with requireNodeLease := true, maxActivations := 1 }
  events := firstLease ++ events

/-- Cell `b` of the inventory is ours and dormant; a rebalance begins to move it away.  The only
permit goes to cell `c`, a wake puts `b` in the queue for it, and then a request joins `b`. -/
def wokenInMove : List (Event Unit) :=
  [.localCellsRead (.ok [⟨"b", 1, false⟩]), .ownerRead 3 100000 (.ok (some ⟨some "n", 1, "x"⟩)),
    .rebalance 1, .request 1 "c", .wakeHint "b" 5 .owned, .request 2 "b"]

/-- The release completes, and `b` is queued twice. -/
theorem wokenInMove_queuedTwice :
    ((inventoried (wokenInMove ++ [.ownerReleased 4 (.ok .applied)])).stateAt 10).activationWaiters
      = ["b", "b"] := by
  decide +kernel

/-- The same move without the wake: the request waits for it on the dormant cell, and reads the
owner anew when it fails. -/
def failedMove : Run Unit :=
  inventoried [.localCellsRead (.ok [⟨"b", 1, false⟩]),
    .ownerRead 3 100000 (.ok (some ⟨some "n", 1, "x"⟩)), .rebalance 1, .request 1 "c",
    .request 2 "b", .ownerReleased 4 (.error .definite)]

theorem failedMove_releasesOnce :
    (failedMove.stateAt 8).ReleasesOnce (.ownerReleased 4 (.error .definite)) := by
  intro _ _ index found _ _ _
  have moved : (failedMove.stateAt 8).cellOps[4]? = some "b" := by decide +kernel
  have dormant : ((failedMove.stateAt 8).cells["b"]?).map (·.phase.isQueued) = some false := by
    decide +kernel
  rw [moved] at index
  rw [← Option.some.inj index] at found
  rw [found] at dormant
  exact Option.some.inj dormant

theorem failedMove_admitsInOrder :
    (failedMove.stateAt 9).activationWaiters = ["b"] ∧ (failedMove.stateAt 9).AdmitsInOrder := by
  refine ⟨by decide +kernel, admitsInOrder _ (fun i event told => ?_) 9 le_rfl⟩
  rcases i with _ | _ | _ | _ | _ | _ | _ | _ | _ | i <;> cases told
  all_goals first | exact ⟨trivial, trivial⟩ | skip
  · refine ⟨fun confirming => ?_, trivial⟩
    have asked : (failedMove.stateAt 3).confirming = true := by decide +kernel
    cases asked.symm.trans confirming
  · exact ⟨trivial, failedMove_releasesOnce⟩

/-! ## The cells to confirm -/

/-- An inventory was asked for, and its answer has not come by event `i`. -/
def InventoryOutstanding (r : Run χ) (i : ℕ) : Prop :=
  ∃ j < i, .cell .readLocalCells ∈ r.effectsAt j ∧
    ∀ k, j < k → k < i → ∀ result, r.events[k]? ≠ some (.localCellsRead result)

theorem InventoryOutstanding.succ {event : Event χ} (outstanding : r.InventoryOutstanding i)
    (told : r.events[i]? = some event) (other : ∀ result, event ≠ .localCellsRead result) :
    r.InventoryOutstanding (i + 1) := by
  obtain ⟨j, before, asked, unanswered⟩ := outstanding
  refine ⟨j, Nat.lt_succ_of_lt before, asked, fun k after within result answered => ?_⟩
  rcases Nat.lt_succ_iff_lt_or_eq.mp within with earlier | rfl
  · exact unanswered k after earlier result answered
  · exact other result (Option.some.inj (told.symm.trans answered))

theorem marked (keeps : ∀ i event, r.events[i]? = some event → (r.stateAt i).KeepsMarks event) :
    ∀ i ≤ r.events.length, (r.stateAt i).ledger.Marked := by
  refine books_of_shifts ⟨False, True, True, True, True⟩ trivial keeps
    ⟨fun id => ?_, fun id confirming => ?_⟩
    (fun _ _ keeps => ⟨trivial, .inl trivial, .inl trivial, .inr keeps⟩)
    fun _ _ shift => Ledger.Marked.shift id shift
  · simp [Core.ledger, CoreTurn.ledger, State.new]
  · simp [Core.ledger_cellAt, State.new] at confirming

end Run

/-- **The answer to an inventory ends the wait for it.** -/
theorem CoreTurn.localCellsRead_drains (t : CoreTurn) (result : Except Failure (List LocalCell)) :
    (t.localCellsRead result).ledger.Drains False := by
  let rules : Rules := ⟨True, True, True, True, False⟩
  cases confirming : t.confirming with
  | true =>
    unfold localCellsRead
    rw [if_pos confirming]
    unfold confirmLocalCells
    split
    · exact fun still => nomatch still
    · dsimp only
      split
      · exact fun still => nomatch still
      · rename_i remaining
        exact fun _ => .inl (Bool.eq_false_iff.mpr remaining)
  | false =>
    have turns :
        Turns { Grants.none with resume := fun _ _ => True } rules t (t.localCellsRead result) :=
      localCellsRead_turn trivial result (fun _ _ _ _ => trivial) (.inl trivial)
    refine turns.2.invariant (fun _ _ shift => Ledger.Drains.shift shift) ?_
    exact fun still => nomatch confirming.symm.trans still

namespace Run

variable {χ : Type} {r : Run χ} {i : ℕ}

theorem drains_succ {event : Event χ} (told : r.events[i]? = some event)
    (drains : (r.stateAt i).ledger.Drains (r.InventoryOutstanding i)) :
    (r.stateAt (i + 1)).ledger.Drains (r.InventoryOutstanding (i + 1)) := by
  rw [stateAt_succ told]
  by_cases answers : ∃ result, event = .localCellsRead result
  · obtain ⟨result, rfl⟩ := answers
    let settled : Rules := ⟨True, True, True, True, False⟩
    let answered : Turn χ :=
      Turn.handle { (r.stateAt i).foldClocks (.localCellsRead result) with effects := [] }
        (.localCellsRead result)
    have ended : answered.ledger.Drains False := CoreTurn.localCellsRead_drains _ result
    have drained := (Turn.pumps_steps (H := .none) (r := settled)).2.invariant
      (fun _ _ shift => Ledger.Drains.shift shift) ended
    rw [onEvent_toLedger]
    exact fun confirming => (drained confirming).imp_right False.elim
  · have other : ∀ result, event ≠ .localCellsRead result :=
      fun result same => answers ⟨result, same⟩
    let rules : Rules := ⟨True, True, True, True, r.InventoryOutstanding (i + 1)⟩
    have asked : .cell .readLocalCells ∈ (onEvent (r.stateAt i) event).2 → rules.awaits := by
      intro raised
      refine ⟨i, lt_add_one i, by rw [effectsAt_of_told told]; exact raised, ?_⟩
      exact fun k after within => absurd (Nat.le_of_lt_succ within) (Nat.not_le.mpr after)
    have shifts : Shifts rules (r.stateAt i).ledger (onEvent (r.stateAt i) event).1.ledger :=
      onEvent_ledger (r.stateAt_cacheSound i) ⟨trivial, .inl trivial, .inl trivial,
        .inl trivial⟩ asked
    refine shifts.invariant (fun _ _ shift => Ledger.Drains.shift shift) fun confirming => ?_
    exact (drains confirming).imp_right fun outstanding => outstanding.succ told other

theorem drains (r : Run χ) :
    ∀ i ≤ r.events.length, (r.stateAt i).ledger.Drains (r.InventoryOutstanding i) := by
  refine history ?_ fun i event told => drains_succ told
  rw [stateAt_zero]
  exact fun confirming => nomatch confirming

/-- **Confirmation drains.**  If no cancellation takes the last demand off a queued cell to
confirm, and no clean reload and no loss of the lease meets a cell to confirm, then in every
state the cells to confirm are the marked ones, the owner read of each is outstanding or queued,
and the node confirms only while there is one or an inventory is outstanding. -/
theorem confirmsInOrder (r : Run χ)
    (keeps : ∀ i event, r.events[i]? = some event → (r.stateAt i).KeepsMarks event) :
    ∀ i ≤ r.events.length, (r.stateAt i).ConfirmsInOrder (r.InventoryOutstanding i) :=
  fun i within => Core.confirmsInOrder_of_books (marked keeps i within) (r.drains i within)

/-- Cell `c` has the only permit, and cell `b` of the inventory waits for it to be confirmed. -/
def waitsToConfirm : List (Event Unit) := [.request 1 "c", .localCellsRead (.ok [⟨"b", 1, false⟩])]

/-- The mark and the phase of cell `b`. -/
def markOfB (r : Run Unit) (i : ℕ) : Option (Bool × Phase) :=
  ((r.stateAt i).cells["b"]?).map fun cell => (cell.confirming, cell.phase)

/-- The only caller of `b` leaves, the node reloads, or it is fenced: `b` stays marked, and
nothing reads its owner. -/
theorem waitsToConfirm_forgotten :
    (inventoried (waitsToConfirm ++ [.request 2 "b", .cancel 2])).markOfB 7 =
      some (true, .inactive) ∧
      (inventoried (waitsToConfirm ++ [.beginPreserve])).markOfB 6 = some (true, .inactive) ∧
        (inventoried (waitsToConfirm ++ [.nodeFenced])).markOfB 6 = some (true, .fenced) := by
  decide +kernel

/-- One of two callers of `b` leaves. -/
def oneCallerLeaves : Run Unit :=
  inventoried (waitsToConfirm ++ [.request 2 "b", .request 3 "b", .cancel 2])

theorem oneCallerLeaves_keepsMarks : (oneCallerLeaves.stateAt 7).KeepsMarks (.cancel 2) := by
  rintro cell ⟨⟨_, routed, found⟩, unwanted, _⟩
  have joined : (oneCallerLeaves.stateAt 7).requestCells[2]? = some "b" := by decide +kernel
  have wanted : ((oneCallerLeaves.stateAt 7).cells["b"]?).map (fun cell =>
      Cell.wanted { cell with requests := cell.requests.erase 2 }) = some true := by
    decide +kernel
  rw [joined] at routed
  rw [← Option.some.inj routed] at found
  rw [found] at wanted
  exact nomatch (Option.some.inj wanted).symm.trans unwanted

theorem oneCallerLeaves_confirmsInOrder :
    oneCallerLeaves.markOfB 8 = some (true, .waitingActivation) ∧
      (oneCallerLeaves.stateAt 8).ConfirmsInOrder (oneCallerLeaves.InventoryOutstanding 8) := by
  refine ⟨by decide +kernel, confirmsInOrder _ (fun i event told => ?_) 8 le_rfl⟩
  rcases i with _ | _ | _ | _ | _ | _ | _ | _ | i <;> cases told
  · exact fun _ lost => nomatch lost
  · have kept : (oneCallerLeaves.stateAt 1).nodeAuthority.isLost (χ := Unit)
        (.selfNodeLeaseRead 1 100000 0 (.ok none)) = false := by decide +kernel
    exact fun _ lost => nomatch kept.symm.trans lost
  · have kept : (oneCallerLeaves.stateAt 2).nodeAuthority.isLost (χ := Unit)
        (.nodeLeaseCasCompleted 2 0 (.ok (.applied "e1")) none) = false := by decide +kernel
    exact fun _ lost => nomatch kept.symm.trans lost
  · exact fun _ lost => nomatch lost
  · exact fun _ lost => nomatch lost
  · exact fun _ lost => nomatch lost
  · exact fun _ lost => nomatch lost
  · exact oneCallerLeaves_keepsMarks

end Run

end Celld
