import Celld.Admission.Ledger

/-!
# What the books agree on

Four invariants of the books, each preserved by every shift its rules allow.

* `Counted`: the count of occupied slots is the number of cells that occupy one, and it does
  not exceed the cap.  Only a cell that replaces another one breaks it.
* `Booked`: permits and queues say what the phases say.  A cell that is queued twice breaks
  it as well.
* `Held`: every permit is in the hands of a cell that uses it.  Within a turn a permit may
  outlive its route; the pumps at the end of the turn give it back.
* `Marked` and `Drains`: the cells to confirm are the marked ones, each with its owner read
  ahead of it, and the node confirms as long as there are any.
-/

namespace Celld

open List Std.ExtTreeSet Phase

namespace Phase

theorem rebook_of_free {before after : Phase} (free : after.occupiesCapacity = false)
    (occupied : ℕ) :
    before.rebook after occupied ≤ occupied := by
  unfold rebook
  rw [free]
  cases before.occupiesCapacity
  · exact le_rfl
  · exact Nat.sub_le occupied 1

end Phase

namespace Ledger

variable {v w v : Ledger} {id : CellId} {next : Cell} {r : Rules} {permits : BTreeSet CellId}
  {before after : List CellId}

/-! ## Residency -/

/-- The cells that occupy a slot. -/
def Occupants (v : Ledger) (cells : Finset CellId) : Prop :=
  ∀ id, id ∈ cells ↔ (v.cellAt id).phase.occupiesCapacity = true

/-- The count is the number of occupants, within the cap. -/
structure Counted (v : Ledger) : Prop where
  occupants : ∃ cells, v.Occupants cells ∧ cells.card = v.occupied
  cap : v.occupied ≤ v.maxResident

theorem Occupants.put {cells : Finset CellId} (seen : v.Occupants cells) (id : CellId)
    (next : Cell) :
    ∃ after, (v.put id next).Occupants after ∧
      after.card = (v.cellAt id).phase.rebook next.phase cells.card := by
  unfold Phase.rebook
  cases occupies : next.phase.occupiesCapacity with
  | true =>
    refine ⟨insert id cells, ?_, ?_⟩
    · refine fun key => forall_put (P := fun key cell => key ∈ insert id cells ↔
        cell.phase.occupiesCapacity = true) ?_ ?_ key
      · simp [occupies]
      · intro other differs
        simpa [differs] using seen other
    · rw [Finset.card_insert_eq_ite, if_congr (seen id) rfl rfl]
      cases (v.cellAt id).phase.occupiesCapacity <;> rfl
  | false =>
    refine ⟨cells.erase id, ?_, ?_⟩
    · refine fun key => forall_put (P := fun key cell => key ∈ cells.erase id ↔
        cell.phase.occupiesCapacity = true) ?_ ?_ key
      · simp [occupies]
      · intro other differs
        simpa [differs] using seen other
    · rw [Finset.card_erase_eq_ite, if_congr (seen id) rfl rfl]
      cases (v.cellAt id).phase.occupiesCapacity <;> rfl

/-- A cell enters another phase: the count follows. -/
theorem Counted.rebook (counted : v.Counted) (id : CellId) (next : Cell)
    (room : next.phase.occupiesCapacity = true →
      (v.cellAt id).phase.occupiesCapacity = true ∨ v.occupied < v.maxResident) :
    (v.rebook id next).Counted := by
  obtain ⟨_, seen, card⟩ := counted.occupants
  obtain ⟨after, seen', card'⟩ := seen.put id next
  refine ⟨⟨after, seen', card'.trans (by rw [card]; rfl)⟩, ?_⟩
  change (v.cellAt id).phase.rebook next.phase v.occupied ≤ v.maxResident
  have cap := counted.cap
  cases occupies : next.phase.occupiesCapacity with
  | false => exact (rebook_of_free occupies _).trans cap
  | true =>
    rcases room occupies with before | below
    · rw [rebook_of_eq (occupies.trans before.symm)]
      exact cap
    · unfold Phase.rebook
      rw [occupies]
      cases (v.cellAt id).phase.occupiesCapacity
      · exact below
      · exact cap

/-- Cells that keep their slots leave the count alone. -/
theorem Counted.of_occupiesCapacity (counted : v.Counted)
    (same : ∀ id, (w.cellAt id).phase.occupiesCapacity = (v.cellAt id).phase.occupiesCapacity)
    (occupied : w.occupied = v.occupied) (maxResident : w.maxResident = v.maxResident) :
    w.Counted := by
  obtain ⟨cells, seen, card⟩ := counted.occupants
  refine ⟨⟨cells, fun id => ?_, card.trans occupied.symm⟩, ?_⟩
  · rw [same id]
    exact seen id
  · rw [occupied, maxResident]
    exact counted.cap

/-- The same, for one cell. -/
theorem Counted.put (counted : v.Counted) (id : CellId) (next : Cell)
    (same : next.phase.occupiesCapacity = (v.cellAt id).phase.occupiesCapacity) :
    (v.put id next).Counted := by
  refine counted.of_occupiesCapacity (fun key => ?_) rfl rfl
  exact forall_put (P := fun key cell => cell.phase.occupiesCapacity =
    (v.cellAt key).phase.occupiesCapacity) same (fun _ _ => rfl) key

/-- Every shift keeps the count, unless it replaces a cell of the table. -/
theorem Counted.shift (distinct : ¬ r.replaces) (shift : Shift r v w)
    (counted : v.Counted) : w.Counted := by
  cases shift with
  | touch id next phase => exact counted.put id next (by rw [phase])
  | move id next settled unqueued permitted swaps room => exact counted.rebook id next room
  | queue id next settled phase =>
    exact (counted.rebook id next (by simp [phase, occupiesCapacity]))
      |>.of_occupiesCapacity (fun _ => rfl) rfl rfl
  | wait id next settled phase =>
    exact (counted.rebook id next (by simp [phase, occupiesCapacity]))
      |>.of_occupiesCapacity (fun _ => rfl) rfl rfl
  | leave id next queued unqueued free =>
    have out := counted.put id next
      (free.trans (occupiesCapacity_of_isQueued queued).symm)
    exact out.of_occupiesCapacity (fun _ => rfl) rfl rfl
  | dequeue =>
    refine counted.of_occupiesCapacity (fun id => ?_) rfl rfl
    simp only [dequeued]
    split
    · rename_i queued
      exact (occupiesCapacity_of_isQueued queued).symm
    · rfl
  | revoke =>
    refine counted.of_occupiesCapacity (fun id => ?_) rfl rfl
    exact revoked_occupiesCapacity _
  | mark id =>
    exact (counted.put id { v.cellAt id with confirming := true } rfl)
      |>.of_occupiesCapacity (fun _ => rfl) rfl rfl
  | settle id =>
    exact (counted.put id { v.cellAt id with confirming := false } rfl)
      |>.of_occupiesCapacity (fun _ => rfl) rfl rfl
  | replace id next allowed => exact absurd allowed distinct
  | skipActivation | skipCapacity | permit | retain | lower | inventory =>
    exact counted.of_occupiesCapacity (fun _ => rfl) rfl rfl

/-! ## Permits and queues -/

/-- What the permits and the two queues say of a cell is what the cell says. -/
structure Agrees (permits : BTreeSet CellId) (activation capacity : List CellId) (id : CellId)
    (cell : Cell) : Prop where
  admitted : cell.requiresPermit = true → id ∈ permits
  swaps : cell.phase.isSwapStop = true → cell.swapping = true
  activation : id ∈ activation ↔ cell.phase = .waitingActivation
  starts : cell.phase = .waitingActivation → cell.waitingActivation.isSome = true
  apart : cell.phase = .waitingActivation → id ∉ permits
  capacity : id ∈ capacity ↔ cell.phase = .waitingCapacity
  saved : cell.phase = .waitingCapacity → cell.waitingFor.isSome = true

/-- The books of permits and queues are right. -/
structure Booked (v : Ledger) : Prop where
  permits : v.activationPermits.size ≤ v.maxActivations
  activationNodup : v.activationWaiters.Nodup
  capacityNodup : v.capacityWaiters.Nodup
  cells : ∀ id, Agrees v.activationPermits v.activationWaiters v.capacityWaiters id (v.cellAt id)

section Agrees

variable {permits permits' : BTreeSet CellId}
  {activation activation' capacity capacity' : List CellId}
  {cell : Cell}

/-- Books that say the same of a cell. -/
theorem Agrees.congr (agrees : Agrees permits activation capacity id cell)
    (permit : id ∈ permits' ↔ id ∈ permits) (first : id ∈ activation' ↔ id ∈ activation)
    (second : id ∈ capacity' ↔ id ∈ capacity) : Agrees permits' activation' capacity' id cell where
  admitted requires := permit.mpr (agrees.admitted requires)
  swaps := agrees.swaps
  activation := first.trans agrees.activation
  starts := agrees.starts
  apart waits mem := agrees.apart waits (permit.mp mem)
  capacity := second.trans agrees.capacity
  saved := agrees.saved

/-- A cell in no queue agrees with books that list it in none. -/
theorem Agrees.of_unqueued (unqueued : next.phase.isQueued = false) (first : id ∉ activation)
    (second : id ∉ capacity) (admitted : next.requiresPermit = true → id ∈ permits)
    (swaps : next.phase.isSwapStop = true → next.swapping = true) :
    Agrees permits activation capacity id next where
  admitted := admitted
  swaps := swaps
  activation := iff_of_false first fun phase => by rw [phase] at unqueued; cases unqueued
  starts phase := by rw [phase] at unqueued; cases unqueued
  apart phase := by rw [phase] at unqueued; cases unqueued
  capacity := iff_of_false second fun phase => by rw [phase] at unqueued; cases unqueued
  saved phase := by rw [phase] at unqueued; cases unqueued

theorem Agrees.notMem_activation (agrees : Agrees permits activation capacity id cell)
    (unqueued : cell.phase.isQueued = false) : id ∉ activation := fun mem => by
  rw [agrees.activation.mp mem] at unqueued
  cases unqueued

theorem Agrees.notMem_capacity (agrees : Agrees permits activation capacity id cell)
    (unqueued : cell.phase.isQueued = false) : id ∉ capacity := fun mem => by
  rw [agrees.capacity.mp mem] at unqueued
  cases unqueued

theorem Agrees.permitted (agrees : Agrees permits activation capacity id cell)
    (holds : cell.requiresPermit = true ∨ id ∈ permits) : id ∈ permits :=
  holds.elim agrees.admitted fun mem => mem

end Agrees

theorem Left.mem_iff {waits : Prop} (left : Left waits id before after) {other : CellId}
    (differs : other ≠ id) : other ∈ after ↔ other ∈ before :=
  ⟨fun mem => left.sublist.subset mem, fun mem => left.others other mem differs⟩

theorem Left.nodup {waits : Prop} (left : Left waits id before after)
    (nodup : before.Nodup) : after.Nodup := nodup.sublist left.sublist

/-- A right queue no longer has the name. -/
theorem Left.notMem {waits : Prop} (left : Left waits id before after) (nodup : before.Nodup)
    (right : id ∈ before ↔ waits) : id ∉ after := fun mem =>
  left.gone (right.mp (left.sublist.subset mem)) nodup mem

theorem size_insert_le {limit : ℕ} (room : permits.size < limit) :
    (permits.insert id).size ≤ limit := by
  rw [size_insert]
  split <;> omega

theorem mem_insert_of_ne {other : CellId} (differs : other ≠ id) :
    other ∈ permits.insert id ↔ other ∈ permits := by
  simp [mem_insert, Ne.symm differs]

theorem requiresPermit_holdsActivation {cell : Cell} (requires : cell.requiresPermit = true) :
    cell.phase.holdsActivation = true := by
  unfold Cell.requiresPermit requiresActivationPermit at requires
  cases phase : cell.phase <;> rw [phase] at requires <;> first | rfl | cases requires

/-- One cell of the books changes, and the rest of them stays. -/
theorem Booked.put (booked : v.Booked) (id : CellId) (next : Cell)
    (self : Agrees v.activationPermits v.activationWaiters v.capacityWaiters id next) :
    (v.put id next).Booked where
  permits := booked.permits
  activationNodup := booked.activationNodup
  capacityNodup := booked.capacityNodup
  cells := forall_put self
    fun other _ => booked.cells other

/-- The count of slots is no part of these books. -/
theorem Booked.rebook (booked : (v.put id next).Booked) : (v.rebook id next).Booked where
  permits := booked.permits
  activationNodup := booked.activationNodup
  capacityNodup := booked.capacityNodup
  cells := booked.cells

theorem Booked.touch (booked : v.Booked) (phase : next.phase = (v.cellAt id).phase)
    (waitingFor : next.waitingFor = (v.cellAt id).waitingFor ∨ next.phase.isQueued = false)
    (waitingActivation :
      next.waitingActivation = (v.cellAt id).waitingActivation ∨ next.phase.isQueued = false)
    (swapping : next.swapping = (v.cellAt id).swapping ∨ next.phase.isResident = true) :
    (v.put id next).Booked := by
  have agrees := booked.cells id
  have idle (resident : next.phase.isResident = true) :
      next.requiresPermit = false ∧ next.phase.isSwapStop = false := by
    unfold Cell.requiresPermit
    cases found : next.phase <;> rw [found] at resident <;> cases resident
    exact ⟨rfl, rfl⟩
  refine booked.put id next ?_
  constructor
  case admitted =>
    intro requires
    rcases swapping with same | resident
    · rw [Cell.requiresPermit, phase, same] at requires
      exact agrees.admitted requires
    · exact nomatch (idle resident).1.symm.trans requires
  case swaps =>
    intro stops
    rcases swapping with same | resident
    · rw [same]
      exact agrees.swaps (phase ▸ stops)
    · exact nomatch (idle resident).2.symm.trans stops
  case activation => rw [phase]; exact agrees.activation
  case starts =>
    intro waits
    rcases waitingActivation with same | unqueued
    · rw [same]
      exact agrees.starts (phase ▸ waits)
    · rw [waits] at unqueued
      cases unqueued
  case apart => exact fun waits => agrees.apart (phase ▸ waits)
  case capacity => rw [phase]; exact agrees.capacity
  case saved =>
    intro waits
    rcases waitingFor with same | unqueued
    · rw [same]
      exact agrees.saved (phase ▸ waits)
    · rw [waits] at unqueued
      cases unqueued

theorem Booked.move (booked : v.Booked) (settled : (v.cellAt id).phase.isQueued = false)
    (unqueued : next.phase.isQueued = false)
    (permitted : next.requiresPermit = true → v.holds id ∨
      (v.cellAt id).phase.isSwapStop = true ∧ next.swapping = (v.cellAt id).swapping ∧
        next.phase.requiresActivationPermit true = false)
    (swaps : next.phase.isSwapStop = true → next.swapping = true) : (v.rebook id next).Booked := by
  have agrees := booked.cells id
  refine (booked.put id next (.of_unqueued unqueued (agrees.notMem_activation settled)
    (agrees.notMem_capacity settled) (fun requires => ?_) swaps)).rebook
  rcases permitted requires with holds | ⟨stops, same, free⟩
  · exact agrees.permitted holds
  · rw [Cell.requiresPermit, same, agrees.swaps stops, free] at requires
    cases requires

theorem Booked.queue (booked : v.Booked) (settled : (v.cellAt id).phase.isQueued = false)
    (phase : next.phase = .waitingActivation) (kept : next.waitingActivation.isSome = true)
    (unpermitted : id ∉ v.activationPermits) :
    Booked { v.rebook id next with activationWaiters := v.activationWaiters ++ [id] } := by
  have agrees := booked.cells id
  have fresh := agrees.notMem_activation settled
  refine ⟨booked.permits, ?_, booked.capacityNodup, ?_⟩
  · exact booked.activationNodup.append (nodup_singleton id)
      (disjoint_singleton.mpr fresh)
  · refine forall_put ?_ ?_
    · constructor
      case admitted => simp [Cell.requiresPermit, phase, requiresActivationPermit]
      case swaps => simp [phase, isSwapStop]
      case activation => simp [phase]
      case starts => exact fun _ => kept
      case apart => exact fun _ => unpermitted
      case capacity =>
        rw [phase]
        exact iff_of_false (agrees.notMem_capacity settled) (fun same => nomatch same)
      case saved => simp [phase]
    · intro other differs
      exact (booked.cells other).congr Iff.rfl (by simp [differs]) Iff.rfl

theorem Booked.wait (booked : v.Booked) (settled : (v.cellAt id).phase.isQueued = false)
    (phase : next.phase = .waitingCapacity) (kept : next.waitingFor.isSome = true)
    (permitted : v.holds id) :
    Booked { v.rebook id next with capacityWaiters := v.capacityWaiters ++ [id] } := by
  have agrees := booked.cells id
  have fresh := agrees.notMem_capacity settled
  refine ⟨booked.permits, booked.activationNodup, ?_, ?_⟩
  · exact booked.capacityNodup.append (nodup_singleton id) (disjoint_singleton.mpr fresh)
  · refine forall_put ?_ ?_
    · constructor
      case admitted => exact fun _ => agrees.permitted permitted
      case swaps => simp [phase, isSwapStop]
      case activation =>
        rw [phase]
        exact iff_of_false (agrees.notMem_activation settled) (fun same => nomatch same)
      case starts => simp [phase]
      case apart => simp [phase]
      case capacity => simp [phase]
      case saved => exact fun _ => kept
    · intro other differs
      exact (booked.cells other).congr Iff.rfl Iff.rfl (by simp [differs])

theorem Booked.leave (booked : v.Booked) (unqueued : next.phase.isQueued = false)
    (free : next.phase.occupiesCapacity = false) {activation capacity : List CellId}
    (leftActivation : Left ((v.cellAt id).phase = .waitingActivation) id v.activationWaiters
      activation)
    (leftCapacity : Left ((v.cellAt id).phase = .waitingCapacity) id v.capacityWaiters capacity)
    (grant : Bool)
    (granted : grant = true → v.activationPermits.size < v.maxActivations)
    (permitted : next.requiresPermit = true → grant = true ∨ v.holds id) :
    Booked { v.put id next with
      activationWaiters := activation
      capacityWaiters := capacity
      activationPermits :=
        if grant then v.activationPermits.insert id else v.activationPermits } := by
  have agrees := booked.cells id
  refine ⟨?_, leftActivation.nodup booked.activationNodup,
    leftCapacity.nodup booked.capacityNodup, ?_⟩
  · cases grant with
    | true => exact size_insert_le (granted rfl)
    | false => exact booked.permits
  · refine forall_put
      ?_ ?_
    · refine .of_unqueued unqueued (leftActivation.notMem booked.activationNodup agrees.activation)
        (leftCapacity.notMem booked.capacityNodup agrees.capacity) (fun requires => ?_) ?_
      · cases grant with
        | true => exact Std.ExtTreeSet.mem_insert_self
        | false => exact agrees.permitted ((permitted requires).resolve_left (by simp))
      · intro stops
        cases found : next.phase <;> rw [found] at stops free <;> try cases stops
        cases free
    · intro other differs
      refine (booked.cells other).congr ?_ (leftActivation.mem_iff differs)
        (leftCapacity.mem_iff differs)
      cases grant with
      | true => exact mem_insert_of_ne differs
      | false => exact Iff.rfl

theorem Booked.permit (booked : v.Booked) (room : v.activationPermits.size < v.maxActivations)
    (settled : (v.cellAt id).phase.isQueued = false) :
    Booked { v with activationPermits := v.activationPermits.insert id } := by
  refine ⟨size_insert_le room, booked.activationNodup, booked.capacityNodup, fun key => ?_⟩
  by_cases same : key = id
  · subst same
    have agrees := booked.cells key
    exact .of_unqueued settled (agrees.notMem_activation settled) (agrees.notMem_capacity settled)
      (fun _ => Std.ExtTreeSet.mem_insert_self) agrees.swaps
  · exact (booked.cells key).congr (mem_insert_of_ne same) Iff.rfl Iff.rfl

theorem Booked.retain (booked : v.Booked) (kept : ∀ id, id ∈ permits ↔
      id ∈ v.activationPermits ∧ (v.cellAt id).phase.holdsActivation = true)
    (size : permits.size ≤ v.activationPermits.size) :
    Booked { v with activationPermits := permits } := by
  refine ⟨size.trans booked.permits, booked.activationNodup, booked.capacityNodup, fun key => ?_⟩
  have agrees := booked.cells key
  exact { agrees with
    admitted := fun requires =>
      (kept key).mpr ⟨agrees.admitted requires, requiresPermit_holdsActivation requires⟩
    apart := fun waits mem => agrees.apart waits ((kept key).mp mem).1 }

theorem Booked.dequeue (booked : v.Booked) : v.dequeued.Booked := by
  refine ⟨booked.permits, nodup_nil, nodup_nil, fun key => ?_⟩
  have agrees := booked.cells key
  simp only [dequeued]
  split
  · exact .of_unqueued rfl not_mem_nil not_mem_nil (fun requires => nomatch requires)
      (fun stops => nomatch stops)
  · rename_i unqueued
    exact .of_unqueued (Bool.eq_false_iff.mpr unqueued) not_mem_nil not_mem_nil
      agrees.admitted agrees.swaps

theorem Booked.revoke (v : Ledger) : v.revoked.Booked := by
  refine ⟨Nat.zero_le _, nodup_nil, nodup_nil, fun key => ?_⟩
  obtain ⟨unqueued, unpermitted, noStop⟩ := revoked_holds_nothing (v.cellAt key).phase
  refine .of_unqueued unqueued not_mem_nil not_mem_nil (fun requires => ?_) (fun stops => ?_)
  · exact nomatch (unpermitted _).symm.trans requires
  · exact nomatch noStop.symm.trans stops

/-- Every shift keeps the books of permits and queues, unless it replaces a cell of the table or
queues one that is queued. -/
theorem Booked.shift (distinct : ¬ r.replaces) (once : ¬ r.requeues) (shift : Shift r v w)
    (booked : v.Booked) : w.Booked := by
  cases shift with
  | touch id next phase waitingFor waitingActivation _ swapping =>
    exact booked.touch phase waitingFor waitingActivation swapping
  | move id next settled unqueued permitted swaps =>
    exact booked.move (settled.resolve_right once) unqueued permitted swaps
  | queue id next settled phase kept unpermitted =>
    exact booked.queue (settled.resolve_right once) phase kept unpermitted
  | wait id next settled phase kept permitted =>
    exact booked.wait (settled.resolve_right once) phase kept permitted
  | leave id next queued unqueued free activation capacity leftActivation leftCapacity grant
      granted permitted =>
      exact booked.leave unqueued free leftActivation leftCapacity grant granted permitted
  | skipActivation id rest head idle =>
    -- The books are right, so the head of the queue waits there.
    have agrees := booked.cells id
    have waits := agrees.activation.mp (head ▸ mem_cons_self)
    rcases idle with moved | lost
    · exact absurd waits moved
    · have start := agrees.starts waits
      rw [lost] at start
      cases start
  | skipCapacity id rest head idle =>
    have agrees := booked.cells id
    have waits := agrees.capacity.mp (head ▸ mem_cons_self)
    rcases idle with moved | lost
    · exact absurd waits moved
    · have saved := agrees.saved waits
      rw [lost] at saved
      cases saved
  | permit id room settled => exact booked.permit room (settled.resolve_right once)
  | retain permits kept size => exact booked.retain kept size
  | dequeue => exact booked.dequeue
  | revoke => exact Booked.revoke v
  | mark id =>
    have marked := booked.put id { v.cellAt id with confirming := true }
      { booked.cells id with }
    exact ⟨marked.permits, marked.activationNodup, marked.capacityNodup, marked.cells⟩
  | settle id =>
    have settled := booked.put id { v.cellAt id with confirming := false }
      { booked.cells id with }
    exact ⟨settled.permits, settled.activationNodup, settled.capacityNodup, settled.cells⟩
  | lower => exact ⟨booked.permits, booked.activationNodup, booked.capacityNodup, booked.cells⟩
  | inventory => exact ⟨booked.permits, booked.activationNodup, booked.capacityNodup, booked.cells⟩
  | replace id next allowed => exact absurd allowed distinct

/-- Every permit is in the hands of a cell that uses it. -/
def Held (v : Ledger) : Prop :=
  ∀ id, id ∈ v.activationPermits → (v.cellAt id).phase.holdsActivation = true

theorem Held.put (held : v.Held) (id : CellId) (next : Cell)
    (keeps : (v.cellAt id).phase.holdsActivation = true → next.phase.holdsActivation = true) :
    (v.put id next).Held :=
  forall_put (P := fun key cell => key ∈ v.activationPermits → cell.phase.holdsActivation = true)
    (fun mem => keeps (held id mem)) fun other _ => held other

/-- After the permits are given back, the shifts that drop none keep every permit in use. -/
theorem Held.shift (distinct : ¬ r.replaces) (strict : ¬ r.drops) (shift : Shift r v w)
    (held : v.Held) : w.Held := by
  cases shift with
  | touch id next phase => exact held.put id next fun holds => by rw [phase]; exact holds
  | move id next _ _ _ _ _ keeps => exact held.put id next (keeps.resolve_left strict)
  | queue id next settled phase kept unpermitted =>
    refine forall_put (P := fun key cell => key ∈ v.activationPermits →
      cell.phase.holdsActivation = true) (fun mem => absurd mem unpermitted) fun other _ =>
        held other
  | wait id next _ phase => exact held.put id next fun _ => by rw [phase]; rfl
  | leave id next queued unqueued free activation capacity leftActivation leftCapacity grant
      granted permitted keeps =>
      have uses := keeps.resolve_left strict
      refine forall_put (P := fun key cell =>
        key ∈ (if grant then v.activationPermits.insert id else v.activationPermits) →
          cell.phase.holdsActivation = true) ?_ ?_
      · intro mem
        cases grant with
        | true => exact uses (.inr rfl)
        | false => exact uses (.inl (held id mem))
      · intro other differs mem
        cases grant with
        | true => exact held other ((mem_insert_of_ne differs).mp mem)
        | false => exact held other mem
  | permit id room settled drops => exact absurd drops strict
  | retain permits kept => exact fun id mem => ((kept id).mp mem).2
  | dequeue quiet drops => exact absurd drops strict
  | revoke => exact fun id mem => absurd mem not_mem_empty
  | mark id => exact held.put id { v.cellAt id with confirming := true } fun holds => holds
  | settle id => exact held.put id { v.cellAt id with confirming := false } fun holds => holds
  | replace id next allowed => exact absurd allowed distinct
  | skipActivation | skipCapacity | lower | inventory => exact held

/-! ## The inventory -/

/-- The cells to confirm are the marked ones, and each of them has its owner read ahead. -/
structure Marked (v : Ledger) : Prop where
  cells : ∀ id, id ∈ v.confirmingCells ↔ (v.cellAt id).confirming = true
  asks : ∀ id, (v.cellAt id).confirming = true → (v.cellAt id).asks = true

theorem Marked.put (marked : v.Marked) (id : CellId) (next : Cell)
    (same : next.confirming = (v.cellAt id).confirming)
    (asks : (v.cellAt id).confirming = true → (v.cellAt id).asks = true → next.asks = true) :
    (v.put id next).Marked where
  cells := forall_put (P := fun key cell => key ∈ v.confirmingCells ↔ cell.confirming = true)
    (by rw [same]; exact marked.cells id) fun other _ => marked.cells other
  asks := forall_put (P := fun _ cell => cell.confirming = true → cell.asks = true)
    (fun confirming => asks (same ▸ confirming) (marked.asks id (same ▸ confirming)))
    fun other _ => marked.asks other

theorem Marked.carry (marked : v.Marked) (strict : ¬ r.lenient) (id : CellId) (next : Cell)
    (carries : r.carries (v.cellAt id) next) : (v.put id next).Marked := by
  obtain ⟨same, keeps⟩ := carries
  refine marked.put id next same fun confirming asks => ?_
  rcases keeps.resolve_left strict with unmarked | still
  · rw [unmarked] at confirming
    cases confirming
  · exact still asks

theorem asks_of_touch {cell : Cell} (phase : next.phase = cell.phase)
    (waitingActivation :
      next.waitingActivation = cell.waitingActivation ∨ next.phase.isQueued = false)
    (asks : cell.asks = true) : next.asks = true := by
  unfold Cell.asks at asks ⊢
  rw [phase]
  rw [phase] at waitingActivation
  cases found : cell.phase <;> rw [found] at asks waitingActivation <;> try cases asks
  · rcases waitingActivation with same | unqueued
    · rw [same]
      exact asks
    · cases unqueued

/-- Every shift keeps the marks, unless a marked cell may leave its read. -/
theorem Marked.shift (strict : ¬ r.lenient) (shift : Shift r v w)
    (marked : v.Marked) : w.Marked := by
  cases shift with
  | touch id next phase _ waitingActivation confirming =>
    exact marked.put id next confirming fun _ asks => asks_of_touch phase waitingActivation asks
  | move id next _ _ _ _ _ _ carries =>
    have moved := marked.carry strict id next carries
    exact ⟨moved.cells, moved.asks⟩
  | queue id next _ _ _ _ carries =>
    have queued := marked.carry strict id next carries
    exact ⟨queued.cells, queued.asks⟩
  | wait id next _ _ _ _ carries =>
    have waits := marked.carry strict id next carries
    exact ⟨waits.cells, waits.asks⟩
  | leave id next _ _ _ _ _ _ _ _ _ _ _ carries =>
    have left := marked.carry strict id next carries
    exact ⟨left.cells, left.asks⟩
  | dequeue quiet =>
    have unmarked := quiet.resolve_left strict
    constructor
    · intro id
      refine (marked.cells id).trans ?_
      simp only [dequeued]
      split <;> rfl
    · intro id confirming
      simp only [dequeued] at confirming
      split at confirming <;> exact absurd (unmarked id) (ne_of_eq_of_ne confirming (by decide))
  | revoke quiet =>
    have unmarked := quiet.resolve_left strict
    refine ⟨marked.cells, fun id confirming => ?_⟩
    exact absurd (unmarked id) (ne_of_eq_of_ne confirming (by decide))
  | mark id asks =>
    constructor
    · refine forall_put (P := fun key cell => key ∈ v.confirmingCells.insert id ↔
        cell.confirming = true) ?_ ?_
      · simp
      · intro other differs
        rw [mem_insert_of_ne differs]
        exact marked.cells other
    · exact forall_put (P := fun _ cell => cell.confirming = true → cell.asks = true)
        (fun _ => asks) fun other _ => marked.asks other
  | settle id =>
    constructor
    · refine forall_put (P := fun key cell => key ∈ v.confirmingCells.erase id ↔
        cell.confirming = true) ?_ ?_
      · simp
      · intro other differs
        rw [← marked.cells other]
        simp [mem_erase, Ne.symm differs]
    · exact forall_put (P := fun _ cell => cell.confirming = true → cell.asks = true)
        (fun confirming => nomatch confirming) fun other _ => marked.asks other
  | replace id next allowed confirming unmarked =>
    have before := unmarked.resolve_right strict
    exact marked.put id next (confirming.trans before.symm) fun marks => by
      rw [before] at marks
      cases marks
  | skipActivation | skipCapacity | permit | retain | lower | inventory =>
    exact ⟨marked.cells, marked.asks⟩

/-- The node confirms only while it has cells to confirm, or waits for the inventory. -/
def Drains (awaits : Prop) (v : Ledger) : Prop :=
  v.confirming = true → v.confirmingCells.isEmpty = false ∨ awaits

theorem Drains.shift (shift : Shift r v w) (drains : v.Drains r.awaits) : w.Drains r.awaits := by
  cases shift with
  | mark => exact fun _ => .inl (by simp)
  | settle id =>
    intro confirming
    simp only at confirming ⊢
    split at confirming
    · cases confirming
    rename_i rest
    rcases drains confirming with filled | awaits
    · refine .inl ?_
      by_cases mem : v.confirmingCells.contains id = true
      · simpa [mem] using rest
      · have same : v.confirmingCells.erase id = v.confirmingCells := by
          ext key
          rw [mem_erase]
          refine ⟨fun ⟨_, inside⟩ => inside, fun inside => ⟨fun equal => mem ?_, inside⟩⟩
          rw [compare_eq_iff_eq.mp equal]
          exact inside
        rw [same]
        exact filled
    · exact .inr awaits
  | lower => exact fun confirming => nomatch confirming
  | inventory awaits => exact fun _ => .inr awaits
  | touch | move | queue | wait | leave | skipActivation | skipCapacity | permit | retain
  | dequeue | revoke | replace => exact drains

end Ledger

end Celld
