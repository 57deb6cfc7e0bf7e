import Celld.Moves.Residency

/-!
# Admission of cold cells

The claim or restore a cell spends when it is admitted was granted by the event at hand or carried
by the cell.  A cold route begins with a permit and ends where the cell parks or runs; in between
it may wait for a slot.  The lemmas are stated for a cell that has what the route needs: it stands
in no queue, a permit is in its name (`holds`), and it is not being confirmed by a read it would
leave (`quiet`).
-/

namespace Celld

open List Ledger

section Loose

variable {r : Rules} {base booked cell : Cell}

theorem Cell.Loose.dropFor (loose : base.Loose r booked cell) :
    base.Loose r booked { cell with waitingFor := none } where
  keeps := loose.keeps.trans ⟨rfl, rfl, .inl rfl, .inr rfl, .inl rfl⟩
  stands := loose.stands.touch rfl rfl
  settled := loose.settled

theorem Cell.Loose.dropActivation (loose : base.Loose r booked cell) :
    base.Loose r booked { cell with waitingActivation := none } where
  keeps := loose.keeps.trans ⟨rfl, rfl, .inl rfl, .inl rfl, .inr rfl⟩
  stands := loose.stands.touch rfl rfl
  settled := loose.settled

end Loose

namespace CoreTurn

variable {G : Grants} {r : Rules} {t u : CoreTurn} {id : CellId} {base booked cell next : Cell}
  {capacity : List CellId} {phase : Phase}

theorem watchQueued_spec (t : CoreTurn) (id : CellId) (cell : Cell) :
    (t.watchQueued id cell).1.kept = cell.kept ∧ (t.watchQueued id cell).2.cells = t.cells := by
  unfold watchQueued
  split <;> exact ⟨rfl, rfl⟩

theorem watchQueued_hand : Hands G r t id cell cell (t.watchQueued id cell) := by
  unfold watchQueued
  split
  · exact .refl
  · have watched : Hands G r t id cell cell
        ({ cell with queuedGeneration := some t.nextTimerGeneration }, t) := hand_touch _ rfl
    exact watched.trans (hand_note [_] (by simp [CellEffect.inert]) rfl rfl)

/-! ## The cold route -/

/-- There is a slot for the activation, or it takes none. -/
def Room (t : CoreTurn) (cell : Cell) (activation : Activation) : Prop :=
  t.occupied < t.config.maxResident ∨ (∃ claim, activation = .claim claim) ∧
    t.ownershipOnly cell = true

theorem Activation.fallback_isParked (activation : Activation) :
    activation.fallback.isParked = true := by
  cases activation <;> rfl

theorem ColdStart.fallback_isParked (start : ColdStart) : start.fallback.isParked = true := by
  cases start <;> rfl

/-- Somebody waits for the cell. -/
def Asked (cell : Cell) : Prop := cell.wanted = true ∨ cell.confirming = true

theorem asked_iff : Asked cell ↔ ¬ (!cell.wanted && !cell.confirming) = true := by
  unfold Asked
  cases cell.wanted <;> cases cell.confirming <;> simp

section ColdRoute

variable (gone : t.Gone id) (loose : base.Loose r booked cell)
  (holds : booked.requiresPermit = true ∨ id ∈ t.activationPermits) (quiet : r.quiet booked)

include loose

theorem hand_queue (unpermitted : id ∉ t.activationPermits) (start : ColdStart)
    (quiet : start = .readOwner ∨ r.quiet booked)
    (known : start = .readOwner ∨ ∃ spec, start = .restore spec ∧ G.resume id spec) :
    Hands G r t id base booked
      ({ cell.enter .waitingActivation with waitingActivation := some start },
        { (t.setPhase cell .waitingActivation).2 with
          activationWaiters := t.activationWaiters ++ [id] }) := by
  let next : Cell := { cell.enter .waitingActivation with waitingActivation := some start }
  have carries : r.carries booked next := by
    rcases quiet with rfl | quiet
    · exact ⟨loose.stands.confirming, .inr (.inr fun _ => rfl)⟩
    · exact quiet.carries loose.stands.confirming
  have move := Move.queueCold (v := t.viewWith id base) id cell
    (by simpa using loose.keeps) start known
  have shift := Shift.queue (v := t.ledgerWith id booked) id next
    (by simpa using loose.settled) rfl rfl unpermitted (by rw [ledgerWith_cellAt]; exact carries)
  rw [viewWith_put] at move
  rw [← ledgerWith_rebook loose.stands.occupies (rebooked_setPhase rfl cell _)] at shift
  exact ⟨.single move, .single shift⟩

section Quiet

variable {activation : Activation}

include quiet

theorem refuseNewOwnershipDuringDrain_hand {prior : Option NodeId} {refused : Cell × CoreTurn}
    (drops : r.drops) (eq : t.refuseNewOwnershipDuringDrain id cell prior = some refused) :
    Hands G r t id base booked refused := by
  unfold refuseNewOwnershipDuringDrain at eq
  split at eq
  · cases eq
  · rw [← Option.some.inj eq]
    exact parkAndFinish_hand loose.dropFor quiet (.inl drops) rfl _

theorem refuseActivation_hand {refused : Cell × CoreTurn}
    (drops : r.drops ∨ ∃ spec, activation = .restore spec)
    (eq : t.refuseActivation id cell activation = some refused) :
    Hands G r t id base booked refused := by
  cases activation with
  | claim =>
    exact refuseNewOwnershipDuringDrain_hand loose quiet
      (drops.resolve_right fun ⟨_, same⟩ => nomatch same) eq
  | restore => cases eq

include holds

theorem hand_wait (activation : Activation) (allowed : G.allows id base activation) :
    Hands G r t id base booked
      ({ cell.enter .waitingCapacity with waitingFor := some activation },
        { (t.setPhase cell .waitingCapacity).2 with
          capacityWaiters := t.capacityWaiters ++ [id] }) := by
  let next : Cell := { cell.enter .waitingCapacity with waitingFor := some activation }
  have move := Move.queueActivation (v := t.viewWith id base) id cell
    (by simpa using loose.keeps) activation (by simpa using allowed)
  have shift := Shift.wait (v := t.ledgerWith id booked) id next
    (by simpa using loose.settled) rfl rfl (by rw [Ledger.holds, ledgerWith_cellAt]; exact holds)
    (by rw [ledgerWith_cellAt]; exact quiet.carries loose.stands.confirming)
  rw [viewWith_put] at move
  rw [← ledgerWith_rebook loose.stands.occupies (rebooked_setPhase rfl cell _)] at shift
  exact ⟨.single move, .single shift⟩

theorem issueActivation_hand (allowed : G.allows id base activation)
    (room : Room t cell activation) :
    Hands G r t id base booked (t.issueActivation id cell activation) := by
  cases activation with
  | claim claim =>
    let next := Cell.enter { cell with waitingFor := none }
      (.acquiring t.nextOp claim (t.ownershipOnly cell))
    have entry : Entry r t id booked next := by
      refine .cold loose.settled holds rfl (fun occupies => .inr ?_)
        (quiet.carries loose.stands.confirming)
      rcases room with slot | ⟨_, dormant⟩
      · exact slot
      · simp [next, Phase.occupiesCapacity, dormant] at occupies
    exact ⟨hand_startOp (.issueClaim id { cell with waitingFor := none }
      (by simpa using loose.dropFor.keeps) rfl claim (t.ownershipOnly cell)
      (by simpa using allowed)) rfl,
      shift_move entry loose.stands.occupies rfl⟩
  | restore spec =>
    let next := Cell.enter { cell with waitingFor := none } (.restoring t.nextOp spec)
    have entry : Entry r t id booked next := by
      refine .cold loose.settled holds rfl (fun _ => .inr ?_)
        (quiet.carries loose.stands.confirming)
      exact room.resolve_right fun ⟨⟨_, same⟩, _⟩ => nomatch same
    exact ⟨hand_startOp (.issueRestore id { cell with waitingFor := none }
      (by simpa using loose.dropFor.keeps) spec (.inl rfl) (by simpa using allowed)) rfl,
      shift_move entry loose.stands.occupies rfl⟩

theorem beginActivation_hand (drops : r.drops ∨ ∃ spec, activation = .restore spec)
    (allowed : G.allows id base activation) (room : Room t cell activation) :
    Hands G r t id base booked (t.beginActivation id cell activation) := by
  unfold beginActivation
  split
  · rename_i eq
    exact refuseActivation_hand loose quiet drops eq
  · exact issueActivation_hand loose holds quiet allowed room

include gone

theorem activateOrWait_hand (drops : r.drops ∨ (∃ spec, activation = .restore spec) ∧ Asked cell)
    (allowed : G.allows id base activation) (whenFull : WhenFull) :
    Hands G r t id base booked (t.activateOrWait id cell activation whenFull) := by
  unfold activateOrWait
  split
  · rename_i eq
    exact refuseActivation_hand loose quiet (drops.imp_right And.left) eq
  split
  · rename_i unasked
    exact hand_park loose quiet
      (.inl (drops.resolve_right fun ⟨_, asked⟩ => asked_iff.mp asked unasked))
      (Activation.fallback_isParked activation)
  split
  · rename_i capacity
    have slot : t.occupied < t.config.maxResident := by
      unfold Core.hasCapacity at capacity
      simp only [Bool.and_eq_true, decide_eq_true_eq] at capacity
      exact capacity.1
    exact beginActivation_hand loose holds quiet (drops.imp_right And.left) allowed (.inl slot)
  · let waiting : Cell := { cell.enter .waitingCapacity with waitingFor := some activation }
    let queued : CoreTurn :=
      { (t.setPhase cell .waitingCapacity).2 with capacityWaiters := t.capacityWaiters ++ [id] }
    have queue : Hands G r t id base booked (waiting, queued) :=
      hand_wait loose holds quiet activation allowed
    have begun := queue.trans (watchQueued_hand)
    dsimp only
    split
    · have still : (queued.watchQueued id waiting).2.Gone id := by
        rw [Gone, (watchQueued_spec _ _ _).2]
        exact gone
      exact begun.trans (shedOne_hand still)
    · exact begun

end Quiet

include gone

include holds in
theorem beginColdRoute_hand {start : ColdStart} (quiet : start = .readOwner ∨ r.quiet booked)
    (drops : r.drops ∨ Asked cell)
    (known : ∀ spec, start = .restore spec → G.allows id base (.restore spec)) :
    Hands G r t id base booked (t.beginColdRoute id cell start) := by
  cases start with
  | readOwner =>
    let next := Cell.enter { cell with waitingActivation := none } (.readingOwner t.nextOp)
    have entry : Entry r t id booked next :=
      .cold loose.settled holds rfl (fun occupies => nomatch occupies)
        ⟨loose.stands.confirming, .inr (.inr fun _ => rfl)⟩
    exact ⟨hand_startOp (.readOwner id _ (by simpa using loose.dropActivation.keeps))
      rfl, shift_move entry loose.stands.occupies rfl⟩
  | restore spec =>
    exact activateOrWait_hand gone loose.dropActivation holds
      (quiet.resolve_left (by simp)) (drops.imp_right fun asked => ⟨⟨spec, rfl⟩, asked⟩)
      (known spec rfl) _

/-- Admit a cold cell whose start the event at hand allows, or queue it. -/
theorem admitOrQueueActivation_hand {start : ColdStart}
    (quiet : start = .readOwner ∨ r.quiet booked) (drops : r.drops)
    (known : start = .readOwner ∨ ∃ spec, start = .restore spec ∧ G.resume id spec) :
    Hands G r t id base booked (t.admitOrQueueActivation id cell start) := by
  have allowed : ∀ spec, start = .restore spec → G.allows id base (.restore spec) := by
    rintro spec rfl
    obtain ⟨_, eq, granted⟩ := known.resolve_left (by simp)
    cases eq
    exact .inr (.inr (.inr granted))
  unfold admitOrQueueActivation
  split
  · rename_i permitted
    exact beginColdRoute_hand gone loose (.inr permitted) quiet (.inl drops) allowed
  rename_i unpermitted
  split
  · rename_i room
    let admitted : CoreTurn := { t with activationPermits := t.activationPermits.insert id }
    have permit : Shifts r (t.ledgerWith id booked) (admitted.ledgerWith id booked) :=
      .single (.permit id room (by simpa using loose.settled) drops)
    have routed : Hands G r admitted id base booked (admitted.beginColdRoute id cell start) :=
      beginColdRoute_hand (t := admitted) gone loose (.inr Std.ExtTreeSet.mem_insert_self) quiet
        (.inl drops) allowed
    exact ⟨routed.1, permit.trans routed.2⟩
  · exact (hand_queue loose unpermitted start quiet known).trans watchQueued_hand

/-- Read the record of a cell in hand that is in no queue, now or once it is admitted. -/
theorem admitReadOwner_hand (drops : r.drops) :
    Hands G r t id base booked (t.admitOrQueueActivation id cell .readOwner) :=
  admitOrQueueActivation_hand gone loose (.inl rfl) drops (.inl rfl)

end ColdRoute

/-! ## The pumps -/

/-- Where the books see a cell that left the activation queue for its cold route. -/
def onRoute : ColdStart → Phase
  | .readOwner => .readingOwner 0
  | .restore _ => .recoveringOwnerLog 0 ⟨none, 0, ""⟩

theorem mem_retainActivationPermits (t : CoreTurn) (id : CellId) :
    id ∈ t.retainActivationPermits.activationPermits ↔
      id ∈ t.activationPermits ∧ (t.ledger.cellAt id).phase.holdsActivation = true := by
  have present : (t.cells[id]?.any (·.phase.holdsActivation) : Bool)
      = (t.ledger.cellAt id).phase.holdsActivation := by
    simp only [ledger]
    cases t.cells[id]? <;> rfl
  rw [retainActivationPermits, Std.ExtTreeSet.mem_filter, ← present]
  simp only [Std.ExtTreeSet.get_eq, exists_prop]

theorem retainActivationPermits_turn : Turns G r t t.retainActivationPermits :=
  ⟨.refl _, .single (.retain t.retainActivationPermits.activationPermits
    (mem_retainActivationPermits t) Std.ExtTreeSet.size_filter_le_size)⟩

/-- A cell in hand leaves its queue. -/
theorem shift_leave (queued : cell.phase.isQueued = true) (unqueued : next.phase.isQueued = false)
    (free : next.phase.occupiesCapacity = false) {activation : List CellId}
    (leftActivation : Ledger.Left (cell.phase = .waitingActivation) id t.activationWaiters
      activation)
    (leftCapacity : Ledger.Left (cell.phase = .waitingCapacity) id t.capacityWaiters capacity)
    (grant : Bool) (granted : grant = true → t.activationPermits.size < t.config.maxActivations)
    (permitted : next.requiresPermit = true →
      grant = true ∨ cell.requiresPermit = true ∨ id ∈ t.activationPermits)
    (keeps : r.drops ∨ (cell.phase.holdsActivation = true ∨ grant = true →
      next.phase.holdsActivation = true)) (carries : r.carries cell next)
    (books : u.ledger = { t.ledger with
      activationWaiters := activation
      capacityWaiters := capacity
      activationPermits :=
        if grant then t.activationPermits.insert id else t.activationPermits }) :
    Shifts r (t.ledgerWith id cell) (u.ledgerWith id next) := by
  have shift := Shift.leave (v := t.ledgerWith id cell) id next (by simpa using queued)
    unqueued free activation capacity (by rw [ledgerWith_cellAt]; exact leftActivation)
    (by rw [ledgerWith_cellAt]; exact leftCapacity) grant granted
    (by rw [holds, ledgerWith_cellAt]; exact permitted) (by simpa using keeps)
    (by simpa using carries)
  rw [ledgerWith_put] at shift
  have same : u.ledgerWith id next = { t.ledgerWith id next with
      activationWaiters := activation
      capacityWaiters := capacity
      activationPermits :=
        if grant then t.activationPermits.insert id else t.activationPermits } := by
    rw [ledgerWith, books]
    rfl
  rw [same]
  exact .single shift

/-- A cell in hand leaves its queue, and is booked as one that has nothing. -/
theorem shift_retire (queued : cell.phase.isQueued = true) {activation : List CellId}
    (leftActivation : Ledger.Left (cell.phase = .waitingActivation) id t.activationWaiters
      activation)
    (leftCapacity : Ledger.Left (cell.phase = .waitingCapacity) id t.capacityWaiters capacity)
    (drops : r.drops ∨ cell.phase.holdsActivation = false) (quiet : r.quiet cell)
    (books : u.ledger = { t.ledger with
      activationWaiters := activation
      capacityWaiters := capacity }) :
    Shifts r (t.ledgerWith id cell) (u.ledgerWith id { cell with phase := .inactive }) := by
  refine shift_leave queued rfl rfl leftActivation leftCapacity false nofun
    (fun requires => nomatch requires) (drops.imp_right fun idle kept => ?_)
    (quiet.carries rfl) books
  rcases kept with kept | grant
  · exact nomatch idle.symm.trans kept
  · cases grant

/-- Park a cell in hand that has left its queue. -/
theorem hand_settle {inHand : Cell} (keeps : cell.Forgets inHand)
    (queued : inHand.phase.isQueued = true) (confirming : inHand.confirming = cell.confirming)
    (parked : phase.isParked = true) :
    Hands G r t id cell { cell with phase := .inactive } (t.setPhase inHand phase) := by
  have stands : Cell.Stands { cell with phase := .inactive } inHand :=
    ⟨Phase.occupiesCapacity_of_isQueued queued, confirming⟩
  exact hand_park ⟨keeps, stands, .inl rfl⟩ (.inr (.inr rfl)) (.inr rfl) parked

/-- Pop the head of the activation queue, and admit or retire it. -/
theorem popActivation_turn {rest : List CellId} (head : t.activationWaiters = id :: rest)
    (room : t.activationPermits.size < t.config.maxActivations) :
    Turns G r t (CoreTurn.pumpActivation { t with activationWaiters := rest } id) := by
  let popped : CoreTurn := { t with activationWaiters := rest }
  have skip : (t.ledger.cellAt id).phase ≠ .waitingActivation ∨
        (t.ledger.cellAt id).waitingActivation = none → Turns G r t popped :=
    fun idle => ⟨.refl _, .single (.skipActivation id rest head idle)⟩
  unfold pumpActivation
  split
  · rename_i absent
    refine skip (.inl ?_)
    have missing : t.cells[id]? = none := absent
    simp [ledger, missing]
  rename_i cell found
  have seen : t.ledger.cellAt id = cell := ledger_cellAt_of_get found
  split
  · rename_i elsewhere
    exact skip (.inl (by rw [seen]; exact elsewhere))
  rename_i waits
  have phase : cell.phase = .waitingActivation := not_not.mp waits
  split
  · rename_i none
    exact skip (.inr (by rw [seen]; exact none))
  rename_i start carried
  have left : Ledger.Left (cell.phase = .waitingActivation) id t.activationWaiters rest :=
    head ▸ left_pop _ id rest
  have stays : Ledger.Left (cell.phase = .waitingCapacity) id t.capacityWaiters t.capacityWaiters :=
    left_of_not (by simp [phase]) id _
  have queued : cell.phase.isQueued = true := by rw [phase]; rfl
  have dropped : cell.Forgets { cell with waitingActivation := none } :=
    ⟨rfl, rfl, .inl rfl, .inl rfl, .inr rfl⟩
  dsimp only
  split
  · rename_i unasked
    have unmarked : cell.confirming = false := by
      simp only [Bool.and_eq_true, Bool.not_eq_true'] at unasked
      exact unasked.2
    exact handled_from (u := popped) found rfl (shift_retire queued left stays
      (.inr (by rw [phase]; rfl)) (.inr (.inl unmarked)) rfl)
      (hand_settle dropped queued rfl (ColdStart.fallback_isParked start))
  · rename_i asked
    let booked : Cell := { cell with phase := onRoute start, waitingActivation := none }
    let admitted : CoreTurn := { popped with activationPermits := t.activationPermits.insert id }
    have leave : Shifts r (t.ledgerWith id cell) (admitted.ledgerWith id booked) := by
      refine shift_leave queued ?_ ?_ left stays true (fun _ => room) (fun _ => .inl rfl)
        (.inr fun _ => ?_) ⟨rfl, .inr (.inr fun asks => ?_)⟩ rfl
      · cases start <;> rfl
      · cases start <;> rfl
      · cases start <;> rfl
      · cases start with
        | readOwner => rfl
        | restore => simp [Cell.asks, phase, carried] at asks
    have stands : booked.Stands { cell with waitingActivation := none } := by
      refine ⟨?_, rfl⟩
      change cell.phase.occupiesCapacity = (onRoute start).occupiesCapacity
      rw [phase]
      cases start <;> rfl
    refine handled_from (u := admitted) found rfl leave (beginColdRoute_hand
      (dropCell_gone _ id) ⟨dropped, stands, .inl ?_⟩
      (.inr Std.ExtTreeSet.mem_insert_self) ?_ (.inr (asked_iff.mpr asked)) ?_)
    · cases start <;> rfl
    · cases start with
      | readOwner => exact .inl rfl
      | restore => exact .inr (.inr (.inr rfl))
    · rintro _ rfl
      exact .inr (.inr (.inl carried))

theorem pumpActivationsLoop_turn (fuel : ℕ) (t : CoreTurn) :
    Turns G r t (pumpActivationsLoop fuel t) := by
  induction fuel generalizing t with
  | zero => exact .refl
  | succ fuel ih =>
    unfold pumpActivationsLoop
    split
    · rename_i room
      split
      · exact .refl
      · rename_i head
        exact (popActivation_turn head room).trans (ih _)
    · exact .refl

theorem pumpActivations_turn : Turns G r t t.pumpActivations :=
  retainActivationPermits_turn.trans (pumpActivationsLoop_turn _ t.retainActivationPermits)

/-- Pop the head of the capacity queue, and admit or retire it. -/
theorem popCapacity_turn {rest : List CellId} (head : t.capacityWaiters = id :: rest)
    (room : t.occupied < t.config.maxResident) (drops : r.drops) :
    Turns G r t (CoreTurn.pumpCapacityOne { t with capacityWaiters := rest } id) := by
  let popped : CoreTurn := { t with capacityWaiters := rest }
  have skip : (t.ledger.cellAt id).phase ≠ .waitingCapacity ∨
        (t.ledger.cellAt id).waitingFor = none → Turns G r t popped :=
    fun idle => ⟨.refl _, .single (.skipCapacity id rest head idle)⟩
  unfold pumpCapacityOne
  split
  · rename_i absent
    refine skip (.inl ?_)
    have missing : t.cells[id]? = none := absent
    simp [ledger, missing]
  rename_i cell found
  have seen : t.ledger.cellAt id = cell := ledger_cellAt_of_get found
  split
  · rename_i elsewhere
    exact skip (.inl (by rw [seen]; exact elsewhere))
  rename_i waits
  have phase : cell.phase = .waitingCapacity := not_not.mp waits
  split
  · rename_i none
    exact skip (.inr (by rw [seen]; exact none))
  rename_i activation carried
  have left : Ledger.Left (cell.phase = .waitingCapacity) id t.capacityWaiters rest :=
    head ▸ left_pop _ id rest
  have stays : Ledger.Left (cell.phase = .waitingActivation) id t.activationWaiters
      t.activationWaiters := left_of_not (by simp [phase]) id _
  have silent : cell.asks = false := by simp [Cell.asks, phase]
  let booked : Cell :=
    { cell with phase := .recoveringOwnerLog 0 ⟨none, 0, ""⟩, waitingFor := none }
  have leave : Shifts r (t.ledgerWith id cell) (popped.ledgerWith id booked) := by
    refine shift_leave (by rw [phase]; rfl) rfl rfl stays left false (by simp)
      (fun _ => .inr (.inl ?_)) (.inl drops) ((Rules.quiet.carries (.inr (.inr silent))) rfl) rfl
    rw [Cell.requiresPermit, phase]
    rfl
  have loose : cell.Loose r booked { cell with waitingFor := none } :=
    ⟨⟨rfl, rfl, .inl rfl, .inr rfl, .inl rfl⟩, ⟨by rw [phase]; rfl, rfl⟩, .inl rfl⟩
  have quiet : r.quiet booked := .inr (.inr rfl)
  have allowed : G.allows id cell activation := by
    cases activation <;> exact .inr (.inl carried)
  dsimp only
  split
  · exact handled_from (u := popped) found rfl leave (hand_park loose
      quiet (.inl drops) (Activation.fallback_isParked activation))
  · exact handled_from (u := popped) found rfl leave (beginActivation_hand
      loose (.inl rfl) quiet (.inl drops) allowed (.inl room))

theorem pumpCapacityLoop_turn (drops : r.drops) (fuel : ℕ) (t : CoreTurn) :
    Turns G r t (pumpCapacityLoop fuel t) := by
  induction fuel generalizing t with
  | zero => exact .refl
  | succ fuel ih =>
    unfold pumpCapacityLoop
    split
    · rename_i capacity
      split
      · exact .refl
      · rename_i head
        simp only [Core.hasCapacity, Bool.and_eq_true, decide_eq_true_eq] at capacity
        exact (popCapacity_turn head capacity.1 drops).trans (ih _)
    · exact .refl

theorem pumpCapacity_turn (drops : r.drops) : Turns G r t t.pumpCapacity :=
  (pumpCapacityLoop_turn drops _ t).trans shedOne_turn

/-! ## The local inventory -/

theorem settleLocalResume_turn : Turns G r t (t.settleLocalResume id) :=
  table_modifyCell (t := { t with
    resumingCells := t.resumingCells.erase id
    resuming := if t.resumingCells.contains id && (t.resumingCells.erase id).isEmpty then false
      else t.resuming }) _ fun _ => rfl

/-- A cell that is admitted for its record asks for it, and is not marked by that. -/
theorem admitReadOwner_spec (t : CoreTurn) (id : CellId) (cell : Cell) :
    (t.admitOrQueueActivation id cell .readOwner).1.asks = true ∧
      (t.admitOrQueueActivation id cell .readOwner).2.confirmingCells = t.confirmingCells := by
  unfold admitOrQueueActivation
  split
  · exact ⟨rfl, rfl⟩
  split
  · exact ⟨rfl, rfl⟩
  · unfold watchQueued
    dsimp only
    split <;> exact ⟨rfl, rfl⟩

/-- Admission does not look at the inventory. -/
theorem admitReadOwner_confirming (t : CoreTurn) (id : CellId) (cells : BTreeSet CellId) :
    CoreTurn.admitOrQueueActivation { t with confirmingCells := cells } id { confirming := true }
        .readOwner
      = ({ (t.admitOrQueueActivation id {} .readOwner).1 with confirming := true },
        { (t.admitOrQueueActivation id {} .readOwner).2 with confirmingCells := cells }) := by
  unfold admitOrQueueActivation
  dsimp only
  split
  · rfl
  split
  · rfl
  · simp only [watchQueued, setPhase]
    cases t.config.operationDeadlineMs <;> rfl

theorem with_of_absent (absent : t.cells[id]? = none) :
    t.viewWith id {} = t.view ∧ t.ledgerWith id {} = t.ledger := by
  have view := viewWith_getD t id
  have books := ledgerWith_getD t id
  rw [absent] at view books
  exact ⟨view, books⟩

theorem confirmLocalCell_turn (drops : r.drops) (found : LocalCell) :
    Turns G r t (t.confirmLocalCell found) := by
  unfold confirmLocalCell
  split
  · exact .refl
  · rename_i unknown
    have absent : t.cells[found.id]? = none := by
      simp only [Bool.or_eq_true, not_or] at unknown
      exact Std.ExtTreeMap.getElem?_eq_none unknown.1
    obtain ⟨blankView, blankBooks⟩ := with_of_absent absent
    have admitted : Hands G r t found.id {} {} (t.admitOrQueueActivation found.id {} .readOwner) :=
      admitReadOwner_hand (gone_of_absent absent) (.refl (.inl rfl)) drops
    rw [Hands, blankView, blankBooks] at admitted
    let p := t.admitOrQueueActivation found.id {} .readOwner
    have touch := Move.touch (G := G) (v := p.2.viewWith found.id p.1) found.id
      { p.1 with confirming := true } (by simpa using ⟨rfl, rfl, .inl rfl, .inl rfl, .inl rfl⟩)
    have mark := Shift.mark (r := r) (v := p.2.ledgerWith found.id p.1) found.id
      (by rw [ledgerWith_cellAt]; exact (admitReadOwner_spec t found.id {}).1)
    rw [viewWith_put] at touch
    rw [ledgerWith_put, ledgerWith_cellAt] at mark
    dsimp only
    rw [admitReadOwner_confirming, Turns, putCell_view, putCell_ledger]
    refine ⟨admitted.1.trans (.single touch), admitted.2.trans ?_⟩
    have same : (({ p.2 with confirmingCells := t.confirmingCells.insert found.id } : CoreTurn)
          ).ledgerWith found.id { p.1 with confirming := true }
        = { p.2.ledgerWith found.id { p.1 with confirming := true } with
            confirmingCells := t.confirmingCells.insert found.id } := rfl
    have cells : (p.2.ledgerWith found.id p.1).confirmingCells = t.confirmingCells :=
      (admitReadOwner_spec t found.id {}).2
    rw [same, ← cells]
    exact .single mark

theorem confirmLocalCells_turn (drops : r.drops) (result : Except Failure (List LocalCell)) :
    Turns G r t (t.confirmLocalCells result) := by
  unfold confirmLocalCells
  split
  · exact ⟨.refl _, .single .lower⟩
  · have folded : Turns G r t ((LocalCell.sortDedup ‹_›).foldl confirmLocalCell t) :=
      .foldl _ (fun t found => confirmLocalCell_turn drops found) _ t
    dsimp only
    split
    · exact ⟨folded.1, folded.2.trans (.single .lower)⟩
    · exact folded

/-- Admitting a preserved cell touches no other cell, and marks none. -/
structure Resumes (p : Cell × CoreTurn) (cells : BTreeMap CellId Cell) (marked : Bool) : Prop where
  cells : p.2.cells = cells
  idle : p.1.phase.isResident = false
  confirming : p.1.confirming = marked

theorem watchQueued_resumes (waits : next.phase.isResident = false) (same : u.cells = t.cells)
    (unmarked : next.confirming = cell.confirming) :
    Resumes (u.watchQueued id next) t.cells cell.confirming := by
  obtain ⟨kept, cells⟩ := watchQueued_spec u id next
  have touches := Cell.Touches.of_kept kept
  exact ⟨cells.trans same, by rw [touches.phase]; exact waits, touches.confirming.trans unmarked⟩

theorem activateOrWait_resumes (empty : ∀ id, t.Gone id) (spec : RestoreSpec)
    (whenFull : WhenFull) :
    Resumes (t.activateOrWait id cell (.restore spec) whenFull) t.cells cell.confirming := by
  unfold activateOrWait
  simp only [refuseActivation]
  split
  · exact ⟨rfl, rfl, rfl⟩
  split
  · exact ⟨rfl, rfl, rfl⟩
  · have unshed : ∀ p : Cell × CoreTurn, Resumes p t.cells cell.confirming →
        Resumes (p.1, if whenFull = .shedToAdmit then p.2.shedOne else p.2)
          t.cells cell.confirming := by
      intro p resumes
      split
      · rw [shedOne_eq_self fun key => by rw [Gone, resumes.cells]; exact empty key]
        exact resumes
      · exact resumes
    exact unshed _ (watchQueued_resumes rfl rfl rfl)

theorem admit_resumes (empty : ∀ id, t.Gone id) (spec : RestoreSpec) :
    Resumes (t.admitOrQueueActivation id cell (.restore spec)) t.cells cell.confirming := by
  unfold admitOrQueueActivation
  split
  · exact activateOrWait_resumes empty _ _
  split
  · exact activateOrWait_resumes
      (t := { t with activationPermits := t.activationPermits.insert id }) empty _ _
  · exact watchQueued_resumes rfl rfl rfl

/-- The cells of a table that a resume has begun to fill: none is resident, none is marked. -/
structure Fresh (t : CoreTurn) : Prop where
  gone : ∀ id, t.Gone id
  unmarked : ∀ (id : CellId) (cell : Cell), t.cells[id]? = some cell → cell.confirming = false

theorem admitResume_resumes (fresh : t.Fresh) (found : LocalCell) :
    Resumes (CoreTurn.admitOrQueueActivation
      { t with resumingCells := t.resumingCells.insert found.id } found.id
      { resumeDemand := true } (.restore (resumeSpec found.epoch))) t.cells false :=
  admit_resumes (t := { t with resumingCells := t.resumingCells.insert found.id }) fresh.gone _

theorem resumeLocalCell_cells (fresh : t.Fresh) (found : LocalCell) (id : CellId) :
    (t.resumeLocalCell found).cells[id]? =
      if found.id = id then
        some (CoreTurn.admitOrQueueActivation
          { t with resumingCells := t.resumingCells.insert found.id } found.id
          { resumeDemand := true } (.restore (resumeSpec found.epoch))).1
      else t.cells[id]? := by
  have resumes := admitResume_resumes fresh found
  simp only [resumeLocalCell, putCell]
  rw [resumes.cells, Std.ExtTreeMap.getElem?_insert]
  simp only [compare_eq_iff_eq]

theorem resumeLocalCell_fresh (fresh : t.Fresh) (found : LocalCell) :
    (t.resumeLocalCell found).Fresh := by
  have resumes := admitResume_resumes fresh found
  constructor
  · intro id cell mem
    rw [resumeLocalCell_cells fresh] at mem
    split at mem
    · rw [← Option.some.inj mem]
      exact resumes.idle
    · exact fresh.gone id cell mem
  · intro id cell mem
    rw [resumeLocalCell_cells fresh] at mem
    split at mem
    · rw [← Option.some.inj mem]
      exact resumes.confirming
    · exact fresh.unmarked id cell mem

/-- A preserved path enters the table, in the place of another one where the rules allow it. -/
theorem resumeLocalCell_turn (fresh : t.Fresh) (drops : r.drops) (found : LocalCell)
    (granted : G.resume found.id (resumeSpec found.epoch))
    (distinct : t.cells[found.id]? = none ∨ r.replaces) :
    Turns G r t (t.resumeLocalCell found) := by
  have blank : Shifts r t.ledger (t.ledgerWith found.id {}) := by
    cases present : t.cells[found.id]? with
    | none => exact .of_eq (with_of_absent present).2.symm
    | some =>
      refine .single (.replace found.id {} (distinct.resolve_left ?_) rfl (.inl ?_) rfl)
      · rw [present]
        exact nofun
      · rw [ledger_cellAt_of_get present]
        exact fresh.unmarked _ _ present
  let resuming : CoreTurn := { t with resumingCells := t.resumingCells.insert found.id }
  have replaced : Moves G t.view (resuming.viewWith found.id {}) :=
    .single (.replace found.id _ granted)
  have admitted : Hands G r resuming found.id {} {} (resuming.admitOrQueueActivation found.id
      { resumeDemand := true } (.restore (resumeSpec found.epoch))) :=
    admitOrQueueActivation_hand (t := resuming) (fresh.gone found.id)
      (.of_kept rfl (.inl rfl) : Cell.Loose r {} {} { resumeDemand := true })
      (.inr (.inr (.inl rfl))) drops (.inr ⟨_, rfl, granted⟩)
  unfold resumeLocalCell
  dsimp only
  rw [Turns, putCell_view, putCell_ledger]
  exact ⟨replaced.trans admitted.1, blank.trans admitted.2⟩

/-- The paths of a table fill it one after the other. -/
theorem resumeLocalCells_turn (drops : r.drops) (l : List LocalCell) (t : CoreTurn)
    (fresh : t.Fresh) (granted : ∀ found ∈ l, G.resume found.id (resumeSpec found.epoch))
    (distinct : r.replaces ∨
      (l.map LocalCell.id).Nodup ∧ ∀ found ∈ l, t.cells[found.id]? = none) :
    Turns G r t (l.foldl resumeLocalCell t) := by
  induction l generalizing t with
  | nil => exact .refl
  | cons found l ih =>
    have step : Turns G r t (t.resumeLocalCell found) :=
      resumeLocalCell_turn fresh drops found (granted found mem_cons_self)
        (distinct.symm.imp_left fun ⟨_, absent⟩ => absent found mem_cons_self)
    refine step.trans (ih _ (resumeLocalCell_fresh fresh found)
      (fun other mem => granted other (mem_cons_of_mem _ mem)) (distinct.imp_right ?_))
    rintro ⟨nodup, absent⟩
    rw [map_cons, nodup_cons] at nodup
    refine ⟨nodup.2, fun other mem => ?_⟩
    rw [resumeLocalCell_cells fresh, if_neg]
    · exact absent other (mem_cons_of_mem _ mem)
    · intro same
      exact nodup.1 (same ▸ mem_map_of_mem mem)

/-- The live paths name each cell once. -/
def LivesOnce (cells : List LocalCell) : Prop :=
  ∀ a ∈ cells, ∀ b ∈ cells, a.live = true → b.live = true → a.id = b.id → a.epoch = b.epoch

theorem mem_of_mem_sortDedup {cells : List LocalCell} {found : LocalCell}
    (mem : found ∈ LocalCell.sortDedup (cells.filter (·.live))) :
    found ∈ cells ∧ found.live = true := by
  have sorted := mem_dedup.mp mem
  rw [mem_insertionSort] at sorted
  exact mem_filter.mp sorted

theorem nodup_of_livesOnce {cells : List LocalCell} (once : LivesOnce cells) :
    ((LocalCell.sortDedup (cells.filter (·.live))).map LocalCell.id).Nodup := by
  refine List.Nodup.map_on ?_ (nodup_dedup _)
  intro a memA b memB same
  obtain ⟨insideA, liveA⟩ := mem_of_mem_sortDedup memA
  obtain ⟨insideB, liveB⟩ := mem_of_mem_sortDedup memB
  have epoch := once a insideA b insideB liveA liveB same
  cases a
  cases b
  simp_all

theorem localCellsRead_turn (drops : r.drops) (result : Except Failure (List LocalCell))
    (granted : ∀ cells, result = .ok cells →
      ∀ found ∈ cells, G.resume found.id (resumeSpec found.epoch))
    (distinct : r.replaces ∨ t.confirming = true ∨
      ∀ cells, result = .ok cells → t.resuming = true → t.cells.isEmpty = true → LivesOnce cells) :
    Turns G r t (t.localCellsRead result) := by
  unfold localCellsRead
  split
  · exact confirmLocalCells_turn drops _
  rename_i idle
  split
  · exact .refl
  rename_i resuming
  split
  · exact .refl
  rename_i cells
  dsimp only
  split
  · exact .refl
  · rename_i admitted
    simp only [Bool.or_eq_true, Bool.not_eq_true', not_or, Bool.not_eq_false] at admitted resuming
    have empty : ∀ id : CellId, t.cells[id]? = none := by
      intro id
      rw [Std.ExtTreeMap.isEmpty_iff.mp admitted.2]
      rfl
    have fresh : t.Fresh :=
      ⟨fun id => gone_of_absent (empty id), fun id cell mem => nomatch (empty id).symm.trans mem⟩
    have moved : Turns G r t ((LocalCell.sortDedup (cells.filter (·.live))).foldl
        resumeLocalCell t) :=
      resumeLocalCells_turn drops _ t fresh
        (fun found mem => granted cells rfl found (mem_of_mem_sortDedup mem).1)
        (distinct.imp_right fun once => ⟨nodup_of_livesOnce
          (once.resolve_left idle cells rfl resuming admitted.2), fun found _ => empty found.id⟩)
    split
    · exact moved
    · exact moved

/-! ## Requests and wake hints -/

theorem joinRequest_hand (gone : t.Gone id) (drops : r.drops) (request : RequestId) :
    Hands G r t id cell cell (t.joinRequest request id cell) := by
  have joined : ∀ u : CoreTurn, u.Gone id → u.view = t.view → u.ledger = t.ledger →
      cell.phase.isQueued = false → Hands G r t id cell cell
        (u.admitOrQueueActivation id { cell with requests := cell.requests.insert request }
          .readOwner) := by
    intro u gone view books unqueued
    have admitted : Hands G r u id cell cell (u.admitOrQueueActivation id
        { cell with requests := cell.requests.insert request } .readOwner) :=
      admitReadOwner_hand gone (.of_kept rfl (.inl unqueued)) drops
    rwa [Hands, viewWith, view, ledgerWith_congr books] at admitted
  have touched : Hands G r t id cell cell
      ({ cell with requests := cell.requests.insert request }, t) := hand_touch _ rfl
  unfold joinRequest
  dsimp only
  split
  · rename_i phase
    exact joined _ gone rfl rfl (by rw [phase]; rfl)
  · rename_i phase
    split
    · exact joined _ gone rfl rfl (by rw [phase]; rfl)
    · exact joined _ gone rfl rfl (by rw [phase]; rfl)
  · rename_i phase
    split
    · exact touched
    · exact joined _ gone rfl rfl (by rw [phase]; rfl)
  · exact touched

theorem routeRequest_hand (gone : t.Gone id) (drops : r.drops) (request : RequestId) :
    Hands G r t id cell cell (t.routeRequest request id cell) := by
  have join : Hands G r t id cell cell (t.joinRequest request id cell) :=
    joinRequest_hand gone drops request
  have answer : ∀ result, Hands G r t id cell cell (cell, t.push (.complete request result)) :=
    fun result => hand_note [.complete request result] (by simp [CellEffect.inert]) rfl rfl
  have serve : ∀ p : Cell × CoreTurn, Hands G r p.2 id p.1 p.1
      (p.1.recordLocalRequest request p.2.nowMonoMs, p.2.completeRequest id request (.ok .local)) :=
    fun p => Hands.trans (p := (p.1.recordLocalRequest request p.2.nowMonoMs, p.2))
      (hand_touch _ rfl) (completeRequest_hand request _)
  have touched : Hands G r t id cell cell
      ({ cell with requests := cell.requests.insert request }, t) := hand_touch _ rfl
  unfold routeRequest
  split
  · split
    · exact serve (cell, t)
    · exact join
  · rename_i phase
    split
    · exact (cancelEviction_hand phase .activity).trans (serve _)
    · exact join
  · split
    · exact answer _
    · exact join
  · exact answer _
  · split
    · exact answer _
    · exact join
  · split
    · exact answer _
    · exact join
  · split
    · dsimp only
      split
      · exact touched.trans (hand_note [_] (by simp [CellEffect.inert]) rfl rfl)
      · exact touched
    · exact join
  · split
    · exact touched
    · exact join
  · exact join

theorem requestAuthorized_turn (drops : r.drops) (request : RequestId) :
    Turns G r t (t.requestAuthorized request id) :=
  handled_getD (routeRequest_hand (dropCell_gone t id) drops request)

theorem request_turn (drops : r.drops) (authoritative : Bool) (request : RequestId)
    (capacity ownership : Bool) :
    Turns G r t (t.request authoritative request id capacity ownership) := by
  let noted : CoreTurn := { t with
    capacityRequests :=
      if capacity then t.capacityRequests.insert request else t.capacityRequests
    handoffRequests :=
      if ownership then t.handoffRequests.insert request else t.handoffRequests }
  unfold CoreTurn.request
  split
  · exact .refl
  split
  · exact table_push rfl
  · dsimp only
    split
    · exact requestAuthorized_turn (t := noted) drops request
    · exact table_push rfl

theorem websocketRequest_turn (drops : r.drops) (authoritative : Bool) (request : RequestId)
    (websocket : WebSocketId) :
    Turns G r t (t.websocketRequest authoritative request id websocket) := by
  unfold websocketRequest
  split
  · exact completeRequest_turn _ _
  · exact request_turn drops _ _ _ _

theorem gateRequest_turn (drops : r.drops) (authoritative : Bool) (request : RequestId) :
    Turns G r t (t.gateRequest authoritative request id) := by
  unfold gateRequest
  split
  · exact completeRequest_turn request _
  · exact request_turn drops _ _ _ _

theorem wakeHint_turn (drops : r.drops) (authoritative : Bool) (scope : WakeHintScope) :
    Turns G r t (t.wakeHint authoritative id scope) := by
  unfold wakeHint
  split
  · exact .refl
  split
  · unfold wakeHintAuthorized
    split
    · exact .refl
    split
    · exact .refl
    · dsimp only
      refine handled_getD ?_
      have admitted : ((t.cells[id]?).getD {}).phase.isQueued = false →
          Hands G r (t.dropCell id) id ((t.cells[id]?).getD {}) ((t.cells[id]?).getD {})
            ((t.dropCell id).admitOrQueueActivation id
              { (t.cells[id]?).getD {} with alarmWake := true } .readOwner) :=
        fun unqueued => admitReadOwner_hand (dropCell_gone t id) (.of_kept rfl (.inl unqueued))
          drops
      split
      · rename_i phase
        exact admitted (by rw [phase]; rfl)
      · rename_i phase
        exact admitted (by rw [phase]; rfl)
      · rename_i phase
        exact admitted (by rw [phase]; rfl)
      · exact hand_touch _ rfl
  · exact .refl

/-- The cancellation takes the last demand off a cell that waits for a permit. -/
def Abandons (t : Core) (request : RequestId) (cell : Cell) : Prop :=
  (∃ id, t.requestCells[request]? = some id ∧ t.cells[id]? = some cell) ∧
    Cell.wanted { cell with requests := cell.requests.erase request } = false ∧
      cell.phase = .waitingActivation

/-- A queued cell of the table parks and leaves its queue. -/
theorem retire_turn (found : t.cells[id]? = some cell) (queued : cell.phase.isQueued = true)
    (inHand : Cell) (keeps : cell.Forgets inHand) (confirming : inHand.confirming = cell.confirming)
    (parked : phase.isParked = true) (view : u.view = t.view) {activation : List CellId}
    (leftActivation : Ledger.Left (cell.phase = .waitingActivation) id t.activationWaiters
      activation)
    (leftCapacity : Ledger.Left (cell.phase = .waitingCapacity) id t.capacityWaiters capacity)
    (drops : r.drops) (quiet : r.quiet cell) (books : u.ledger = { t.ledger with
      activationWaiters := activation
      capacityWaiters := capacity }) :
    Turns G r t ((u.setPhase inHand phase).2.putCell id (u.setPhase inHand phase).1) := by
  have shifts := shift_retire queued leftActivation leftCapacity (.inl drops) quiet books
  have settled : Hands G r u id cell { cell with phase := .inactive } (u.setPhase inHand phase) :=
    hand_settle keeps (keeps.phase ▸ queued) confirming parked
  have stores := settled.stored
  rw [Stores, viewWith, view] at stores
  exact Stores.turn found ⟨stores.1, shifts.trans stores.2⟩

theorem cancelQueued_turn (drops : r.drops) (request : RequestId)
    (calm : ∀ cell, Abandons t.toCore request cell → r.quiet cell) :
    Turns G r t (t.cancelQueued request) := by
  unfold cancelQueued
  dsimp only
  split
  · exact .refl
  rename_i id routed
  split
  · exact .refl
  rename_i cell found
  let unasked : CoreTurn := { t with
    capacityRequests := t.capacityRequests.erase request
    handoffRequests := t.handoffRequests.erase request
    requestCells := t.requestCells.erase request }
  split
  · rename_i last
    simp only [Bool.and_eq_true, Bool.not_eq_true', decide_eq_true_eq] at last
    have phase : cell.phase = .waitingActivation := last.2
    have quiet : r.quiet cell := calm cell ⟨⟨id, routed, found⟩, last.1, phase⟩
    refine retire_turn (u := { unasked with
        activationWaiters := t.activationWaiters.filter (· ≠ id) })
      found (by rw [phase]; rfl)
      { cell with requests := cell.requests.erase request, waitingActivation := none }
      ⟨rfl, rfl, .inl rfl, .inl rfl, .inr rfl⟩ rfl ?_ rfl
      (left_filter _ id _) (left_of_not (by simp [phase]) id _) drops quiet rfl
    split <;> rfl
  split
  · rename_i last
    simp only [Bool.and_eq_true, Bool.not_eq_true', decide_eq_true_eq] at last
    have phase : cell.phase = .waitingCapacity := last.2
    have quiet : r.quiet cell := .inr (.inr (by simp [Cell.asks, phase]))
    refine retire_turn (u := { unasked with
        capacityWaiters := t.capacityWaiters.filter (· ≠ id) })
      found (by rw [phase]; rfl)
      { cell with requests := cell.requests.erase request, waitingFor := none }
      ⟨rfl, rfl, .inl rfl, .inr rfl, .inl rfl⟩ rfl ?_ rfl
      (left_of_not (by simp [phase]) id _) (left_filter _ id _) drops quiet rfl
    split <;> rfl
  · exact put_turn found _ rfl

/-! ## The clean local reload -/

theorem preserveFallback_isParked (settles : preserveFallback cell = some phase) :
    phase.isParked = true := by
  unfold preserveFallback at settles
  split at settles
  all_goals try split at settles
  all_goals cases settles
  all_goals rfl

/-- The cell without what its cold work left on it. -/
def retired (cell : Cell) : Cell :=
  { cell with
    ownerLogRecoveryAttempts := 0
    waitingFor := none
    waitingActivation := none
    alarmWake := false
    resumeDemand := false }

/-- Retiring the cold work of a cell answers its callers and parks it. -/
theorem preserveCell_eq (found : t.cells[id]? = some cell)
    (settles : preserveFallback cell = some phase) :
    ∃ p : Cell × CoreTurn, Moves G (t.viewWith id cell) (p.2.viewWith id p.1) ∧ cell.Touches p.1 ∧
      (∀ base, p.2.ledgerWith id base = t.ledgerWith id base) ∧
      t.preserveCell id = ({ (p.2.setPhase p.1 phase).2 with
          resumingCells := (p.2.setPhase p.1 phase).2.resumingCells.erase id } : CoreTurn).putCell
        id (retired (p.1.enter phase)) := by
  have answer : ∀ u : CoreTurn, (∀ base, u.viewWith id base = t.viewWith id base) →
      (∀ base, u.ledgerWith id base = t.ledgerWith id base) →
      let p := u.finishRequests id cell (.error .nodeFenced)
      Moves G (t.viewWith id cell) (p.2.viewWith id p.1) ∧ cell.Touches p.1 ∧
        ∀ base, p.2.ledgerWith id base = t.ledgerWith id base := by
    intro u view books
    obtain ⟨kept, answered⟩ := finishRequests_spec u id cell (.error .nodeFenced)
    have hand : Hands G .free u id cell cell _ := finishRequests_hand (.error .nodeFenced)
    exact ⟨view cell ▸ hand.1, .of_kept kept, fun base => (answered base).trans (books base)⟩
  unfold preserveCell
  simp only [found, settles]
  split
  · rename_i stale _
    obtain ⟨moves, touches, books⟩ := answer ((t.dropCell id).dropOp stale) (dropCell_viewWith t id)
      (dropCell_ledgerWith t id)
    exact ⟨_, moves, touches, books, rfl⟩
  · obtain ⟨moves, touches, books⟩ := answer (t.dropCell id) (dropCell_viewWith t id)
      (dropCell_ledgerWith t id)
    exact ⟨_, moves, touches, books, rfl⟩

theorem preserveCell_moves (t : CoreTurn) (id : CellId) :
    Moves G t.view (t.preserveCell id).view := by
  cases found : t.cells[id]? with
  | none => simpa [preserveCell, found] using Trail.refl _
  | some cell =>
    cases settles : preserveFallback cell with
    | none => simpa [preserveCell, found, settles] using Trail.refl _
    | some phase =>
      obtain ⟨p, answered, _, _, same⟩ := preserveCell_eq found settles
      have move := Move.touch (G := G) (v := p.2.viewWith id (p.1.enter phase)) id
        (retired (p.1.enter phase)) (by simpa using ⟨rfl, rfl, .inl rfl, .inr rfl, .inr rfl⟩)
      rw [viewWith_put] at move
      rw [same, putCell_view, ← viewWith_of_get found]
      exact (answered.trans (move_park (.refl _) (preserveFallback_isParked settles))).trans
        (.single move)

/-- A cell put back in another phase, after work that left the books alone. -/
theorem putCell_rebook {w : CoreTurn} (books : ∀ base, u.ledgerWith id base = t.ledgerWith id base)
    (before : (t.ledger.cellAt id).phase = cell.phase)
    (after : Rebooked u w cell next.phase) :
    (w.putCell id next).ledger = t.ledger.rebook id next := by
  have count : u.occupied = t.occupied := congrArg occupied (books {})
  calc (w.putCell id next).ledger
      = w.ledger.put id next := putCell_ledger w id next
    _ = { u.ledgerWith id next with occupied := cell.phase.rebook next.phase u.occupied } := by
      rw [show w.ledger = _ from after]
      rfl
    _ = t.ledger.rebook id next := by
      rw [books, count, ← before]
      rfl

/-- What a sweep does to a cell: nothing if it is not busy, or it puts it in a phase of a kind. -/
def Visits (busy : Phase → Bool) (done : Phase → Prop) (t : CoreTurn) (id : CellId)
    (u : CoreTurn) : Prop :=
  (u.ledger = t.ledger ∧ busy (t.ledger.cellAt id).phase = false) ∨
    ∃ next : Cell, done next.phase ∧ next.confirming = (t.ledger.cellAt id).confirming ∧
      u.ledger = t.ledger.rebook id next

/-- A sweep over all busy cells, in books that take them for settled all along. -/
theorem sweep_fold {busy : Phase → Bool} {done : Phase → Prop} {settled : Ledger → Ledger}
    {f : CoreTurn → CellId → CoreTurn} (visits : ∀ t id, Visits busy done t id (f t id))
    (idle : ∀ phase, done phase → busy phase = false)
    (shifts : ∀ (v : Ledger) id (next : Cell), r.calm v → done next.phase →
      next.confirming = (v.cellAt id).confirming →
        Shifts r (settled v) (settled (v.rebook id next)))
    (l : List CellId) (t : CoreTurn) (calm : r.calm t.ledger)
    (covered : ∀ key, busy (t.ledger.cellAt key).phase = true → key ∈ l) :
    Shifts r (settled t.ledger) (settled (l.foldl f t).ledger) ∧
      (∀ key, busy ((l.foldl f t).ledger.cellAt key).phase = false) ∧
      (l.foldl f t).ledger.activationPermits = t.ledger.activationPermits ∧
      (l.foldl f t).ledger.activationWaiters = t.ledger.activationWaiters ∧
      (l.foldl f t).ledger.capacityWaiters = t.ledger.capacityWaiters := by
  induction l generalizing t with
  | nil =>
    exact ⟨.refl _, fun key => Bool.eq_false_iff.mpr fun waits =>
      absurd (covered key waits) not_mem_nil, rfl, rfl, rfl⟩
  | cons id l ih =>
    rcases visits t id with ⟨same, free⟩ | ⟨next, ends, confirming, books⟩
    · have left : ∀ key, busy ((f t id).ledger.cellAt key).phase = true → key ∈ l := by
        intro key waits
        rw [same] at waits
        refine (mem_cons.mp (covered key waits)).resolve_left ?_
        rintro rfl
        cases free.symm.trans waits
      have rest := ih (f t id) (same ▸ calm) left
      rw [same] at rest
      exact rest
    · have still : r.calm (f t id).ledger := by
        rw [books]
        exact calm.imp_right fun unmarked => forall_put
          (P := fun _ cell => cell.confirming = false) (confirming.trans (unmarked id))
          fun other _ => unmarked other
      have left : ∀ key, busy ((f t id).ledger.cellAt key).phase = true → key ∈ l := by
        rw [books]
        exact forall_put (P := fun key cell => busy cell.phase = true → key ∈ l)
          (fun waits => nomatch (idle _ ends).symm.trans waits)
          fun other differs waits => (mem_cons.mp (covered other waits)).resolve_left differs
      obtain ⟨rest, none, queues⟩ := ih (f t id) still left
      rw [books] at rest queues
      exact ⟨(shifts _ id next calm ends confirming).trans rest, none, queues⟩

theorem mem_keys_of_busy (busy : Phase → Bool) (idle : busy .inactive = false)
    (waits : busy (t.ledger.cellAt id).phase = true) : id ∈ t.cells.keys := by
  cases found : t.cells[id]? with
  | none =>
    simp only [ledger, found, Option.getD_none] at waits
    cases idle.symm.trans waits
  | some =>
    rw [Std.ExtTreeMap.mem_keys]
    exact Std.ExtTreeMap.mem_iff_isSome_getElem?.mpr (by rw [found]; rfl)

/-- Retiring the cold work of a cell parks it, and a cell without any is in no queue. -/
theorem preserveCell_visits (t : CoreTurn) (id : CellId) :
    Visits Phase.isQueued (·.isFree = true) t id (t.preserveCell id) := by
  unfold Visits
  cases found : t.cells[id]? with
  | none =>
    refine .inl ⟨by simp [preserveCell, found], ?_⟩
    simp [ledger, found, Phase.isQueued]
  | some cell =>
    have seen := ledger_cellAt_of_get found
    rw [seen]
    cases settles : preserveFallback cell with
    | none =>
      refine .inl ⟨by simp [preserveCell, found, settles], ?_⟩
      unfold preserveFallback at settles
      split at settles
      all_goals try split at settles
      all_goals try cases settles
      cases phase : cell.phase <;> first | rfl | simp_all
    | some phase =>
      obtain ⟨p, _, touches, books, same⟩ := preserveCell_eq (G := .none) found settles
      have free := Phase.isFree_of_isParked (preserveFallback_isParked settles)
      refine .inr ⟨retired (p.1.enter phase), free, touches.confirming, ?_⟩
      rw [same]
      exact putCell_rebook books (by rw [seen]; exact touches.phase.symm) rfl

/-- The books keep dequeued what a dequeued cell parks in. -/
theorem dequeued_rebook (v : Ledger) (id : CellId) (next : Cell)
    (unqueued : next.phase.isQueued = false) :
    (v.rebook id next).dequeued = v.dequeued.rebook id next := by
  ext1
  case cellAt =>
    funext key
    by_cases same : key = id
    · subst same
      simp [dequeued, rebook, put, unqueued]
    · simp [dequeued, rebook, put, Function.update_of_ne same]
  case occupied =>
    have before : (v.dequeued.cellAt id).phase.occupiesCapacity
        = (v.cellAt id).phase.occupiesCapacity := by
      simp only [dequeued]
      split
      · rename_i queued
        cases phase : (v.cellAt id).phase <;> rw [phase] at queued <;> first | rfl | cases queued
      · rfl
    simp only [rebook, Phase.rebook, before]
    rfl
  all_goals rfl

theorem dequeued_shift (drops : r.drops) (v : Ledger) (id : CellId) (next : Cell) (calm : r.calm v)
    (free : next.phase.isFree = true) (confirming : next.confirming = (v.cellAt id).confirming) :
    Shifts r v.dequeued (v.rebook id next).dequeued := by
  have parked := Phase.free_of_isFree free
  have unpermitted : next.requiresPermit = false := parked.unpermitted _
  have settled : (v.dequeued.cellAt id).phase.isQueued = false := by
    simp only [dequeued]
    split
    · rfl
    · rename_i unqueued
      exact Bool.eq_false_iff.mpr unqueued
  have marks : (v.dequeued.cellAt id).confirming = (v.cellAt id).confirming := by
    simp only [dequeued]
    split <;> rfl
  rw [dequeued_rebook _ _ _ parked.unqueued]
  refine .single (.move id next (.inl settled) parked.unqueued
    (fun requires => nomatch unpermitted.symm.trans requires)
    (fun stops => nomatch parked.noStop.symm.trans stops)
    (fun occupies => nomatch parked.vacant.symm.trans occupies) (.inl drops)
    ⟨confirming.trans marks.symm, calm.imp_right fun unmarked => .inl ?_⟩)
  rw [marks]
  exact unmarked id

theorem dequeued_of_unqueued {v : Ledger} (none : ∀ key, (v.cellAt key).phase.isQueued = false)
    (activation : v.activationWaiters = []) (capacity : v.capacityWaiters = []) :
    v.dequeued = v := by
  ext1
  case cellAt =>
    funext key
    simp [dequeued, none key]
  case activationWaiters => exact activation.symm
  case capacityWaiters => exact capacity.symm
  all_goals rfl

theorem beginPreserve_turn (drops : r.drops) (calm : r.calm t.ledger) :
    Turns G r t t.beginPreserve := by
  let cleared : CoreTurn := { t with activationWaiters := [], capacityWaiters := [] }
  obtain ⟨folded, none, _, activation, capacity⟩ := sweep_fold preserveCell_visits
    (fun phase free => (Phase.free_of_isFree free).unqueued) (dequeued_shift drops) t.cells.keys
    cleared calm fun _ queued => mem_keys_of_busy _ rfl queued
  have settled : (t.cells.keys.foldl preserveCell cleared).ledger.dequeued
      = (t.cells.keys.foldl preserveCell cleared).ledger :=
    dequeued_of_unqueued none activation capacity
  have turned : Turns G r t (t.cells.keys.foldl preserveCell cleared) := by
    refine ⟨Trail.foldl view preserveCell (fun t id => preserveCell_moves t id) _ cleared, ?_⟩
    rw [← settled]
    exact (Trail.single (.dequeue calm drops)).trans folded
  unfold beginPreserve
  dsimp only
  split
  · exact turned.trans (retainActivationPermits_turn
     )
  · exact turned.trans retainActivationPermits_turn

end CoreTurn

end Celld
