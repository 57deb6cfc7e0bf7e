import Celld.Moves.Resolve

/-!
# Acquisition, start, stop and release

The completions from the ownership write to the published runtime, and back through the stop to
the release and the adoption.  Only an applied ownership write grants anything here: the restore
of the epoch it claimed.

From the applied claim to the published runtime a cell keeps its slot, and keeps its permit until
it is published or parked.  A restart in the middle of a generation swap runs outside the
activation gate: its stop carried the mark of the swap, and so does its start.

The release of a balancing move is the one completion that starts a cold route without looking
where the cell is.  Its lemma asks that the cell is in no queue, or that the rules let it be
queued once more.
-/

namespace Celld

/-- The cell in hand holds a slot. -/
structure Cell.Runs (base cell : Cell) : Prop where
  keeps : base.Forgets cell
  confirming : cell.confirming = base.confirming
  occupies : base.phase.occupiesCapacity = true

namespace Cell.Runs

variable {r : Rules} {base cell : Cell}

theorem of_kept (same : cell.kept = base.kept) (occupies : base.phase.occupiesCapacity = true) :
    base.Runs cell := ⟨.of_kept same, (Cell.Touches.of_kept same).confirming, occupies⟩

theorem stands (runs : base.Runs cell) : base.Stands cell :=
  ⟨by rw [runs.keeps.phase], runs.confirming⟩

theorem loose (runs : base.Runs cell) : base.Loose r base cell :=
  ⟨runs.keeps, runs.stands, .inl (CoreTurn.isQueued_of_occupiesCapacity runs.occupies)⟩

theorem quiet (runs : base.Runs cell) : r.quiet base :=
  .inr (.inr (CoreTurn.asks_of_occupiesCapacity runs.occupies))

end Cell.Runs

namespace CoreTurn

variable {G : Grants} {r : Rules} {t : CoreTurn} {id : CellId} {base cell : Cell} {epoch : Epoch}
  {op : OpId}

/-! ## Acquisition and start -/

/-- An ownership write that lost its race reads the record again. -/
theorem rereadOwner_hand (routed : cell.Routed r) :
    Hands G r t id cell cell (t.rereadOwner id cell) :=
  advance_hand (t := t) routed (rfl : (Phase.readingOwner t.nextOp).isCold = true) rfl
    (hand_startOp (t := t) (.readOwner id cell (by simpa using .refl _)) rfl) rfl

/-- An ownership write that landed restores the cell, queues its restore or parks it. -/
theorem acquired_hand {claim : Claim} {dormant : Bool} (gone : t.Gone id) (routed : cell.Routed r)
    (phase : cell.phase = .acquiring op claim dormant)
    (granted : G.confirm cell.phase (confirmedSpec claim)) :
    Hands G r t id cell cell (t.acquired id cell claim dormant) := by
  have allowed : G.allows id cell (.restore (confirmedSpec claim)) := .confirm granted
  let recorded := t.recordAcquisition (confirmedSpec claim)
  unfold acquired
  dsimp only
  split
  · exact park_hand (t := recorded) routed rfl
  split
  · exact wait_hand (t := recorded) gone routed allowed _
  · rename_i occupied
    have held : cell.phase.occupiesCapacity = true := by
      rw [phase, Phase.occupiesCapacity, Bool.not_eq_true']
      exact Bool.eq_false_iff.mpr occupied
    have entry : Entry r recorded id cell
        (cell.enter (.restoring recorded.nextOp (confirmedSpec claim))) :=
      .cold (.inl routed.unqueued) (.inl routed.requires) rfl (fun _ => .inl held)
        (routed.quiet.carries rfl)
    exact ⟨hand_startOp (t := t) (.issueRestore id cell (by simpa using .refl _)
      (confirmedSpec claim) (.inr (by simpa using granted)) (by simpa using allowed)) rfl,
      shift_move (t := recorded) entry rfl rfl⟩

/-- An ownership write of unknown outcome reads the record back, a bounded number of times. -/
theorem reconcileAcquire_hand {claim : Claim} {dormant : Bool} (routed : cell.Routed r)
    (phase : cell.phase = .acquiring op claim dormant) :
    Hands G r t id cell cell (t.reconcileAcquire id cell claim dormant) := by
  unfold reconcileAcquire
  split
  · have entry : Entry r t id cell
        (cell.enter (.reconcilingAcquire t.nextOp { claim with reconciles := claim.reconciles + 1 }
          dormant)) := by
      refine .cold (.inl routed.unqueued) (.inl routed.requires) rfl (fun occupies => .inl ?_)
        (routed.quiet.carries rfl)
      rw [phase]
      exact occupies
    exact ⟨hand_startOp (t := t)
      (.reconcile id cell (by simpa using .refl _) op claim dormant (by simpa using phase)) rfl,
      shift_move entry rfl rfl⟩
  · exact refuse_hand routed rfl _

/-- The answer of an ownership write. -/
theorem ownerCasCompleted_turn (drops : r.drops) (op : OpId) (result : Except Failure CasOutcome) :
    Turns ((Grants.ownerCasCompleted op result).when (t.Awaits op)) r t
      (t.ownerCasCompleted op result) := by
  unfold ownerCasCompleted
  split
  · exact .refl
  rename_i id cell _ eq
  obtain ⟨index, mem, holds, rfl⟩ := takeCellOp_some eq
  split
  · rename_i current claim dormant phase
    obtain rfl : current = op := by simpa only [phase, decide_eq_true_eq] using holds
    have routed : cell.Routed r :=
      .of_phase phase rfl (fun _ => rfl) (by simp [Cell.asks, phase]) drops
    refine Turns.mono (Grants.within_when ⟨id, cell, index, mem, by rw [phase]; rfl⟩) ?_
    refine (handled (t := t.dropOp current) mem ?_).trans (pumpCapacity_turn drops)
    split
    · exact acquired_hand (dropCell_gone _ _) routed phase ⟨rfl, claim, dormant, phase, rfl⟩
    · exact rereadOwner_hand routed
    · exact reconcileAcquire_hand routed phase
    · exact refuse_hand routed rfl _
  · exact .refl

/-- The alarm a restore brings back is armed. -/
theorem seedAlarm_hand (id : CellId) (cell : Cell) (alarm : Option RestoredAlarm) :
    Hands G r t id cell cell (t.seedAlarm id cell alarm) ∧
      (t.seedAlarm id cell alarm).1.kept = cell.kept := by
  unfold seedAlarm
  split
  · exact ⟨.refl, rfl⟩
  · rename_i alarm _
    have seeded : Hands G r t id cell cell
        ({ cell with alarm := some (.armed alarm.atMs t.nextTimerGeneration alarm.covered) }, t) :=
      hand_touch _ rfl
    exact ⟨seeded.trans (hand_note (t := t) [_] (by simp [CellEffect.inert]) rfl rfl), rfl⟩

/-- Start a runtime on a slot the cell holds: under its permit, or in a swap. -/
theorem startRuntime_hand (runs : base.Runs cell) (owned : base.phase.ownedEpoch = some epoch)
    (admitted : base.requiresPermit = true ∨ cell.swapping = true ∨
      base.phase.isSwapStop = true ∧ cell.swapping = base.swapping) :
    Hands G r t id base base (t.startRuntime id cell epoch) := by
  have entry : Entry r t id base (cell.enter (.starting t.nextOp epoch)) := by
    refine .run runs.occupies rfl (fun requires => ?_) nofun (.inr fun _ => rfl) runs.confirming
    rcases admitted with permitted | swapping | ⟨stops, same⟩
    · exact .inl permitted
    · have kept : (!cell.swapping) = true := requires
      rw [swapping] at kept
      cases kept
    · exact .inr ⟨stops, same, rfl⟩
  exact ⟨hand_startOp (t := t)
    (.startRuntime id cell (by simpa using runs.keeps) epoch (by simpa using owned)) rfl,
    shift_move entry runs.stands.occupies rfl⟩

/-- A runtime that failed leaves its cell dormant, at the epoch it owns. -/
theorem parkFailed_hand (runs : base.Runs cell) (drops : r.drops) (epoch : Epoch)
    (error : RequestError) : Hands G r t id base base (t.parkFailed id cell epoch error) :=
  parkAndFinish_hand runs.loose runs.quiet (.inl drops)
    (rfl : (Phase.dormant epoch).isParked = true) _

/-- A cell that startup waited for is settled. -/
theorem settleIf_turn (settles : Bool) :
    Turns G r t (if settles then t.settleLocalResume id else t) := by
  cases settles with
  | true => exact settleLocalResume_turn
  | false => exact .refl

/-- A restored cell starts its runtime under the permit of its route. -/
theorem restoreCompleted_turn (drops : r.drops) (op : OpId)
    (result : Except Failure RestoreOutcome) : Turns G r t (t.restoreCompleted op result) := by
  unfold restoreCompleted
  split
  · exact .refl
  rename_i id cell _ eq
  obtain ⟨_, mem, _, rfl⟩ := takeCellOp_some eq
  split
  · rename_i phase
    have occupies : cell.phase.occupiesCapacity = true := by rw [phase]; rfl
    dsimp only
    split
    · rename_i outcome
      let restored : CoreTurn := { (t.dropOp op).dropCell id with
        activity.restored :=
          if outcome.restored then satAdd t.activity.restored 1 else t.activity.restored }
      obtain ⟨seeded, kept⟩ :=
        seedAlarm_hand (G := G) (r := r) (t := restored) id cell outcome.alarm
      have same := (Cell.Touches.of_kept kept).phase
      refine (handled mem (seeded.trans (startRuntime_hand
        (.of_kept rfl ?_) ?_ (.inl ?_)))).trans (pumpCapacity_turn drops)
      · rw [same]; exact occupies
      · rw [same, phase]; rfl
      · rw [Cell.requiresPermit, same, phase]; rfl
    · exact ((handled (t := t.dropOp op) mem
        (parkFailed_hand (.of_kept rfl occupies) drops _ _)).trans (settleIf_turn _)).trans
          (pumpCapacity_turn drops)
  · exact .refl

/-- The stop of a runtime that no cell holds any more. -/
theorem table_stopUntracked {u : CoreTurn} (epoch : Epoch)
    (view : u.view = (t.view.emit [.stopRuntime t.nextOp id epoch .fence false]).spend)
    (books : u.ledger = t.ledger) : Turns G r t u := by
  refine ⟨?_, .of_eq books.symm⟩
  rw [view]
  exact .single (.stopUntracked id epoch)

/-- A start that no cell waits for any more is stopped again. -/
theorem compensateRetiredRuntime_turn (op : OpId) (result : Except Failure Unit) :
    Turns G r t (t.compensateRetiredRuntime op result) := by
  unfold compensateRetiredRuntime
  split
  · exact .refl
  · dsimp only
    split
    · exact .refl
    · exact table_stopUntracked _ rfl rfl

/-- Publish the runtime that started: the permit, or the swap, is the start's. -/
theorem publishRuntime_hand (runs : base.Runs cell) (phase : base.phase = .starting op epoch)
    (swapping : cell.swapping = base.swapping) :
    Hands G r t id base base (t.publishRuntime id cell epoch) := by
  have entry : Entry r t id base (cell.enter (.publishing t.nextOp epoch)) := by
    refine .run runs.occupies rfl
      (fun requires => .inl ?_) nofun (.inr fun _ => rfl) runs.confirming
    rw [Cell.requiresPermit, phase, ← swapping]
    exact requires
  exact ⟨hand_startOp (t := t)
    (.publish id cell (by simpa using runs.keeps) op epoch (by simpa using phase)) rfl,
    shift_move entry runs.stands.occupies rfl⟩

/-- A started runtime is published next. -/
theorem runtimeStarted_turn (drops : r.drops) (op : OpId) (isolate : Option HeapId)
    (generation : ℕ) (result : Except Failure Unit) :
    Turns G r t (t.runtimeStarted op isolate generation result) := by
  unfold runtimeStarted
  split
  · exact compensateRetiredRuntime_turn op result
  rename_i cell _ eq
  obtain ⟨_, mem, _, rfl⟩ := takeCellOp_some eq
  split
  · rename_i phase
    have occupies : cell.phase.occupiesCapacity = true := by rw [phase]; rfl
    let settled : CoreTurn :=
      { t.dropOp op with timedOutRuntimeStarts := t.timedOutRuntimeStarts.erase op }
    dsimp only
    split
    · have runs : cell.Runs { cell with isolate := isolate, generation := generation } :=
        .of_kept rfl occupies
      exact (handled (t := settled) mem (publishRuntime_hand runs phase rfl)).trans
        (pumpCapacity_turn drops)
    · exact ((handled (t := settled) mem (parkFailed_hand (.of_kept rfl occupies) drops _ _)).trans
        (settleIf_turn _)).trans (pumpCapacity_turn drops)
  · exact .refl

/-- A slow start fails the requests that wait for it and goes on. -/
theorem runtimeStartTimedOut_turn (op : OpId) : Turns G r t (t.runtimeStartTimedOut op) := by
  unfold runtimeStartTimedOut
  split
  · exact .refl
  split
  · exact .refl
  rename_i mem
  split
  · split
    · exact handled (t := { t with timedOutRuntimeStarts := t.timedOutRuntimeStarts.insert op }) mem
        (finishRequests_hand _)
    · exact .refl
  · exact .refl

/-- Stop a runtime, for another reason than a swap or with the swap's mark. -/
theorem stopRuntime_hand {cause : StopCause} {bounded : Bool} (runs : base.Runs cell)
    (running : base.phase.runtimeEpoch = some epoch)
    (swaps : cause = .swap → cell.swapping = true) :
    Hands G r t id base base (t.stopRuntime id cell epoch cause bounded) := by
  have entry : Entry r t id base (cell.enter (.cleaning t.nextOp epoch cause)) := by
    refine .run runs.occupies rfl nofun (fun stops => ?_) (.inr fun _ => rfl) runs.confirming
    cases cause with
    | swap => exact swaps rfl
    | _ => cases stops
  exact ⟨hand_startOp (t := t)
    (.stop id cell (by simpa using runs.keeps) epoch cause bounded (by simpa using running)) rfl,
    shift_move entry runs.stands.occupies rfl⟩

/-- A published cell is resident, and its requests are served here. -/
theorem reside_hand (phase : cell.phase = .publishing op epoch)
    (drops : r.drops) : Hands G r t id cell cell (t.reside id cell epoch) := by
  have move := Move.reside (G := G) (v := t.viewWith id cell) id cell (by simpa using .refl _) op
    epoch (by simpa using phase)
  rw [viewWith_put] at move
  have entry : Entry r t id cell (cell.enter (.resident epoch)) :=
    .run (by rw [phase]; rfl) rfl nofun nofun (.inl drops) rfl
  have resident : Hands G r t id cell cell (t.setPhase cell (.resident epoch)) :=
    ⟨.single move, shift_move entry rfl rfl⟩
  have settled : Hands G r t id cell cell
      ({ cell.enter (.resident epoch) with swapping := false, swapCancelled := false },
        (t.setPhase cell (.resident epoch)).2) :=
    resident.trans (hand_forget ⟨rfl, rfl, .inl rfl, .inl rfl, .inl rfl⟩
      ⟨rfl, .inl rfl, .inl rfl, rfl, .inr rfl⟩)
  exact settled.trans (finishRequests_hand (.ok .local))

/-- A cell that cannot be published stops its runtime. -/
theorem published_turn (drops : r.drops) (op : OpId) (result : Except Failure Unit) :
    Turns G r t (t.published op result) := by
  unfold published
  split
  · exact compensateRetiredRuntime_turn op result
  rename_i cell _ eq
  obtain ⟨_, mem, _, rfl⟩ := takeCellOp_some eq
  split
  · rename_i phase
    dsimp only
    refine (handled (t := t.dropOp op) mem ?_).trans (settleIf_turn cell.resumeDemand)
    split
    · exact reside_hand phase drops
    · exact stopRuntime_hand (.of_kept rfl (by rw [phase]; rfl)) (by rw [phase]; rfl) nofun
  · exact .refl

/-! ## Release and adoption -/

/-- A dormant cell gives its ownership up. -/
theorem releaseOwner_hand (phase : cell.phase = .dormant epoch) :
    Hands G r t id cell cell (t.releaseOwner id cell epoch) := by
  have shift := shift_touch (r := r) (t := t) id
    (⟨rfl, .inl rfl, .inl rfl, rfl, .inl rfl⟩ : cell.Touches
      { cell with releasing := some t.nextOp })
  exact ⟨hand_startOp (t := t)
    (.release id cell (by simpa using .refl _) epoch (by simpa using phase)) rfl, shift⟩

theorem releasedEpoch_eq_some (eq : releasedEpoch cell = some epoch) :
    cell.phase = .dormant epoch := by
  unfold releasedEpoch at eq
  split at eq
  · rename_i phase
    rw [phase, Option.some.inj eq]
  · cases eq

/-- A released cell is offered to a successor. -/
theorem adoptReleased_hand (drops : r.drops) (phase : cell.phase = .dormant epoch) :
    Hands G r t id cell cell (t.adoptReleased id cell epoch) := by
  have loose : cell.Loose r cell { cell with releasing := none } :=
    ⟨⟨rfl, rfl, .inr rfl, .inl rfl, .inl rfl⟩, ⟨rfl, rfl⟩, .inl (by rw [phase]; rfl)⟩
  exact ⟨hand_startOp (t := t) (.adopt id { cell with releasing := none }
      (by simpa using loose.keeps) epoch cell.handoff (by simpa using phase)) rfl,
    shift_park (t := t) loose.stands loose.settled (.inr (.inr (by simp [Cell.asks, phase])))
      (.inl drops) (rfl : (Phase.adopting t.nextOp epoch).isFree = true) rfl⟩

theorem exists_dormant {phase : Phase} (dormant : phase.isDormant = true) :
    ∃ epoch, phase = .dormant epoch := by
  unfold Phase.isDormant at dormant
  split at dormant
  · exact ⟨_, rfl⟩
  · cases dormant

/-- A release that ends without adoption may start a cold route from where the cell is. -/
theorem releaseWithoutAdoption_hand {settled : Bool} (gone : t.Gone id) (drops : r.drops)
    (once : cell.handoff = true → cell.requests.isEmpty = false →
      cell.phase.isQueued = false ∨ r.requeues) :
    Hands G r t id cell cell (t.releaseWithoutAdoption id cell settled) := by
  -- The cell as the release leaves it: a settled dormant one is forgotten first.
  obtain ⟨u, c, left, absent, handoff, requests, free, hands⟩ :
      ∃ (u : CoreTurn) (c : Cell),
        (if settled && cell.phase.isDormant then t.setPhase cell .inactive else (cell, t)) =
          (c, u) ∧
        u.Gone id ∧ c.handoff = cell.handoff ∧ c.requests = cell.requests ∧
        (cell.phase.isQueued = false → c.phase.isQueued = false) ∧
        Hands G r t id cell cell (c, u) := by
    split
    · rename_i forgotten
      simp only [Bool.and_eq_true] at forgotten
      obtain ⟨_, phase⟩ := exists_dormant forgotten.2
      refine ⟨_, _, rfl, gone, rfl, rfl, fun _ => rfl, ?_⟩
      exact hand_park (.refl (.inl (by rw [phase]; rfl)))
        (.inr (.inr (by simp [Cell.asks, phase]))) (.inl drops) rfl
    · exact ⟨t, cell, rfl, gone, rfl, rfl, fun free => free, .refl⟩
  unfold releaseWithoutAdoption
  rw [left]
  refine hands.trans ?_
  dsimp only
  split
  · rename_i moved
    simp only [Bool.and_eq_true, Bool.not_eq_true'] at moved
    rw [handoff, requests] at moved
    exact admitReadOwner_hand absent (.of_kept rfl ((once moved.1 moved.2).imp_left free)) drops
  · exact hand_touch _ rfl

/-- The completion of a release does not meet a queued cell it would admit. -/
def ReleasesOnce (r : Rules) (c : Core) (op : OpId) : Prop :=
  ∀ (id : CellId) (cell : Cell), c.cellOps[op]? = some id → c.cells[id]? = some cell →
    cell.releasing = some op → cell.handoff = true → cell.requests.isEmpty = false →
      cell.phase.isQueued = false ∨ r.requeues

/-- The answer of a release. -/
theorem ownerReleased_turn (drops : r.drops) (op : OpId) (result : Except Failure CasOutcome)
    (once : ReleasesOnce r t.toCore op) : Turns G r t (t.ownerReleased op result) := by
  unfold ownerReleased
  split
  · exact .refl
  rename_i id cell _ eq
  obtain ⟨index, mem, holds, rfl⟩ := takeCellOp_some eq
  simp only [decide_eq_true_eq] at holds
  have free := once id cell index mem holds
  dsimp only
  refine handled (t := t.dropOp op) mem ?_
  split
  · rename_i epoch found
    have phase : cell.phase = .dormant epoch := by
      split at found
      · exact releasedEpoch_eq_some found
      · cases found
    exact adoptReleased_hand drops phase
  · let forgotten : CoreTurn :=
      { (t.dropOp op).dropCell id with releasingCells := t.releasingCells.erase id }
    have released : Hands G r ((t.dropOp op).dropCell id) id cell cell
        ({ cell with releasing := none }, forgotten) :=
      hand_forget (t := (t.dropOp op).dropCell id) ⟨rfl, rfl, .inr rfl, .inl rfl, .inl rfl⟩
        ⟨rfl, .inl rfl, .inl rfl, rfl, .inl rfl⟩
    exact released.trans (releaseWithoutAdoption_hand (dropCell_gone _ _) drops free)

/-- A failed adoption parks the cell; a handoff reads the owner again for those that wait. -/
theorem adoptionFailed_hand {handoff : Bool} (gone : t.Gone id) (drops : r.drops)
    (phase : cell.phase = .adopting op epoch) :
    Hands G r t id cell cell (t.adoptionFailed id cell handoff) := by
  have parked :
      Hands G r t id cell cell ((t.countAdoptionFailed handoff).setPhase cell .inactive) :=
    hand_park (t := t.countAdoptionFailed handoff) (.refl (.inl (by rw [phase]; rfl)))
      (.inr (.inr (by simp [Cell.asks, phase]))) (.inl drops) rfl
  unfold adoptionFailed
  dsimp only
  split
  · split
    · exact parked
    · exact parked.trans (admitReadOwner_hand gone (.refl (.inl rfl)) drops)
  · exact parked.trans (finishRequests_hand _)

/-- A successor that took the cell over is where its requests go. -/
theorem successorAdopted_turn (drops : r.drops) (op : OpId)
    (result : Except Failure AdoptedCell) : Turns G r t (t.successorAdopted op result) := by
  unfold successorAdopted
  split
  · exact .refl
  rename_i id cell _ eq
  obtain ⟨_, mem, _, rfl⟩ := takeCellOp_some eq
  split
  · rename_i phase
    let adopting : CoreTurn := { t.dropOp op with adoptingCells := t.adoptingCells.erase id }
    have plain : Hands G r (adopting.dropCell id) id cell cell
        ({ cell with handoff := false }, adopting.dropCell id) := hand_touch _ rfl
    dsimp only
    refine handled (t := adopting) mem (plain.trans ?_)
    split
    · split
      · exact parkAndFinish_hand (t := (adopting.dropCell id).countAdopted cell.handoff)
          (.refl (.inl (by rw [phase]; rfl))) (.inr (.inr (by simp [Cell.asks, phase])))
          (.inl drops) rfl _
      · exact adoptionFailed_hand (dropCell_gone _ _) drops phase
    · exact adoptionFailed_hand (dropCell_gone _ _) drops phase
  · exact .refl

/-! ## Stops -/

theorem finishEviction_gone (gone : t.Gone id) (op : OpId)
    (result : Except EvictError EvictSuccess) : (t.finishEviction op result).Gone id := by
  unfold finishEviction
  split
  · exact gone
  · exact gone

theorem dropFiring_spec (t : CoreTurn) (cell : Cell) :
    (t.dropFiring cell).view = t.view ∧ (t.dropFiring cell).ledger = t.ledger := by
  unfold dropFiring
  split <;> exact ⟨rfl, rfl⟩

/-- What a completed stop leaves of a cell that held a slot. -/
theorem afterStop_hand {cause : StopCause} (gone : t.Gone id) (drops : r.drops)
    (phase : cell.phase = .cleaning op epoch cause) :
    Hands G r t id cell cell (t.afterStop id cell epoch cause) := by
  have owned : cell.phase.ownedEpoch = some epoch := by rw [phase]; rfl
  have runs : cell.Runs cell := .of_kept rfl (by rw [phase]; rfl)
  have parks : ∀ next, next.isParked = true → Hands G r t id cell cell (t.setPhase cell next) :=
    fun next parked => hand_park runs.loose runs.quiet (.inl drops) parked
  cases cause with
  | cleanup => exact parkFailed_hand runs drops _ _
  | reset =>
    obtain ⟨view, books⟩ := dropFiring_spec (t.setPhase cell .inactive).2 (cell.enter .inactive)
    have cleared : Hands G r (t.setPhase cell .inactive).2 id (cell.enter .inactive)
        (cell.enter .inactive)
        ({ cell.enter .inactive with alarm := none, alarmWake := false, websockets := ∅ },
          (t.setPhase cell .inactive).2) := hand_touch _ rfl
    have forgotten := (parks .inactive rfl).trans cleared
    have same : Hands G r t id cell cell
        ({ cell.enter .inactive with alarm := none, alarmWake := false, websockets := ∅ },
          (t.setPhase cell .inactive).2.dropFiring (cell.enter .inactive)) := by
      rw [Hands, viewWith, viewWith, view, ledgerWith_congr books]
      exact forgotten
    exact same.trans (finishRequests_hand _)
  | evict =>
    unfold afterStop
    dsimp only
    split
    · split
      · exact (parks _ rfl).trans
          (releaseOwner_hand (t := { (t.setPhase cell (.dormant epoch)).2 with
            evictionPermits := t.evictionPermits.erase id }) rfl)
      · exact parks (.dormant epoch) rfl
    · exact admitReadOwner_hand (t := { t with evictionPermits := t.evictionPermits.erase id })
        gone runs.loose drops
  | swap =>
    unfold afterStop
    dsimp only
    split
    · exact parkFailed_hand runs drops _ _
    · exact startRuntime_hand runs owned (.inr (.inr ⟨by rw [phase]; rfl, rfl⟩))
  | fence => exact .refl

/-- What follows a stop is for its cause to say: an eviction parks, a swap starts again. -/
theorem runtimeStopped_turn (drops : r.drops) (op : OpId) : Turns G r t (t.runtimeStopped op) := by
  unfold runtimeStopped
  split
  · exact .refl
  rename_i id cell u eq
  obtain ⟨_, mem, _, rfl⟩ := takeCellOp_some eq
  split
  · rename_i epoch cause phase
    dsimp only
    refine (((handled (t := t.dropOp op) mem ?_).trans (pumpCapacity_turn drops)).trans
      shedTowardFloor_turn).trans (evictIdle_turn _)
    have stopped : ∀ u : CoreTurn, u.Gone id →
        Hands G r ((t.dropOp op).dropCell id) id cell cell (cell, u) →
        Hands G r ((t.dropOp op).dropCell id) id cell cell
          (u.afterStop id { cell with isolate := none } epoch cause) := by
      intro u gone hands
      have cleared : Hands G r u id cell cell ({ cell with isolate := none }, u) := hand_touch _ rfl
      exact (hands.trans cleared).trans (afterStop_hand gone drops phase)
    split
    · exact stopped _ (finishEviction_gone (dropCell_gone _ _) _ _) (finishEviction_hand _ _)
    · exact stopped _ (dropCell_gone _ _) .refl
  · exact .refl

/-- A stop that failed starts the runtime again, as a swap does. -/
theorem runtimeStopFailed_turn (op : OpId) (error : EvictError) :
    Turns G r t (t.runtimeStopFailed op error) := by
  unfold runtimeStopFailed
  split
  · exact .refl
  rename_i id cell _ eq
  obtain ⟨_, mem, _, rfl⟩ := takeCellOp_some eq
  split
  · rename_i phase
    let stopped := ((t.dropOp op).dropCell id).finishEviction op (.error error)
    have settled : Hands G r ((t.dropOp op).dropCell id) id cell cell (cell, stopped) :=
      finishEviction_hand op _
    have runs : cell.Runs { cell with
        isolate := none
        evictRebalance := false
        handoff := false
        evictionRefusedMonoMs := some stopped.nowMonoMs
        swapping := true } :=
      ⟨⟨rfl, rfl, .inl rfl, .inl rfl, .inl rfl⟩, rfl, by rw [phase]; rfl⟩
    exact handled (t := t.dropOp op) mem (settled.trans (startRuntime_hand
      (t := { stopped with evictionPermits := stopped.evictionPermits.erase id }) runs
      (by rw [phase]; rfl) (.inr (.inl rfl))))
  · exact .refl

/-- An eviction goes on once the cell is durable, and is called off otherwise. -/
theorem durabilityChecked_turn (op : OpId) (result : Except EvictFailure Unit) :
    Turns G r t (t.durabilityChecked op result) := by
  unfold durabilityChecked
  split
  · exact .refl
  rename_i id cell u eq
  obtain ⟨_, mem, _, rfl⟩ := takeCellOp_some eq
  split
  · rename_i epoch phase
    split
    · refine Stores.turn (t := t.dropOp op) mem ?_
      dsimp only
      rw [Stores, putCell_view, putCell_ledger]
      exact stopRuntime_hand (t := { t.dropOp op with evictionNotifications := _ })
        (.of_kept rfl (by rw [phase]; rfl)) (by rw [phase]; rfl) fun swaps => by cases swaps
    · have refused : Hands G r (t.dropOp op) id cell cell
          ({ cell.enter (.resident epoch) with evictionRefusedMonoMs := some t.nowMonoMs },
            ((t.dropOp op).setPhase cell (.resident epoch)).2) :=
        (hand_rescue phase).trans (hand_touch _ rfl)
      exact Turns.trans
        (u := CoreTurn.putCell { ((t.dropOp op).setPhase cell (.resident epoch)).2 with
        evictionPermits := t.evictionPermits.erase id } id _) (refused.stored.turn mem)
        (finishEviction_turn _ _)
  · exact .refl

theorem generationChanged_turn (generation maxAgeMs : ℕ) (eagerClasses : List String) :
    Turns G r t (t.generationChanged generation maxAgeMs eagerClasses) := by
  unfold generationChanged
  split
  · exact .refl
  · exact .refl

end CoreTurn

end Celld
