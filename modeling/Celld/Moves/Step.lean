import Celld.Moves.Lease

/-!
# An event

The rest of the handlers of the whole state, and the theorems this layer is for: an event is a
chain of moves (`onEvent_moves`), and in the books of admission a chain of shifts
(`onEvent_ledger`).

Four things an event can do are not entries the books survive, and each is a condition on the
event and the state that receives it.

* `ResumesOnce`: the inventory a resuming node is told names a live cell once.
* `ReleasesOnce`: a release that completes does not meet its cell in a queue.
* `KeepsMarks`: an event that takes cells out of their owner reads, meets none to confirm.
* An inventory read is outstanding once it was asked for.

A permit that a handler leaves behind is returned by the pumps of the same event, so the last
shifts of an event are all within the rules.
-/

namespace Celld

open CoreTurn

namespace Turn

variable {χ : Type} {H : GateGrants χ} {r : Rules} {t u : Turn χ}

/-! ## Drains and fences -/

theorem cancelOutput_steps (t : Turn χ) (op : OpId) : Steps H r t (t.cancelOutput op) := by
  unfold cancelOutput
  split
  · exact .refl
  split
  · exact (((dropBarrier_steps op).trans (releaseHeld_steps (by rintro ⟨⟩))).trans
      (releaseAllHeld_steps (by rintro ⟨⟩))).trans (reaskRiders_steps _ _ _)
  · exact .refl

theorem cancelCellOutputs_steps (id : CellId) : Steps H r t (t.cancelCellOutputs id) :=
  Steps.foldl cancelOutput cancelOutput_steps _ t

/-- A request leaves.  The mark of a confirmation asks that it was not the last demand of a
cell that waits for its owner read. -/
theorem cancel_steps (drops : r.drops) (request : RequestId)
    (calm : ∀ cell, Abandons t.toCore request cell → r.lenient ∨ cell.confirming = false) :
    Steps H r t (t.cancel request) := by
  have quiet : ∀ cell : Cell, r.lenient ∨ cell.confirming = false → r.quiet cell :=
    fun _ => Or.imp_right .inl
  unfold cancel
  dsimp only
  split
  · refine (activityFinished_steps request).trans
      (onCore_steps (cancelQueued_turn drops request fun cell abandons => quiet cell ?_))
    unfold activityFinished at abandons
    split at abandons
    · exact calm cell abandons
    · obtain ⟨before, left, same⟩ := finishActivity_abandons
        (t := { t.toCore with effects := [] }) abandons
      rw [← same]
      exact calm before left
  · exact onCore_steps (cancelQueued_turn drops request fun cell abandons =>
      quiet cell (calm cell abandons))

theorem drainBarriers_steps : Steps H r t t.drainBarriers := by
  have quiet : ∀ effect ∈ t.barriers.toList.flatMap
      (fun gate : OpId × Barrier χ => gate.2.failure .nodeFenced), effect.quiet = true := by
    intro effect mem
    obtain ⟨gate, _, told⟩ := List.mem_flatMap.mp mem
    exact failure_quiet gate.2 _ effect told
  have drained : Steps H r t { t with barriers := ∅, gatePinned := ∅ } := by
    refine ⟨.single (.drop (fun op => (∅ : BTreeMap OpId (Barrier χ))[op]?) fun op => .inl ?_),
      .refl _⟩
    simp
  exact drained.trans (pushAll_steps (t := { t with barriers := ∅, gatePinned := ∅ }) _ quiet)

/-- A fence that changes anything meets no cell to confirm. -/
def Calms (r : Rules) (t : Turn χ) : Prop := t.fenced = false → r.calm t.ledger

theorem fence_steps (calms : Calms r t) : Steps H r t t.fence := by
  unfold fence
  split
  · exact .refl
  · rename_i running
    have cells := fenceCells_turn (G := H.toGrants)
      (calms (Bool.eq_false_iff.mpr running))
    have cleared : GateMoves H t.gate (t.onCore (·.clearForFence)).gate := onCore_moves (.refl _)
    have drained :
        Steps H r (t.onCore (·.clearForFence)) (t.onCore (·.clearForFence)).drainBarriers :=
      drainBarriers_steps
    exact ⟨(cleared.trans drained.1).trans (onCore_moves cells.1), cells.2⟩

theorem setAuthority_steps {authority : NodeAuthority} (granted : H.authorizes authority) :
    Steps H r t (t.setAuthority authority) := ⟨.single (.authorize authority granted), .refl _⟩

theorem fenceNode_steps (granted : H.authorizes .fenced) (calms : Calms r t) (reason : HaltReason) :
    Steps H r t (t.fenceNode reason) :=
  ((setAuthority_steps granted).trans (fence_steps (t := t.setAuthority .fenced) calms)).trans
    (push_steps rfl)

/-! ## The pumps -/

theorem drainResident_steps (t : Turn χ) (id : CellId) : Steps H r t (t.drainResident id) := by
  unfold drainResident
  split
  · exact .refl
  rename_i cell mem
  have reserved : Steps H r t (t.onCore fun t =>
      { t.putCell id { cell with quiescing := true } with
        quiescingCells := t.quiescingCells.insert id }) := by
    refine onCore_steps ?_
    let core : CoreTurn := { t.toCore with effects := [] }
    have touched : Turns H.toGrants r core
        (core.putCell id { cell with quiescing := true }) :=
      put_turn (t := core) mem _ rfl
    exact touched
  refine (reserved.trans (cancelCellOutputs_steps id)).trans (onCore_steps ?_)
  exact (table_push rfl).trans (beginEviction_turn id true)

theorem evictQuiescing_steps : Steps H r t t.evictQuiescing :=
  onCore_steps (Turns.foldl _ (fun t id => beginEviction_turn (t := t) id true) _ _)

theorem releaseQueues_steps (room : ℕ) : Steps H r t (t.releaseQueues room).1 := by
  refine onCore_steps (releases_turn releaseQueue_turn
    releaseQueue_phaseAt _ ?_)
  intro _ mem
  exact dormantCells_phaseAt (List.mem_of_mem_take mem)

theorem drainResidents_steps (room : ℕ) : Steps H r t (t.drainResidents room).1 :=
  Steps.foldl drainResident drainResident_steps _ t

theorem releaseDormants_steps (room : ℕ) : Steps H r t (t.releaseDormants room) := by
  refine onCore_steps (releases_turn releaseDormant_turn
    releaseDormant_phaseAt _ ?_)
  intro _ mem
  exact dormantCells_phaseAt (List.mem_of_mem_take mem)

theorem pumpRelease_steps : Steps H r t t.pumpRelease := by
  unfold pumpRelease
  split
  · exact .refl
  · exact ((evictQuiescing_steps.trans (releaseQueues_steps _)).trans
      (drainResidents_steps _)).trans (releaseDormants_steps _)

theorem releaseAll_steps : Steps H r t t.releaseAll :=
  (onCore_steps ⟨.refl _, .refl _⟩).trans pumpRelease_steps

theorem pumpSwap_steps : Steps H r t t.pumpSwap := onCore_steps (pumpSwap_turn _ _)

/-! ## The node lease -/

/-- The turn goes on to `u`; in the books, once an inventory that `u` asks for counts as
outstanding. -/
def Leads (H : GateGrants χ) (r : Rules) (t u : Turn χ) : Prop :=
  GateMoves H t.gate u.gate ∧
    ((.cell .readLocalCells ∈ u.effects → r.awaits) → Shifts r t.ledger u.ledger)

theorem Steps.leads (steps : Steps H r t u) : Leads H r t u := ⟨steps.1, fun _ => steps.2⟩

theorem pushClerical_steps (effects : List (Effect χ))
    (clerical : ∀ effect ∈ effects, effect.clerical = true) (t : Turn χ) :
    Steps H r t (t.pushAll effects) := by
  induction effects generalizing t with
  | nil =>
    have same : t.pushAll [] = t := by simp [pushAll]
    rw [same]
    exact .refl
  | cons effect effects ih =>
    obtain ⟨first, rest⟩ := List.forall_mem_cons.mp clerical
    have pushed : Steps H r t (t.push effect) := by
      cases effect with
      | cell => exact pushCell_steps first
      | readSelfNodeLease | casNodeLease => exact push_steps rfl
      | _ => cases first
    have split : t.pushAll (effect :: effects) = (t.push effect).pushAll effects := by
      simp [pushAll, push]
    rw [split]
    exact pushed.trans (ih rest _)

theorem Amends.leads (amends : t.Amends u) (granted : H.authorizes u.nodeAuthority) :
    Leads H r t u := by
  obtain ⟨effects, told, clerical⟩ := amends.told
  have pushed : Steps H r t (t.pushAll effects) := pushClerical_steps effects clerical t
  have spent : GateMoves H (t.pushAll effects).gate
      (Turn.gate { t.pushAll effects with nextOp := u.nextOp }) := by
    rcases amends.ops with same | one
    · rw [same]
      exact .refl _
    · rw [one]
      exact .single (.core _ .spend)
  have same := amends.rest
  rw [told] at same
  constructor
  · rw [same]
    exact (pushed.1.trans spent).trans (.single (.authorize _ granted))
  · intro awaits
    rcases amends.inventory with kept | ⟨asked, raised⟩
    · rw [kept] at same
      rw [same]
      exact .refl _
    · rw [asked] at same
      have awaits := awaits raised
      rw [same]
      exact .single (.inventory awaits)

theorem LeaseTurn.leads {event : Event χ} (turn : LeaseTurn event t u)
    (granted : ∀ authority, H.authorizes authority)
    (calms : t.nodeAuthority.isLost event = true → Calms r t) : Leads H r t u := by
  cases turn with
  | fence reason lost eq =>
    rw [eq]
    exact (fenceNode_steps (granted _) (calms lost) reason).leads
  | amend amends => exact amends.leads (granted _)

end Turn

/-! ## What an event may meet -/

namespace State

variable {χ : Type}

/-- No cell of the table is being confirmed. -/
def Unmarked (s : State χ) : Prop :=
  ∀ (id : CellId) (cell : Cell), s.cells[id]? = some cell → cell.confirming = false

/-- A node that resumes is told each live cell once. -/
def ResumesOnce (s : State χ) : Event χ → Prop
  | .localCellsRead (.ok cells) =>
      s.confirming = false → s.resuming = true → s.cells.isEmpty = true →
        LivesOnce cells
  | _ => True

/-- A release that completes, or whose time is up, does not meet its cell in a queue with
callers. -/
def ReleasesOnce (s : State χ) : Event χ → Prop
  | .ownerReleased op _ | .timerFired (.operationDeadline op) _ _ =>
      ∀ (id : CellId) (cell : Cell), s.cellOps[op]? = some id → s.cells[id]? = some cell →
        cell.releasing = some op → cell.handoff = true → cell.requests.isEmpty = false →
          cell.phase.isQueued = false
  | _ => True

/-- A cancellation does not take the last demand off a cell to confirm that waits for its
permit, and neither a clean reload nor the loss of the lease meets a cell to confirm. -/
def KeepsMarks (s : State χ) : Event χ → Prop
  | .cancel request =>
      ∀ cell, Abandons s.toCore request cell → cell.confirming = false
  | .beginPreserve => s.Unmarked
  | event => s.fenced = false → s.nodeAuthority.isLost event = true → s.Unmarked

/-- The rules allow what the event does beyond the ordinary. -/
structure Allows (r : Rules) (s : State χ) (event : Event χ) : Prop where
  drops : r.drops
  resumes : r.replaces ∨ s.ResumesOnce event
  releases : r.requeues ∨ s.ReleasesOnce event
  marks : r.lenient ∨ s.KeepsMarks event

theorem allows_free (s : State χ) (event : Event χ) : s.Allows .free event :=
  ⟨trivial, .inl trivial, .inl trivial, .inl trivial⟩

theorem Unmarked.calm {s : State χ} (unmarked : s.Unmarked) (key : CellId) :
    (s.ledger.cellAt key).confirming = false := by
  change ((s.cells[key]?).getD {}).confirming = false
  cases found : s.cells[key]? with
  | none => rfl
  | some cell => exact unmarked key cell found

end State

namespace Turn

variable {χ : Type} {H : GateGrants χ} {r : Rules} {t : Turn χ}

theorem calms_of_allows {event : Event χ} (allows : t.toState.Allows r event)
    (leases : event.leases = true) (lost : t.nodeAuthority.isLost event = true) : Calms r t := by
  intro running
  refine allows.marks.imp_right fun keeps => State.Unmarked.calm ?_
  cases event with
  | cancel | beginPreserve => cases leases
  | _ => exact keeps running lost

theorem releasesOnce_of_allows {op : OpId}
    (releases : r.requeues ∨ ∀ (id : CellId) (cell : Cell), t.cellOps[op]? = some id →
      t.cells[id]? = some cell → cell.releasing = some op → cell.handoff = true →
        cell.requests.isEmpty = false → cell.phase.isQueued = false) :
    ReleasesOnce r t.toCore op := by
  intro id cell index found releasing handoff callers
  rcases releases with requeues | once
  · exact .inr requeues
  · exact .inl (once id cell index found releasing handoff callers)

/-! ## Events -/

theorem expireOperation_steps (drops : r.drops) (op : OpId) {nowMs : ℕ} (sound : t.core.CacheSound)
    (past : nowMs ≤ t.nowMs) (once : ReleasesOnce r t.toCore op) :
    Steps H r t (t.expireOperation op nowMs) := by
  unfold expireOperation
  split
  · refine durableReached_steps (fun _ gate covers => ?_) (by rintro ⟨⟩)
    cases covers
  · exact onCore_steps (expireCellOperation_turn drops op sound past once)

/-- The timers of cells and operations. -/
theorem timerFired_steps (timer : Timer) {nowMs : ℕ} (nowMonoMs : ℕ) (sound : t.core.CacheSound)
    (past : nowMs ≤ t.nowMs) (ordinary : timer.leases ≠ true)
    (allows : t.toState.Allows r (.timerFired timer nowMs nowMonoMs)) :
    Steps H r t (t.timerFired timer nowMs nowMonoMs) := by
  have drops := allows.drops
  cases timer with
  | cellAlarm => exact onCore_steps (cellAlarmTimer_turn drops _ _ _ _)
  | operationDeadline op =>
    exact expireOperation_steps drops op sound past (releasesOnce_of_allows allows.releases)
  | queuedActivation =>
    exact onCore_steps (((expireQueued_turn drops _).trans
      pumpActivations_turn).trans (pumpCapacity_turn drops))
  | ownerLogRecoveryRetry => exact onCore_steps (retryOwnerLogRecovery_turn drops _)
  | nodeLeaseRenew | nodeLeaseFence => exact absurd rfl ordinary

theorem localCellsRead_distinct {result : Except Failure (List LocalCell)}
    (resumes : r.replaces ∨ t.toState.ResumesOnce (.localCellsRead result)) :
    r.replaces ∨ t.confirming = true ∨ ∀ cells, result = .ok cells → t.resuming = true →
      t.cells.isEmpty = true → LivesOnce cells := by
  refine resumes.imp_right fun once => ?_
  cases confirming : t.confirming with
  | true => exact .inl rfl
  | false =>
    refine .inr ?_
    rintro cells rfl resuming empty
    exact once confirming resuming empty

end Turn

/-- What handling an event grants. -/
def Event.grants {χ : Type} (s : State χ) : Event χ → Grants
  | .ownerRead op nowMs result => (Grants.ownerRead s.node op nowMs result).when (s.Awaits op)
  | .nodeLeaseRead op _ result => (Grants.nodeLeaseRead op result).when (s.Awaits op)
  | .nodeLogRecovered op result => (Grants.nodeLogRecovered op result).when (s.Awaits op)
  | .ownerCasCompleted op result => (Grants.ownerCasCompleted op result).when (s.Awaits op)
  | .localCellsRead result =>
      { Grants.none with
        resume id spec := ∃ cells, result = .ok cells ∧ ∃ found ∈ cells,
          id = found.id ∧ spec = CoreTurn.resumeSpec found.epoch }
  | .durableReached op result source =>
      { Grants.none with
        proven id epoch position := source = .fleet ∧ ∃ gate, s.barriers[op]? = some gate ∧
          gate.covered result = true ∧ id = gate.cell ∧ epoch = gate.epoch ∧
          position = gate.position }
  | .ownershipVerified op result =>
      { Grants.none with
        proven id epoch position := result = .ok () ∧ ∃ gate, s.barriers[op]? = some gate ∧
          id = gate.cell ∧ epoch = gate.epoch ∧ position = gate.position }
  | _ => Grants.none

/-- An output event: what it holds, and the positions it carries. -/
def Event.output? {χ : Type} : Event χ → Option (Held χ × Option ℕ × Option ℕ)
  | .output id channel position observed _
  | .outputAt id channel position observed _ _ => some (⟨id, channel⟩, position, observed)
  | _ => none

/-- The event settles barrier `op` with a positive verdict: a fleet proof that
covers it, or a verified ownership read. -/
def Event.Proves {χ : Type} (event : Event χ) (op : OpId) (gate : Barrier χ) : Prop :=
  (∃ result, event = .durableReached op result .fleet ∧ gate.covered result = true) ∨
    event = .ownershipVerified op (.ok ())

/-- The residency of a read-only output already has a proof of what it observed. -/
def State.ReadProven {χ : Type} (s : State χ) (held : Held χ) (observed : Option ℕ) : Prop :=
  ∀ at_, observed = some at_ → ∃ cell epoch,
    s.residentCell held.request = some (cell, epoch) ∧ s.provenCovers cell epoch at_ = true

/-- What handling an event grants at the gate. -/
def Event.gateGrants {χ : Type} (s : State χ) (event : Event χ) : GateGrants χ :=
  { event.grants s with
    opens held cell epoch at_ := ∃ position observed,
      event.output? = some (held, position, observed) ∧
      s.residentCell held.request = some (cell, epoch) ∧
      (position = some at_ ∨ position = none ∧ observed = some at_)
    follows held barrier := ∃ observed, event.output? = some (held, none, observed) ∧
      (s.ReadProven held observed ∨ ∃ at_ cell epoch, observed = some at_ ∧
        s.residentCell held.request = some (cell, epoch) ∧ barrier.isOn cell epoch = true ∧
        at_ ≤ barrier.position)
    releases held :=
      (∃ observed, event.output? = some (held, none, observed) ∧ s.ReadProven held observed) ∨
      ∃ op gate, s.barriers[op]? = some gate ∧ event.Proves op gate ∧ gate.Withholds held
    verifies op gate := ∃ result, event = .durableReached op result .bucket ∧
      gate.covered result = true
    authorizes _ := event.leases = true }

namespace Turn

variable {χ : Type} {H : GateGrants χ} {r : Rules} {t : Turn χ}

/-- An output event grants what its handler does. -/
theorem outputGrants {event : Event χ} {held : Held χ} {position observed : Option ℕ}
    (output : event.output? = some (held, position, observed)) :
    OutputGrants (event.gateGrants t.toState) t held position observed where
  writes at_ eq cell epoch resident := ⟨position, observed, output, resident, .inl eq⟩
  reads at_ none eq cell epoch resident :=
    ⟨position, observed, output, resident, .inr ⟨none, eq⟩⟩
  waits at_ cell epoch none eq resident barrier on covers := by
    subst none
    exact ⟨observed, output, .inr ⟨at_, cell, epoch, eq, resident, on, covers⟩⟩
  covered at_ cell epoch none eq resident covers := by
    subst none
    have proven : t.toState.ReadProven held observed := by
      intro _ same
      rw [eq] at same
      rw [← Option.some.inj same]
      exact ⟨cell, epoch, resident, covers⟩
    exact ⟨fun _ => ⟨observed, output, .inl proven⟩, .inl ⟨observed, output, proven⟩⟩
  trails none unobserved := by
    subst none
    have proven : t.toState.ReadProven held observed := by
      intro at_ same
      rw [unobserved] at same
      cases same
    exact ⟨fun _ => ⟨observed, output, .inl proven⟩, .inl ⟨observed, output, proven⟩⟩

/-- **Every handler is a chain of moves** that the event grants, and of shifts that the rules
allow. -/
theorem handle_leads (event : Event χ) (sound : t.core.CacheSound)
    (past : ∀ nowMs, event.nowMs? = some nowMs → nowMs ≤ t.nowMs)
    (allows : t.toState.Allows r event) :
    Leads (event.gateGrants t.toState) r t (t.handle event) := by
  by_cases leases : event.leases = true
  · exact (handle_lease t leases).leads (fun _ => leases) (calms_of_allows allows leases)
  have drops := allows.drops
  -- All but the answers to the node lease keep to the books whatever they ask for.
  have cells : ∀ {f : CoreTurn → CoreTurn}, Turns (event.grants t.toState) r
      { t.toCore with effects := [] } (f { t.toCore with effects := [] }) →
        Leads (event.gateGrants t.toState) r t (t.onCore f) :=
    fun turns => (onCore_steps turns).leads
  cases event with
  | startNodeLease | nudgeNodeLease | selfNodeLeaseRead | nodeLeaseCasCompleted | nodeFenced =>
    exact absurd rfl leases
  | nodeLogRecovered =>
      exact cells (nodeLogRecovered_turn (t := { t.toCore with effects := [] }) drops _ _)
  | localCellsRead result =>
    refine cells (localCellsRead_turn drops result ?_
      (localCellsRead_distinct allows.resumes))
    intro cells eq found mem
    exact ⟨cells, eq, found, mem, rfl, rfl⟩
  | timerFired timer nowMs nowMonoMs =>
    exact (timerFired_steps timer nowMonoMs sound (past _ rfl) leases allows).leads
  | request | requestAt | capacityRequestAt | handoffRequestAt =>
    exact cells (request_turn drops _ _ _ _)
  | webSocketRequestAt => exact cells (websocketRequest_turn drops _ _ _)
  | gateRequestAt => exact cells (gateRequest_turn drops _ _)
  | workerRequest => exact cells (workerRequest_turn _)
  | beginPreserve =>
    exact cells (beginPreserve_turn drops (allows.marks.imp_right State.Unmarked.calm))
  | cancel request =>
    exact (cancel_steps drops request fun cell abandons =>
      allows.marks.imp_right fun keeps => keeps cell abandons).leads
  | activityFinished => exact (activityFinished_steps _).leads
  | output => exact (output_steps (outputGrants rfl)).leads
  | outputAt => exact (output_steps (outputGrants rfl)).leads
  | durableReached op result =>
    refine (durableReached_steps ?_ ?_).leads
    · rintro rfl gate covers
      exact ⟨result, rfl, covers⟩
    · rintro rfl gate mem covers
      have proves : Event.Proves (.durableReached op result .fleet) op gate :=
        .inl ⟨result, rfl, covers⟩
      exact ⟨⟨rfl, gate, mem, covers, rfl, rfl, rfl⟩,
        fun held withholds => .inr ⟨op, gate, mem, proves, withholds⟩⟩
  | exportTicket => exact (exportTicket_steps _ _ _ _).leads
  | ownershipVerified op =>
    refine (ownershipVerified_steps fun ok gate mem => ?_).leads
    subst ok
    exact ⟨⟨rfl, gate, mem, rfl, rfl, rfl⟩,
      fun held withholds => .inr ⟨op, gate, mem, .inr rfl, withholds⟩⟩
  | webSocketOpened => exact cells (websocketOpened_turn _ _)
  | webSocketClosed => exact cells (websocketClosed_turn _)
  | alarmObserved => exact cells (alarmObserved_turn _ _ _ _ _)
  | alarmFinished => exact (alarmFinished_steps _ _ _ _ _ _).leads
  | wakeHint | wakeHintAt => exact cells (wakeHint_turn drops _ _)
  | ownerRead op nowMs result =>
    exact cells (ownerRead_turn (t := { t.toCore with effects := [] }) drops op nowMs result
      sound (past _ rfl))
  | nodeLeaseRead =>
      exact cells (nodeLeaseRead_turn (t := { t.toCore with effects := [] }) drops _ _ _)
  | capacityPeersRead => exact cells (capacityPeersRead_turn drops _ _ _)
  | ownerCasCompleted =>
      exact cells (ownerCasCompleted_turn (t := { t.toCore with effects := [] }) drops _ _)
  | ownerReleased op result =>
    exact cells (ownerReleased_turn drops op result
      (releasesOnce_of_allows allows.releases))
  | successorAdopted => exact cells (successorAdopted_turn drops _ _)
  | restoreCompleted => exact cells (restoreCompleted_turn drops _ _)
  | runtimeStarted => exact cells (runtimeStarted_turn drops _ _ _ _)
  | generationChanged => exact cells (generationChanged_turn _ _ _)
  | published => exact cells (published_turn drops _ _)
  | durabilityChecked => exact cells (durabilityChecked_turn _ _)
  | runtimeStopped => exact cells (runtimeStopped_turn drops _)
  | runtimeStopFailed | runtimeStopCancelled => exact cells (runtimeStopFailed_turn _ _)
  | evict => exact cells (beginEviction_turn _ _)
  | evictRequested => exact cells (evictRequested_turn _ _ _)
  | loadSampled => exact cells (loadSampled_turn drops _ _)
  | invalidateRemote => exact cells (invalidateRemote_turn drops _ _)
  | releaseAll => exact releaseAll_steps.leads
  | rebalance => exact cells (rebalance_turn _ _)

theorem handle_moves (event : Event χ) (sound : t.core.CacheSound)
    (past : ∀ nowMs, event.nowMs? = some nowMs → nowMs ≤ t.nowMs) :
    GateMoves (event.gateGrants t.toState) t.gate (t.handle event).gate :=
  (handle_leads event sound past (t.allows_free event)).1

/-! ## The pumps of an event -/

/-- What follows the handler of an event. -/
def pumps (t : Turn χ) : Turn χ := ((t.onCore (·.pumpActivations)).pumpRelease).pumpSwap

/-- The books once the permits nobody uses are returned. -/
def retained (t : Turn χ) : Ledger :=
  (CoreTurn.retainActivationPermits { t.toCore with effects := [] }).ledger

theorem pumps_steps : Steps H r t t.pumps :=
  ((onCore_steps pumpActivations_turn).trans pumpRelease_steps).trans pumpSwap_steps

/-- Whatever the rules, the pumps keep to them. -/
theorem pumps_retained : Shifts r t.retained t.pumps.ledger := by
  have pumped : Shifts r t.retained (t.onCore (·.pumpActivations)).ledger :=
    (pumpActivationsLoop_turn (G := .none) _ _).2
  have released : Steps .none r (t.onCore (·.pumpActivations)) t.pumps :=
    pumpRelease_steps.trans pumpSwap_steps
  exact pumped.trans released.2

theorem armOperationDeadlines_steps : Steps H r t t.armOperationDeadlines := by
  unfold armOperationDeadlines
  split
  · exact .refl
  · refine pushClerical_steps _ (fun effect mem => ?_) t
    obtain ⟨_, _, rfl⟩ := List.mem_map.mp mem
    rfl

/-- What follows the handler of an event asks for no grant. -/
theorem closing_moves (t : Turn χ) : GateMoves H t.gate t.pumps.armOperationDeadlines.gate :=
  (pumps_steps (r := .free)).1.trans (armOperationDeadlines_steps (r := .free)).1

theorem mem_core_effects {effect : CellEffect} :
    effect ∈ t.core.effects ↔ .cell effect ∈ t.effects := by
  simp only [core, List.mem_filterMap]
  constructor
  · rintro ⟨raised, mem, concerns⟩
    cases raised <;> cases concerns
    exact mem
  · exact fun mem => ⟨_, mem, rfl⟩

end Turn

theorem Moves.mem_effects {G : Grants} {v w : View} {effect : CellEffect} (moves : Moves G v w)
    (mem : effect ∈ v.effects) : effect ∈ w.effects := by
  refine moves.invariant (P := fun v => effect ∈ v.effects) ?_ mem
  intro _ w move mem
  cases move <;> first | exact mem | exact List.mem_append_left _ mem

variable {χ : Type} {r : Rules} {s : State χ}

/-- What gate moves see of a state, after the effects that were raised with it. -/
def State.gate (s : State χ) (effects : List (Effect χ)) : GateView χ :=
  Turn.gate { s with effects := effects }

/-- What moves see of a state. -/
def State.view (s : State χ) (effects : List (Effect χ)) : View := (s.gate effects).core

/-- Every lease of the cache may be trusted to name its owner and its published
deadline. -/
def View.CacheSound (v : View) : Prop :=
  ∀ (owner : NodeId) (lease : CachedNodeLease), v.cache owner = some lease → lease.Sound owner

theorem Move.cacheSound {G : Grants} {v w : View} (move : Move G v w) (sound : v.CacheSound) :
    w.CacheSound := by
  cases move with
  | cacheLease owner lease fits =>
    intro key found eq
    by_cases same : key = owner
    · subst same
      simp only [Function.update_self] at eq
      rw [← Option.some.inj eq]
      exact fits
    · simp only [Function.update_of_ne same] at eq
      exact sound key found eq
  | uncacheLease owner =>
    intro key found eq
    by_cases same : key = owner
    · subst same
      simp only [Function.update_self] at eq
      cases eq
    · simp only [Function.update_of_ne same] at eq
      exact sound key found eq
  | _ => exact sound

/-- What an event tells the core before it is handled. -/
theorem foldClocks_past (event : Event χ) (nowMs : ℕ) (told : event.nowMs? = some nowMs) :
    nowMs ≤ (s.foldClocks event).nowMs := by
  rw [State.foldClocks, told]
  exact Nat.le_max_right _ _

/-- **An event is a chain of gate moves** from the state with its clocks folded. -/
theorem onEvent_gateMoves (event : Event χ) (sound : (s.view []).CacheSound) :
    GateMoves (event.gateGrants s) ((s.foldClocks event).gate [])
      ((onEvent s event).1.gate (onEvent s event).2) := by
  have handled : GateMoves (event.gateGrants s) ((s.foldClocks event).gate [])
      (Turn.handle { s.foldClocks event with effects := [] } event).gate :=
    Turn.handle_moves (t := { s.foldClocks event with effects := [] }) event sound
      (foldClocks_past event)
  exact handled.trans (Turn.closing_moves _)

/-- **An event is a chain of moves** of the core. -/
theorem onEvent_moves (event : Event χ) (sound : (s.view []).CacheSound) :
    Moves (event.grants s) ((s.foldClocks event).view [])
      ((onEvent s event).1.view (onEvent s event).2) :=
  (onEvent_gateMoves event sound).toCore

/-- The cache is sound in every state of every run. -/
theorem run_cacheSound (node : NodeId) (config : Config) (events : List (Event χ)) :
    ((run node config events).view []).CacheSound := by
  refine run_induction (P := fun s : State χ => (s.view []).CacheSound) ?_ ?_ events
  · intro _ _ found
    simp [State.view, State.gate, Turn.gate, Turn.core, CoreTurn.view, State.new] at found
  · intro s event sound
    have kept : ((onEvent s event).1.view (onEvent s event).2).CacheSound :=
      (onEvent_moves event sound).invariant (fun _ _ move => move.cacheSound) sound
    exact kept

/-- What the handler tells a cell is not taken back by the pumps. -/
theorem mem_onEvent_of_handle {event : Event χ} {effect : CellEffect}
    (told : .cell effect ∈ (Turn.handle { s.foldClocks event with effects := [] } event).effects) :
    .cell effect ∈ (onEvent s event).2 := by
  have closed := (Turn.closing_moves (H := .none)
    (Turn.handle { s.foldClocks event with effects := [] } event)).toCore
  exact Turn.mem_core_effects.mp (closed.mem_effects (Turn.mem_core_effects.mpr told))

theorem onEvent_toLedger (s : State χ) (event : Event χ) :
    (onEvent s event).1.ledger
      = (Turn.handle { s.foldClocks event with effects := [] } event).pumps.ledger := by
  change (Turn.armOperationDeadlines _).ledger = _
  unfold Turn.armOperationDeadlines
  split <;> rfl

/-- **An event is a chain of shifts.** -/
theorem onEvent_ledger {event : Event χ} (sound : (s.view []).CacheSound)
    (allows : s.Allows r event)
    (told : .cell .readLocalCells ∈ (onEvent s event).2 → r.awaits) :
    Shifts r s.ledger (onEvent s event).1.ledger := by
  rw [onEvent_toLedger]
  have handled := Turn.handle_leads (t := { s.foldClocks event with effects := [] }) event sound
    (foldClocks_past event) ⟨allows.drops, allows.resumes, allows.releases, allows.marks⟩
  exact (handled.2 fun raised => told (mem_onEvent_of_handle raised)).trans
    (Turn.pumps_steps (H := .none)).2

end Celld
