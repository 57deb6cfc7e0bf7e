import Celld.Gate.Custody

/-!
# An event settles what it brings

An output event and an export ticket bring one debt each.  After the event it is answered or
stored in a barrier: `onEvent_docket`.
-/

namespace Celld

variable {χ : Type}

/-- What an event brings that waits for an answer. -/
def Event.owed : Event χ → List (Owed χ)
  | .output id channel _ _ _ | .outputAt id channel _ _ _ _ => [.output ⟨id, channel⟩]
  | .exportTicket cell epoch position ticket => [.ticket cell epoch position ticket]
  | _ => []

/-- The handler of an event finds what it needs: an export barrier has no followers, and the event
is evidence for the tickets it settles. -/
structure Event.Custody (V : Evidence) (t : Turn χ) (event : Event χ) : Prop where
  alone : ∀ (op : OpId) (gate : Barrier χ), t.barriers[op]? = some gate → gate.Alone
  reached : ∀ op result source, event = .durableReached op result source →
    t.ProofCustody V op result source
  verified : ∀ op, event = .ownershipVerified op (.ok ()) → ∀ gate, t.barriers[op]? = some gate →
    ∀ one ∈ gate.owes, one.Earns V (.ok ())

namespace Turn

variable {V : Evidence} {t : Turn χ} {p : Multiset (Owed χ)}

/-! ## The pumps -/

/-- A drain fails the outputs it cancels, and reopens the tickets that rode with them. -/
theorem drainResident_docket (t : Turn χ) (id : CellId) :
    DocketMoves V (t.docket p) ((t.drainResident id).docket p) := by
  unfold drainResident
  split
  · exact .refl _
  rename_i cell _
  dsimp only
  have reserved : DocketMoves V (t.docket p) ((t.onCore fun t =>
      { t.putCell id { cell with quiescing := true } with
        quiescingCells := t.quiescingCells.insert id }).docket p) := onCore_docket le_rfl
  refine (reserved.trans (cancelCellOutputs_docket id)).trans ?_
  exact onCore_docket_of_turns (G := .none)
    ((CoreTurn.table_push rfl).trans (CoreTurn.beginEviction_turn id true))

theorem evictQuiescing_docket : DocketMoves V (t.docket p) (t.evictQuiescing.docket p) :=
  onCore_docket_of_turns (G := .none)
    (.foldl _ (fun _ id => CoreTurn.beginEviction_turn id true) _ _)

theorem releaseQueues_docket (room : ℕ) :
    DocketMoves V (t.docket p) ((t.releaseQueues room).1.docket p) :=
  onCore_docket (releaseQueues_steps (H := .none) (r := .free) room).1.nextOp_le

theorem drainResidents_docket (room : ℕ) :
    DocketMoves V (t.docket p) ((t.drainResidents room).1.docket p) :=
  foldl_docket drainResident_docket _ t

theorem releaseDormants_docket (room : ℕ) :
    DocketMoves V (t.docket p) ((t.releaseDormants room).docket p) :=
  onCore_docket (releaseDormants_steps (H := .none) (r := .free) room).1.nextOp_le

/-- The release pump loses nothing that is owed. -/
theorem pumpRelease_docket : DocketMoves V (t.docket p) (t.pumpRelease.docket p) := by
  unfold pumpRelease
  split
  · exact .refl _
  · exact ((evictQuiescing_docket.trans (releaseQueues_docket _)).trans
      (drainResidents_docket _)).trans (releaseDormants_docket _)

theorem releaseAll_docket : DocketMoves V (t.docket p) (t.releaseAll.docket p) :=
  (onCore_docket le_rfl).trans pumpRelease_docket

/-- The swap pump reads the barriers and moves none. -/
theorem pumpSwap_docket : DocketMoves V (t.docket p) (t.pumpSwap.docket p) :=
  onCore_docket (pumpSwap_steps (H := .none) (r := .free)).1.nextOp_le

/-! ## The node lease -/

/-- An effect of the lease answers no one. -/
theorem Effect.idle_of_clerical {effect : Effect χ} (clerical : effect.clerical = true) :
    effect.idle = true := by
  cases effect <;> first | rfl | cases clerical

/-- A handler of the lease that fences nothing leaves the docket alone. -/
theorem Amends.docket {u : Turn χ} (amends : t.Amends u) :
    DocketMoves V (t.docket p) (u.docket p) := by
  obtain ⟨effects, told, clerical⟩ := amends.told
  have later : t.nextOp ≤ u.nextOp := by
    rcases amends.ops with same | one
    · exact same.ge
    · exact one ▸ Nat.le_succ _
  have same : u.barriers = t.barriers := by rw [amends.rest]
  exact quiet_docket same later effects told fun effect mem =>
    Effect.idle_of_clerical (clerical effect mem)

/-- A handler of the lease leaves what is owed, or fences and answers it. -/
theorem LeaseTurn.docket {u : Turn χ} {event : Event χ} (turn : LeaseTurn event t u) :
    DocketMoves V (t.docket p) (u.docket p) := by
  cases turn with
  | fence reason lost eq =>
    rw [eq]
    exact fenceNode_docket reason
  | amend amends => exact amends.docket

/-! ## Events -/

/-- A deadline of a barrier fails it; any other concerns the core. -/
theorem expireOperation_docket (op : OpId) (nowMs : ℕ)
    (alone : ∀ (op : OpId) (gate : Barrier χ), t.barriers[op]? = some gate → gate.Alone)
    (later : t.nextOp ≤ (t.expireOperation op nowMs).nextOp) :
    DocketMoves V (t.docket p) ((t.expireOperation op nowMs).docket p) := by
  unfold expireOperation at later ⊢
  split
  · refine durableReached_docket alone ⟨fun _ gate _ covers => ?_, fun fleet => ?_⟩
    · cases covers
    · cases fleet
  · rename_i absent
    rw [if_neg absent] at later
    exact onCore_docket later

/-- The timers that are not the lease's. -/
theorem timerFired_docket (timer : Timer) (nowMs nowMonoMs : ℕ) (ordinary : timer.leases ≠ true)
    (alone : ∀ (op : OpId) (gate : Barrier χ), t.barriers[op]? = some gate → gate.Alone)
    (later : t.nextOp ≤ (t.timerFired timer nowMs nowMonoMs).nextOp) :
    DocketMoves V (t.docket p) ((t.timerFired timer nowMs nowMonoMs).docket p) := by
  cases timer with
  | cellAlarm | queuedActivation | ownerLogRecoveryRetry => exact onCore_docket later
  | operationDeadline op => exact expireOperation_docket op nowMs alone later
  | nodeLeaseRenew | nodeLeaseFence => exact absurd rfl ordinary

/-- **Every handler is a chain of docket moves.** -/
theorem handle_docket (event : Event χ) (custody : event.Custody V t)
    (later : t.nextOp ≤ (t.handle event).nextOp) :
    DocketMoves V (t.docket event.owed) ((t.handle event).docket 0) := by
  by_cases leases : event.leases = true
  · have none : event.owed = [] := by
      cases event <;> first | rfl | cases leases
    rw [none]
    exact (handle_lease t leases).docket
  cases event with
  | startNodeLease | nudgeNodeLease | selfNodeLeaseRead | nodeLeaseCasCompleted | nodeFenced =>
    exact absurd rfl leases
  | timerFired timer => exact timerFired_docket timer _ _ leases custody.alone later
  | cancel => exact cancel_docket _
  | activityFinished => exact activityFinished_docket _
  | output request channel position observed epoch =>
    exact output_docket (p := 0) request channel position observed epoch
  | outputAt request channel position observed epoch =>
    exact output_docket (p := 0) request channel position observed epoch
  | durableReached op result source =>
    exact durableReached_docket custody.alone (custody.reached op result source rfl)
  | ownershipVerified op =>
    refine ownershipVerified_docket (custody.alone op) ?_
    rintro rfl
    exact custody.verified op rfl
  | exportTicket cell epoch position ticket =>
    exact exportTicket_docket (p := 0) cell epoch position ticket
  | alarmFinished => exact alarmFinished_docket _ _ _ _ _ _
  | releaseAll => exact releaseAll_docket
  | _ => exact onCore_docket later

/-- The deadlines are armed after all is answered. -/
theorem armOperationDeadlines_docket :
    DocketMoves V (t.docket p) (t.armOperationDeadlines.docket p) := by
  unfold armOperationDeadlines
  split
  · exact .refl _
  · refine pushAll_docket _ fun effect mem => ?_
    obtain ⟨_, _, rfl⟩ := List.mem_map.mp mem
    rfl

end Turn

/-- The docket of a state, between events. -/
def State.docket (s : State χ) (pending : Multiset (Owed χ)) : Docket χ :=
  Turn.docket { s with effects := [] } pending

/-- **An event settles what it brings.** -/
theorem onEvent_docket {s : State χ} {V : Evidence} (event : Event χ)
    (custody : event.Custody V { s with effects := [] }) (sound : (s.view []).CacheSound) :
    DocketMoves V (s.docket event.owed)
      (Turn.docket { (onEvent s event).1 with effects := (onEvent s event).2 } 0) := by
  let start : Turn χ := { s.foldClocks event with effects := [] }
  have reached : ∀ op result source, event = .durableReached op result source →
      start.ProofCustody V op result source := fun op result source same =>
    ⟨(custody.reached op result source same).landed, (custody.reached op result source same).proves⟩
  have handled : DocketMoves V (start.docket event.owed) ((start.handle event).docket 0) :=
    Turn.handle_docket event ⟨custody.alone, reached, custody.verified⟩
      (Turn.handle_moves (t := start) event sound (foldClocks_past event)).nextOp_le
  have pumped : DocketMoves V ((start.handle event).docket 0) ((s.turn event).docket 0) :=
    ((Turn.onCore_docket_of_turns (CoreTurn.pumpActivations_turn (G := .none))).trans
      Turn.pumpRelease_docket).trans Turn.pumpSwap_docket
  exact (handled.trans pumped).trans Turn.armOperationDeadlines_docket

end Celld
