import Celld.Moves.Gate

/-!
# The handlers of the node lease

Every readback arm, every completion of a write and every timer is gone through here once.  A
handler fences the node, and then the event makes it lose its lease (`NodeAuthority.isLost`); or
it writes down a new authority and asks for timers, reads and writes (`Turn.Amends`), and then
`AuthorityStep` says what the authority became and which conditions the handler checked.
-/

namespace Celld

open NodeAuthority

variable {χ : Type}

/-- The timers of the node lease. -/
def Timer.leases : Timer → Bool
  | .nodeLeaseRenew _ | .nodeLeaseFence _ => true
  | _ => false

/-- The events that act on the node lease. -/
def Event.leases {χ : Type} : Event χ → Bool
  | .startNodeLease .. | .nudgeNodeLease .. | .selfNodeLeaseRead .. | .nodeLeaseCasCompleted ..
  | .nodeFenced => true
  | .timerFired timer _ _ => timer.leases
  | _ => false

namespace Event

/-- The wall and monotonic instants of an event that carries both. -/
def clocks? : Event χ → Option (ℕ × ℕ)
  | .startNodeLease nowMs nowMonoMs _ | .selfNodeLeaseRead _ nowMs nowMonoMs _
  | .timerFired _ nowMs nowMonoMs | .handoffRequestAt _ _ nowMs nowMonoMs
  | .webSocketRequestAt _ _ _ nowMs nowMonoMs | .alarmObserved _ _ _ nowMs nowMonoMs
  | .alarmFinished _ _ _ nowMs nowMonoMs _ | .nudgeNodeLease nowMs nowMonoMs =>
      some (nowMs, nowMonoMs)
  | _ => none

/-- The events that can begin a first acquisition. -/
def starts : Event χ → Bool
  | .startNodeLease .. | .timerFired (.nodeLeaseRenew _) _ _ => true
  | _ => false

end Event

/-- The write or readback in flight. -/
def NodeAuthority.pending? : NodeAuthority → Option PendingNodeLease
  | .reading _ pending | .writing _ pending => some pending
  | _ => none

/-- The held lease a completed write installs. -/
def PendingNodeLease.installed (pending : PendingNodeLease) (record : NodeLeaseRecord)
    (generation : ℕ) : HeldNodeLease where
  spec := pending.spec
  record := record
  lastOkMonoMs := pending.anchorMonoMs
  lastAttemptMonoMs := pending.anchorMonoMs
  timerGeneration := generation

/-- A readback adopts a record that is neither the attempt's nor the prior lease's. -/
structure Adopts (event : Event χ) (a : NodeAuthority) (prior : HeldNodeLease)
    (record : NodeLeaseRecord) (nowMs nowMonoMs : ℕ) : Prop where
  read : ∃ op pending, event = .selfNodeLeaseRead op nowMs nowMonoMs (.ok (some record)) ∧
    a = .reading op pending ∧ pending.prior = some prior ∧
    sameNodeLease record pending.desired = false ∧
    sameNodeLease record prior.record = false ∧ isOwnZombie pending prior record = true

/-- **What one event makes of the node's authority**, at a node and a clock that
has already taken the event's instant in. -/
inductive AuthorityStep (node : NodeId) (clock : ℕ) (a : NodeAuthority) (event : Event χ) :
    NodeAuthority → Prop
  | keep : AuthorityStep node clock a event a
  | fence : AuthorityStep node clock a event .fenced
  /-- A first acquisition reads our record; it counts from the clock. -/
  | acquire (op : OpId) (spec : NodeLeaseSpec) (nowMs nowMonoMs : ℕ) (idle : a.lease? = none)
      (unfenced : a ≠ .fenced) (begins : event.starts = true)
      (told : event.clocks? = some (nowMs, nowMonoMs)) :
      AuthorityStep node clock a event
        (.reading op
          { spec := spec
            desired := desiredRecord node spec nowMs none
            prior := none
            readbackOnly := false
            anchorMonoMs := clock
            resumeLocal := false })
  /-- A first acquisition failed. -/
  | retry (pending : PendingNodeLease) (spec : NodeLeaseSpec) (generation : ℕ)
      (attempt : a.pending? = some pending) (first : pending.prior = none) :
      AuthorityStep node clock a event (.retrying spec generation)
  /-- A write landed, in time and while the lease it renews was still fresh. -/
  | hold (pending : PendingNodeLease) (record : NodeLeaseRecord) (generation nowMonoMs : ℕ)
      (attempt : a.pending? = some pending) (told : event.nowMonoMs? = some nowMonoMs)
      (inTime : Turn.attemptExpired pending nowMonoMs = false)
      (continuous : ∀ prior, pending.prior = some prior → prior.fresh nowMonoMs = true)
      (published : record.expiresMs = pending.desired.expiresMs) :
      AuthorityStep node clock a event (.held (pending.installed record generation))
  /-- An attempt failed, or the record is still the one it would have replaced. -/
  | resume (pending : PendingNodeLease) (prior : HeldNodeLease) (etag : String)
      (attempt : a.pending? = some pending) (renews : pending.prior = some prior) :
      AuthorityStep node clock a event
        (.held { prior with record := { prior.record with etag := etag } })
  /-- A late renewal of ours is adopted. -/
  | adopt (prior : HeldNodeLease) (record : NodeLeaseRecord) (nowMs nowMonoMs anchor : ℕ)
      (adopts : Adopts event a prior record nowMs nowMonoMs)
      (bounded : Turn.adoptedAnchor prior record nowMs nowMonoMs = some anchor) :
      AuthorityStep node clock a event
        (.held { prior with lastOkMonoMs := anchor, record := record })
  /-- A first acquisition writes. -/
  | write (op : OpId) (pending : PendingNodeLease) (resumeLocal : Bool)
      (attempt : a.pending? = some pending) :
      AuthorityStep node clock a event (.writing op { pending with resumeLocal := resumeLocal })
  /-- A held lease that has not expired is renewed; the attempt counts from the
  event's own instant. -/
  | renew (op : OpId) (held : HeldNodeLease) (nowMs nowMonoMs : ℕ) (holds : a = .held held)
      (told : event.clocks? = some (nowMs, nowMonoMs)) (fresh : held.fresh nowMonoMs = true) :
      AuthorityStep node clock a event
        (.writing op
          { spec := held.spec
            desired := desiredRecord node held.spec nowMs held.record.logState
            prior := some { held with lastAttemptMonoMs := nowMonoMs }
            readbackOnly := false
            anchorMonoMs := nowMonoMs
            resumeLocal := false })
  /-- A write that was refused or whose answer was lost is read back. -/
  | readback (op : OpId) (pending : PendingNodeLease) (readbackOnly : Bool)
      (stamped : Option LogState) (attempt : a.pending? = some pending) :
      AuthorityStep node clock a event
        (.reading op
          { pending with
            readbackOnly := readbackOnly
            desired := { pending.desired with logState := stamped } })

namespace Turn

/-! ## The loss of the node lease -/

/-- A renewal that lands is too late to continue the lease it renews. -/
def lapses (pending : PendingNodeLease) (nowMonoMs : ℕ) : Bool :=
  pending.prior.any fun prior =>
    attemptExpired pending nowMonoMs || prior.spec.ttlMs ≤ nowMonoMs - prior.lastOkMonoMs

/-- The record read back does not continue the lease. -/
def forfeits (pending : PendingNodeLease) (prior : HeldNodeLease) (nowMs nowMonoMs : ℕ) :
    Option NodeLeaseRecord → Bool
  | none => true
  | some record =>
      if sameNodeLease record pending.desired then lapses pending nowMonoMs
      else if sameNodeLease record prior.record then false
      else if isOwnZombie pending prior record then
        (adoptedAnchor prior record nowMs nowMonoMs).isNone
      else true

end Turn

/-- The lease in force is the one of this timer, and it has run out. -/
def NodeAuthority.ranOut (authority : NodeAuthority) (generation nowMs nowMonoMs : ℕ) : Bool :=
  authority.lease?.any fun held =>
    generation = held.timerGeneration && Turn.leaseExpired held nowMs nowMonoMs

/-- The event makes the node lose its lease. -/
def NodeAuthority.isLost {χ : Type} (authority : NodeAuthority) : Event χ → Bool
  | .nodeFenced => true
  | .nudgeNodeLease nowMs nowMonoMs =>
      match authority with
      | .held lease => Turn.leaseExpired lease nowMs nowMonoMs
      | _ => false
  | .timerFired (.nodeLeaseRenew generation) nowMs nowMonoMs
  | .timerFired (.nodeLeaseFence generation) nowMs nowMonoMs =>
      authority.ranOut generation nowMs nowMonoMs
  | .selfNodeLeaseRead op nowMs nowMonoMs (.ok record) =>
      match authority with
      | .reading current pending =>
          current = op && pending.prior.any (Turn.forfeits pending · nowMs nowMonoMs record)
      | _ => false
  | .nodeLeaseCasCompleted op nowMonoMs (.ok (.applied _)) _ =>
      match authority with
      | .writing current pending => current = op && Turn.lapses pending nowMonoMs
      | _ => false
  | _ => false

/-- The effects a handler of the node lease raises. -/
def Effect.clerical : Effect χ → Bool
  | .cell effect => effect.inert
  | .readSelfNodeLease _ | .casNodeLease .. => true
  | _ => false

namespace Turn

variable {t u : Turn χ}

/-- `u` differs from `t` in what a handler of the node lease writes. -/
structure Amends (t u : Turn χ) : Prop where
  rest : u = { t with
    nodeAuthority := u.nodeAuthority
    nudgePending := u.nudgePending
    nextOp := u.nextOp
    nextTimerGeneration := u.nextTimerGeneration
    resuming := u.resuming
    confirming := u.confirming
    effects := u.effects }
  ops : u.nextOp = t.nextOp ∨ u.nextOp = t.nextOp + 1
  told : ∃ effects, u.effects = t.effects ++ effects ∧ ∀ effect ∈ effects, effect.clerical = true
  inventory : u.confirming = t.confirming ∨
    u.confirming = true ∧ .cell .readLocalCells ∈ u.effects

/-- **What a handler of the node lease does.** -/
inductive LeaseTurn (event : Event χ) (t u : Turn χ) : Prop
  | fence (reason : HaltReason) (lost : t.nodeAuthority.isLost event = true)
      (eq : u = t.fenceNode reason)
  | amend (amends : t.Amends u)
      (step : AuthorityStep t.node t.nowMonoMs t.nodeAuthority event u.nodeAuthority)

/-! ## What is written -/

theorem Amends.refl : t.Amends t :=
  ⟨rfl, .inl rfl, ⟨[], by simp⟩, .inl rfl⟩

theorem beginNodeLeaseAcquisition_amends (nowMs : ℕ) (spec : NodeLeaseSpec) :
    t.Amends (t.beginNodeLeaseAcquisition nowMs spec) :=
  ⟨rfl, .inr rfl, ⟨_, rfl, by simp [Effect.clerical]⟩, .inl rfl⟩

theorem failInitialNodeLease_amends (spec : NodeLeaseSpec) :
    t.Amends (t.failInitialNodeLease spec) :=
  ⟨rfl, .inl rfl, ⟨_, rfl, by simp [Effect.clerical, CellEffect.inert]⟩, .inl rfl⟩

theorem holdNodeLease_amends (spec : NodeLeaseSpec) (record : NodeLeaseRecord)
    (anchorMonoMs : ℕ) (resumeLocal confirmLocal : Bool) :
    t.Amends (t.holdNodeLease spec record anchorMonoMs resumeLocal confirmLocal) := by
  unfold holdNodeLease readInventory
  dsimp only
  split_ifs
  · exact ⟨rfl, .inl rfl, ⟨_, (List.append_assoc ..).trans (List.append_assoc ..),
      by simp [Effect.clerical, CellEffect.inert]⟩, .inl rfl⟩
  · exact ⟨rfl, .inl rfl, ⟨_, (List.append_assoc ..).trans (List.append_assoc ..),
      by simp [Effect.clerical, CellEffect.inert]⟩, .inr ⟨rfl, List.mem_concat_self⟩⟩
  · exact ⟨rfl, .inl rfl, ⟨_, List.append_assoc .., by simp [Effect.clerical, CellEffect.inert]⟩,
      .inl rfl⟩

theorem resumeNodeLeaseAfterFailure_amends (prior : HeldNodeLease) (nowMonoMs : ℕ) :
    t.Amends (t.resumeNodeLeaseAfterFailure prior nowMonoMs) :=
  ⟨rfl, .inl rfl, ⟨_, rfl, by simp [Effect.clerical, CellEffect.inert]⟩, .inl rfl⟩

theorem beginNodeLeaseWrite_amends (pending : PendingNodeLease) (guard : CasGuard) :
    t.Amends (t.beginNodeLeaseWrite pending guard) :=
  ⟨rfl, .inr rfl, ⟨_, rfl, by simp [Effect.clerical]⟩, .inl rfl⟩

theorem readback_amends (pending : PendingNodeLease) (readbackOnly : Bool)
    (stamped : Option LogState) : t.Amends (t.readback pending readbackOnly stamped) :=
  ⟨rfl, .inr rfl, ⟨_, rfl, by simp [Effect.clerical]⟩, .inl rfl⟩

/-! ## The handlers -/

variable {event : Event χ} {pending : PendingNodeLease} {nowMs nowMonoMs : ℕ}

theorem holdNodeLease_authority (pending : PendingNodeLease) (record : NodeLeaseRecord)
    (confirmLocal : Bool) :
    (t.holdNodeLease pending.spec record pending.anchorMonoMs pending.resumeLocal
      confirmLocal).nodeAuthority = .held (pending.installed record t.nextTimerGeneration) := by
  unfold holdNodeLease readInventory
  dsimp only
  split_ifs <;> rfl

theorem failInitialNodeLease_lease (attempt : t.nodeAuthority.pending? = some pending)
    (first : pending.prior = none) (spec : NodeLeaseSpec) :
    LeaseTurn event t (t.failInitialNodeLease spec) :=
  .amend (failInitialNodeLease_amends spec) (.retry pending _ _ attempt first)

theorem completeNodeLeaseWrite_lease {record : NodeLeaseRecord}
    (attempt : t.nodeAuthority.pending? = some pending) (told : event.nowMonoMs? = some nowMonoMs)
    (published : record.expiresMs = pending.desired.expiresMs)
    (lost : lapses pending nowMonoMs = true → t.nodeAuthority.isLost event = true) :
    LeaseTurn event t (t.completeNodeLeaseWrite pending record nowMonoMs) := by
  have hold : ∀ confirmLocal, attemptExpired pending nowMonoMs = false →
      (∀ prior, pending.prior = some prior → prior.fresh nowMonoMs = true) →
      LeaseTurn event t (t.holdNodeLease pending.spec record pending.anchorMonoMs
        pending.resumeLocal confirmLocal) := by
    intro confirmLocal inTime continuous
    refine .amend (holdNodeLease_amends _ _ _ _ _) ?_
    rw [holdNodeLease_authority]
    exact .hold pending record _ nowMonoMs attempt told inTime continuous published
  unfold completeNodeLeaseWrite
  split
  · rename_i renews
    split
    · rename_i late
      exact .fence _ (lost (by rw [lapses, renews]; exact late)) rfl
    · rename_i inTime
      simp only [Bool.or_eq_true, decide_eq_true_eq, not_or, not_le, Bool.not_eq_true] at inTime
      refine hold _ inTime.1 fun other same => ?_
      rw [renews] at same
      cases same
      exact decide_eq_true inTime.2
  · rename_i first
    split
    · exact failInitialNodeLease_lease attempt first _
    · rename_i inTime
      refine hold _ (Bool.not_eq_true _ ▸ inTime) fun other same => ?_
      rw [first] at same
      cases same

theorem abandonAttempt_lease (attempt : t.nodeAuthority.pending? = some pending) :
    LeaseTurn event t (t.abandonAttempt pending nowMonoMs) := by
  unfold abandonAttempt
  split
  · exact .amend (resumeNodeLeaseAfterFailure_amends _ _) (.resume pending _ _ attempt ‹_›)
  · exact failInitialNodeLease_lease attempt ‹_› _

theorem readbackRenewal_lease {op : OpId} {prior : HeldNodeLease} {result : Option NodeLeaseRecord}
    (reads : t.nodeAuthority = .reading op pending) (renews : pending.prior = some prior)
    (read : event = .selfNodeLeaseRead op nowMs nowMonoMs (.ok result)) :
    LeaseTurn event t (t.readbackRenewal pending prior nowMs nowMonoMs result) := by
  have attempt : t.nodeAuthority.pending? = some pending := by rw [reads]; rfl
  have told : event.nowMonoMs? = some nowMonoMs := by rw [read]; rfl
  have lost : forfeits pending prior nowMs nowMonoMs result = true →
      t.nodeAuthority.isLost event = true := by
    intro forfeits
    simp [read, reads, isLost, renews, forfeits]
  unfold readbackRenewal
  unfold forfeits at lost
  split
  · exact .fence _ (lost rfl) rfl
  rename_i record
  split
  · rename_i landed
    refine completeNodeLeaseWrite_lease attempt told ?_ fun late => lost (by simp [landed, late])
    simp only [sameNodeLease, Bool.and_eq_true, decide_eq_true_eq] at landed
    exact landed.1.1.1.2
  rename_i other
  split
  · exact .amend (resumeNodeLeaseAfterFailure_amends _ _)
      (.resume pending prior record.etag attempt renews)
  rename_i unchanged
  split
  · rename_i zombie
    unfold adoptZombie
    split
    · rename_i late
      exact .fence _ (lost (by simp [other, unchanged, zombie, late])) rfl
    · refine .amend ⟨rfl, .inl rfl, ⟨_, List.append_assoc ..,
          by simp [Effect.clerical, CellEffect.inert]⟩, .inl rfl⟩
        (.adopt prior record nowMs nowMonoMs _ ⟨op, pending, read, reads,
          renews, ?_, ?_, zombie⟩ ‹_›)
      · exact Bool.not_eq_true _ ▸ other
      · exact Bool.not_eq_true _ ▸ unchanged
  · rename_i foreign
    exact .fence _ (lost (by simp [other, unchanged, foreign])) rfl

theorem readbackInitial_lease {result : Option NodeLeaseRecord}
    (attempt : t.nodeAuthority.pending? = some pending) (first : pending.prior = none)
    (told : event.nowMonoMs? = some nowMonoMs) :
    LeaseTurn event t (t.readbackInitial pending nowMs nowMonoMs result) := by
  have fail : LeaseTurn event t _ := failInitialNodeLease_lease attempt first pending.spec
  unfold readbackInitial
  split
  · split
    · rename_i landed
      refine completeNodeLeaseWrite_lease attempt told ?_ fun late => by
        simp [lapses, first] at late
      simp only [sameNodeLease, Bool.and_eq_true, decide_eq_true_eq] at landed
      exact landed.1.1.1.2
    split
    · exact fail
    split
    · exact fail
    · exact .amend (beginNodeLeaseWrite_amends _ _) (.write _ pending _ attempt)
  · split
    · exact fail
    · exact .amend (beginNodeLeaseWrite_amends _ _) (.write _ pending pending.resumeLocal attempt)

theorem readSelfNodeLease_lease (op : OpId) (nowMs nowMonoMs : ℕ)
    (result : Except Failure (Option NodeLeaseRecord)) :
    LeaseTurn (.selfNodeLeaseRead op nowMs nowMonoMs result) t
      (t.readSelfNodeLease op nowMs nowMonoMs result) := by
  unfold readSelfNodeLease
  split
  · rename_i pending reads
    have attempt : t.nodeAuthority.pending? = some pending := by rw [reads]; rfl
    split
    · exact .amend .refl .keep
    rename_i same
    split
    · exact abandonAttempt_lease attempt
    split
    · rename_i renews
      rw [not_not.mp same] at reads
      exact readbackRenewal_lease reads renews rfl
    · exact readbackInitial_lease attempt ‹_› rfl
  · exact .amend .refl .keep

theorem nodeLeaseCasCompleted_lease (op : OpId) (nowMonoMs : ℕ)
    (result : Except Failure LeaseCasOutcome) (stamped : Option LogState) :
    LeaseTurn (.nodeLeaseCasCompleted op nowMonoMs result stamped) t
      (t.nodeLeaseCasCompleted op nowMonoMs result stamped) := by
  unfold nodeLeaseCasCompleted
  split
  · rename_i pending writes
    have attempt : t.nodeAuthority.pending? = some pending := by rw [writes]; rfl
    split
    · exact .amend .refl .keep
    rename_i same
    split
    · refine completeNodeLeaseWrite_lease attempt rfl rfl fun late => ?_
      simpa [isLost, writes, late] using same
    · exact .amend (readback_amends _ _ _) (.readback _ pending _ stamped attempt)
    · exact .amend (readback_amends _ _ _) (.readback _ pending _ stamped attempt)
    · exact abandonAttempt_lease attempt
  · exact .amend .refl .keep

theorem startNodeLease_lease (nowMs nowMonoMs : ℕ) (spec : NodeLeaseSpec) :
    LeaseTurn (.startNodeLease nowMs nowMonoMs spec) t (t.startNodeLease nowMs spec) := by
  have begin : t.nodeAuthority.lease? = none → t.nodeAuthority ≠ .fenced →
      LeaseTurn (.startNodeLease nowMs nowMonoMs spec) t (t.beginNodeLeaseAcquisition nowMs spec) :=
    fun idle unfenced => .amend (beginNodeLeaseAcquisition_amends _ _)
      (.acquire _ spec nowMs nowMonoMs idle unfenced rfl rfl)
  unfold startNodeLease
  split
  · rename_i idle
    exact begin (by rw [idle]; rfl) (by simp [idle])
  · rename_i idle
    exact begin (by rw [idle]; rfl) (by simp [idle])
  · exact .amend .refl .keep

/-- An expired lease is never renewed. -/
theorem fresh_of_not_leaseExpired {held : HeldNodeLease}
    (live : leaseExpired held nowMs nowMonoMs ≠ true) : held.fresh nowMonoMs = true := by
  simp only [leaseExpired, ne_eq, Bool.or_eq_true, decide_eq_true_eq, not_or, not_le] at live
  exact decide_eq_true live.2

/-- The renewal timer, also as a nudge fires it. -/
theorem renewTimer_lease (generation nowMs nowMonoMs : ℕ)
    (told : event.clocks? = some (nowMs, nowMonoMs))
    (begins : (∃ spec current, t.nodeAuthority = .retrying spec current) → event.starts = true)
    (lost : t.nodeAuthority.ranOut generation nowMs nowMonoMs = true →
      t.nodeAuthority.isLost event = true) :
    LeaseTurn event t (t.renewTimer generation nowMs nowMonoMs) := by
  unfold renewTimer
  split
  · rename_i spec current idle
    split
    · exact .amend (beginNodeLeaseAcquisition_amends _ _) (.acquire _ spec nowMs nowMonoMs
        (by rw [idle]; rfl) (by simp [idle]) (begins ⟨spec, current, idle⟩) told)
    · exact .amend .refl .keep
  · rename_i held holds
    split
    · exact .amend .refl .keep
    rename_i same
    split
    · rename_i expired
      refine .fence _ (lost ?_) rfl
      simpa [ranOut, holds, lease?, expired] using same
    · exact .amend (beginNodeLeaseWrite_amends _ _)
        (.renew _ held nowMs nowMonoMs holds told (fresh_of_not_leaseExpired ‹_›))
  all_goals
    first
    | exact .amend .refl .keep
    | rename_i pending attempt
      split
      · rename_i renewed
        split
        · rename_i expired
          refine .fence _ (lost ?_) rfl
          simpa [ranOut, attempt, lease?, renewed] using expired
        · exact .amend .refl .keep
      · exact .amend .refl .keep

theorem fenceTimer_lease (generation nowMs nowMonoMs : ℕ) :
    LeaseTurn (.timerFired (.nodeLeaseFence generation) nowMs nowMonoMs) t
      (t.fenceTimer generation nowMs nowMonoMs) := by
  unfold fenceTimer
  split
  · rename_i found
    split
    · rename_i expired
      refine .fence _ ?_ rfl
      rw [isLost, ranOut, found]
      exact expired
    · exact .amend .refl .keep
  · exact .amend .refl .keep

theorem nudgeNodeLease_lease (nowMs nowMonoMs : ℕ) :
    LeaseTurn (.nudgeNodeLease nowMs nowMonoMs) t (t.nudgeNodeLease nowMs nowMonoMs) := by
  have noted : LeaseTurn (.nudgeNodeLease nowMs nowMonoMs) t { t with nudgePending := true } :=
    .amend ⟨rfl, .inl rfl, ⟨[], by simp⟩, .inl rfl⟩ .keep
  unfold nudgeNodeLease
  split
  · rename_i holds
    refine renewTimer_lease _ nowMs nowMonoMs rfl ?_ fun expired => ?_
    · rintro ⟨_, _, idle⟩
      rw [holds] at idle
      cases idle
    · rw [holds] at expired ⊢
      simpa [ranOut, lease?, isLost] using expired
  · exact noted
  · exact noted
  · exact .amend .refl .keep

/-- **Every event on the node lease is handled so.** -/
theorem handle_lease (t : Turn χ) (leases : event.leases = true) :
    LeaseTurn event t (t.handle event) := by
  cases event with
  | startNodeLease => exact startNodeLease_lease _ _ _
  | nudgeNodeLease => exact nudgeNodeLease_lease _ _
  | selfNodeLeaseRead => exact readSelfNodeLease_lease _ _ _ _
  | nodeLeaseCasCompleted => exact nodeLeaseCasCompleted_lease _ _ _ _
  | nodeFenced => exact .fence _ rfl rfl
  | timerFired timer nowMs nowMonoMs =>
    cases timer with
    | nodeLeaseRenew =>
      exact renewTimer_lease _ nowMs nowMonoMs rfl (fun _ => rfl) fun ranOut => ranOut
    | nodeLeaseFence => exact fenceTimer_lease _ _ _
    | _ => cases leases
  | _ => cases leases

end Turn

end Celld
