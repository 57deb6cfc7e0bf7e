import Celld.Lease.Authority

/-!
# A lapsed lease

Authority is recomputed at ask time from the lease the process may still be acting
on, so a lease that lapsed could come back if some handler moved its anchor forward.
A completed renewal checks that the lease it renews is still fresh, and fences
otherwise.  The readback that adopts a late renewal checks only the record it adopts.

`Run.Revives` is exactly that step: the prior lease has lapsed in the state before
it, and the adopted one is fresh at the instant of the readback.  Among the runs that
require a lease and whose instants never go back, those without such a step are the
ones in which authority, once lost, stays lost (`neverReturns_iff`).
-/

namespace Celld

open NodeAuthority

variable {χ : Type}

namespace HeldNodeLease

theorem fresh_mono {lease : HeldNodeLease} {earlier later : ℕ} (le : earlier ≤ later)
    (fresh : lease.fresh later = true) : lease.fresh earlier = true := by
  simp only [HeldNodeLease.fresh, decide_eq_true_eq] at fresh ⊢
  omega

theorem lapsed_mono {lease : HeldNodeLease} {earlier later : ℕ} (le : earlier ≤ later)
    (lapsed : lease.fresh earlier = false) : lease.fresh later = false := by
  by_contra fresh
  rw [Bool.not_eq_false] at fresh
  rw [fresh_mono le fresh] at lapsed
  cases lapsed

end HeldNodeLease

namespace NodeAuthority

/-- The process has had a lease: it acts on one or is fenced. -/
def Begun (a : NodeAuthority) : Prop := a = .fenced ∨ ∃ lease, a.lease? = some lease

/-- The lease is lost at an instant. -/
def Lapsed (a : NodeAuthority) (now : ℕ) : Prop :=
  a = .fenced ∨ ∃ lease, a.lease? = some lease ∧ lease.fresh now = false

/-- A lease is held at an instant. -/
def Live (a : NodeAuthority) (now : ℕ) : Prop :=
  ∃ lease, a.lease? = some lease ∧ lease.fresh now = true

theorem Live.not_lapsed {a : NodeAuthority} {now : ℕ} (live : a.Live now) : ¬ a.Lapsed now := by
  obtain ⟨_, acts, fresh⟩ := live
  rintro (rfl | ⟨_, same, lapsed⟩)
  · cases acts
  · rw [acts] at same
    cases same
    rw [fresh] at lapsed
    cases lapsed

theorem Begun.lapsed_of_not_live {a : NodeAuthority} {now : ℕ} (begun : a.Begun)
    (lost : ¬ a.Live now) : a.Lapsed now := by
  rcases begun with fenced | ⟨lease, acts⟩
  · exact .inl fenced
  · refine .inr ⟨lease, acts, ?_⟩
    by_contra fresh
    exact lost ⟨lease, acts, Bool.not_eq_false _ ▸ fresh⟩

/-- An attempt of a process that has had a lease renews that lease. -/
theorem Begun.renews {a : NodeAuthority} {pending : PendingNodeLease} (begun : a.Begun)
    (attempt : a.pending? = some pending) : ∃ lease, pending.prior = some lease := by
  rcases begun with fenced | acts
  · rw [fenced] at attempt
    cases attempt
  · rwa [lease?_of_pending attempt] at acts

end NodeAuthority

/-! ## One event -/

/-- A late renewal brings a lapsed lease back: the lease it is adopted for is not
fresh any more at `before`, and the adopted one is at the readback's own instant. -/
def Event.Revives (event : Event χ) (a : NodeAuthority) (before : ℕ) : Prop :=
  ∃ prior record nowMs nowMonoMs anchor, Adopts event a prior record nowMs nowMonoMs ∧
    Turn.adoptedAnchor prior record nowMs nowMonoMs = some anchor ∧
    prior.fresh before = false ∧ { prior with lastOkMonoMs := anchor }.fresh nowMonoMs = true

namespace AuthorityStep

variable {node : NodeId} {clock before : ℕ} {a b : NodeAuthority} {event : Event χ}

/-- A process that has had a lease goes on acting on it, or is fenced. -/
theorem begun (step : AuthorityStep node clock a event b) (had : a.Begun) : b.Begun := by
  cases step with
  | keep => exact had
  | fence => exact .inl rfl
  | acquire op spec nowMs nowMonoMs idle unfenced =>
    rcases had with fenced | ⟨lease, acts⟩
    · exact absurd fenced unfenced
    · rw [idle] at acts
      cases acts
  | retry pending spec generation attempt first =>
    obtain ⟨lease, renews⟩ := had.renews attempt
    rw [first] at renews
    cases renews
  | hold => exact .inr ⟨_, rfl⟩
  | resume => exact .inr ⟨_, rfl⟩
  | adopt => exact .inr ⟨_, rfl⟩
  | write op pending resumeLocal attempt =>
    have renews := had.renews attempt
    exact .inr renews
  | renew => exact .inr ⟨_, rfl⟩
  | readback op pending readbackOnly stamped attempt =>
    have renews := had.renews attempt
    exact .inr renews

/-- The lease a process comes to act on was live after the step, or is the one it
acted on. -/
theorem live_or_begun (step : AuthorityStep node clock a event b) (acts : b.lease?.isSome)
    (timely : ∀ instant, event.nowMonoMs? = some instant → clock = instant) :
    b.Live clock ∨ a.lease?.isSome := by
  cases step with
  | keep => exact .inr acts
  | fence => cases acts
  | acquire => cases acts
  | retry => cases acts
  | hold pending record generation nowMonoMs attempt told inTime =>
    refine .inl ⟨_, rfl, ?_⟩
    rw [timely nowMonoMs told]
    simp only [Turn.attemptExpired, decide_eq_false_iff_not, not_le] at inTime
    exact decide_eq_true inTime
  | resume pending prior etag attempt renews =>
    rw [lease?_of_pending attempt, renews]
    exact .inr rfl
  | adopt prior record nowMs nowMonoMs anchor adopts =>
    rw [adopts.acts]
    exact .inr rfl
  | write op pending resumeLocal attempt =>
    rw [lease?_of_pending attempt]
    exact .inr acts
  | renew op held nowMs nowMonoMs holds =>
    rw [holds]
    exact .inr rfl
  | readback op pending readbackOnly stamped attempt =>
    rw [lease?_of_pending attempt]
    exact .inr acts

/-- **A lapsed lease stays lapsed** in every step that does not revive it. -/
theorem lapsed (step : AuthorityStep node clock a event b) (lost : a.Lapsed before)
    (forward : before ≤ clock) (later : ∀ instant, event.instant? = some instant → before ≤ instant)
    (timely : ∀ instant, event.nowMonoMs? = some instant → clock = instant)
    (dead : ¬ event.Revives a before) : b.Lapsed clock := by
  -- What the process acts on, if it acts on a lease at all, has lapsed.
  have gone : ∀ lease, a.lease? = some lease → lease.fresh before = false := by
    intro lease acts
    rcases lost with rfl | ⟨_, same, lapsed⟩
    · cases acts
    · rw [acts] at same
      cases same
      exact lapsed
  have begun : a.Begun := lost.imp_right fun ⟨lease, acts, _⟩ => ⟨lease, acts⟩
  -- Whatever keeps the anchor and the time to live of the lease keeps it lapsed.
  have keeps : ∀ lease lease' : HeldNodeLease, a.lease? = some lease →
      lease'.lastOkMonoMs = lease.lastOkMonoMs → lease'.spec = lease.spec →
      lease'.fresh clock = false := by
    intro lease lease' acts anchor spec
    have stale := HeldNodeLease.lapsed_mono forward (gone lease acts)
    rw [HeldNodeLease.fresh, anchor, spec]
    exact stale
  cases step with
  | keep =>
    exact lost.imp_right fun ⟨lease, acts, _⟩ => ⟨lease, acts, keeps lease lease acts rfl rfl⟩
  | fence => exact .inl rfl
  | acquire op spec nowMs nowMonoMs idle unfenced =>
    rcases begun with fenced | ⟨lease, acts⟩
    · exact absurd fenced unfenced
    · rw [idle] at acts
      cases acts
  | retry pending spec generation attempt first =>
    obtain ⟨lease, renews⟩ := begun.renews attempt
    rw [first] at renews
    cases renews
  | hold pending record generation nowMonoMs attempt told inTime continuous =>
    -- A renewal that lands after the lease it renews has lapsed is a fence.
    obtain ⟨lease, renews⟩ := begun.renews attempt
    have acts := (lease?_of_pending attempt).trans renews
    have stale := HeldNodeLease.lapsed_mono (later _ (Event.instant_of_nowMonoMs told))
      (gone lease acts)
    rw [continuous lease renews] at stale
    cases stale
  | resume pending prior etag attempt renews =>
    have acts : a.lease? = some prior := (lease?_of_pending attempt).trans renews
    exact .inr ⟨_, rfl, keeps prior _ acts rfl rfl⟩
  | adopt prior record nowMs nowMonoMs anchor adopts bounded =>
    refine .inr ⟨_, rfl, ?_⟩
    by_contra fresh
    rw [timely nowMonoMs adopts.instant] at fresh
    exact dead ⟨prior, record, nowMs, nowMonoMs, anchor, adopts, bounded,
      gone prior adopts.acts, Bool.not_eq_false _ ▸ fresh⟩
  | write op pending resumeLocal attempt =>
    obtain ⟨lease, renews⟩ := begun.renews attempt
    have acts := (lease?_of_pending attempt).trans renews
    exact .inr ⟨lease, renews, keeps lease lease acts rfl rfl⟩
  | renew op held nowMs nowMonoMs holds =>
    have acts : a.lease? = some held := by rw [holds]; rfl
    exact .inr ⟨_, rfl, keeps held _ acts rfl rfl⟩
  | readback op pending readbackOnly stamped attempt =>
    obtain ⟨lease, renews⟩ := begun.renews attempt
    have acts := (lease?_of_pending attempt).trans renews
    exact .inr ⟨lease, renews, keeps lease lease acts rfl rfl⟩

end AuthorityStep

/-! ## Whole runs -/

namespace Run

variable {r : Run χ} {i j k : ℕ} {event : Event χ}

/-- The monotonic instants of the events never go back. -/
def Monotone (r : Run χ) : Prop := (r.events.filterMap Event.instant?).Pairwise (· ≤ ·)

instance (r : Run χ) : Decidable r.Monotone :=
  inferInstanceAs (Decidable ((r.events.filterMap Event.instant?).Pairwise (· ≤ ·)))

theorem Monotone.le (monotone : r.Monotone) {earlier later : Event χ} {m n : ℕ} (before : i < j)
    (toldEarlier : r.events[i]? = some earlier) (toldLater : r.events[j]? = some later)
    (first : earlier.instant? = some m) (second : later.instant? = some n) : m ≤ n := by
  obtain ⟨inI, rfl⟩ := List.getElem?_eq_some_iff.mp toldEarlier
  obtain ⟨inJ, rfl⟩ := List.getElem?_eq_some_iff.mp toldLater
  have pairs := List.pairwise_filterMap.mp monotone
  exact List.pairwise_iff_getElem.mp pairs i j inI inJ before m first n second

/-- Authority, once had and then lost, never returns. -/
def NeverReturns (r : Run χ) : Prop :=
  ∀ i j k, i ≤ j → j ≤ k → k ≤ r.events.length → (r.stateAt i).nodeAuthoritative = true →
    (r.stateAt j).nodeAuthoritative = false → (r.stateAt k).nodeAuthoritative = false

/-- Event `i` brings a lapsed lease back. -/
def Revives (r : Run χ) (i : ℕ) : Prop :=
  ∃ event, r.events[i]? = some event ∧
    event.Revives (r.stateAt i).nodeAuthority (r.stateAt i).nowMonoMs

/-- In a process that requires a lease, authority is a live lease. -/
theorem nodeAuthoritative_iff (requires : r.config.requireNodeLease = true)
    (within : i ≤ r.events.length) :
    (r.stateAt i).nodeAuthoritative = true ↔
      (r.stateAt i).nodeAuthority.Live (r.stateAt i).nowMonoMs := by
  have config := (r.node_config i within).2
  unfold State.nodeAuthoritative NodeAuthority.Live
  rw [config, requires]
  cases (r.stateAt i).nodeAuthority.lease? <;> simp

theorem clock_le_succ (told : r.events[i]? = some event) :
    (r.stateAt i).nowMonoMs ≤ (r.stateAt (i + 1)).nowMonoMs := by
  rw [clock_succ told]
  exact Nat.le_max_left _ _

/-- The clock is behind every instant that is still to come. -/
theorem clock_le_instant (monotone : r.Monotone) : ∀ i ≤ r.events.length,
    ∀ j event instant, i ≤ j → r.events[j]? = some event → event.instant? = some instant →
      (r.stateAt i).nowMonoMs ≤ instant := by
  refine history ?_ ?_
  · intro j event instant _ _ _
    rw [stateAt_zero]
    exact Nat.zero_le _
  · intro i event told behind j later instant after toldLater carries
    rw [clock_succ told]
    refine max_le (behind j later instant (Nat.le_of_succ_le after) toldLater carries) ?_
    cases taken : event.nowMonoMs? with
    | none => exact Nat.zero_le _
    | some => exact monotone.le after told toldLater (Event.instant_of_nowMonoMs taken) carries

/-- An instant the clock takes in is the clock. -/
theorem clock_eq_instant (monotone : r.Monotone) {instant : ℕ} (told : r.events[i]? = some event)
    (carries : event.nowMonoMs? = some instant) :
    (r.stateAt (i + 1)).nowMonoMs = instant := by
  rw [clock_succ told, carries]
  exact max_eq_right (clock_le_instant monotone i (lt_length_of_told told).le i event instant le_rfl
    told (Event.instant_of_nowMonoMs carries))

/-- A lost lease stays lost for one event that does not revive it. -/
theorem lapsed_succ (monotone : r.Monotone) (told : r.events[i]? = some event)
    (dead : ¬ r.Revives i) (lost : (r.stateAt i).nodeAuthority.Lapsed (r.stateAt i).nowMonoMs) :
    (r.stateAt (i + 1)).nodeAuthority.Lapsed (r.stateAt (i + 1)).nowMonoMs := by
  refine (authorityStep told).lapsed lost (clock_le_succ told) ?_ ?_ ?_
  · intro instant carries
    exact clock_le_instant monotone i
      (lt_length_of_told told).le i event instant le_rfl told carries
  · intro instant carries
    exact clock_eq_instant monotone told carries
  · intro revives
    exact dead ⟨event, told, revives⟩

theorem begun_mono (begun : (r.stateAt i).nodeAuthority.Begun) (upTo : i ≤ j)
    (within : j ≤ r.events.length) : (r.stateAt j).nodeAuthority.Begun := by
  induction j, upTo using Nat.le_induction with
  | base => exact begun
  | succ j _ ih =>
    have told : r.events[j]? = some (r.events[j]) := List.getElem?_eq_getElem within
    exact (authorityStep told).begun (ih (Nat.le_of_succ_le within))

theorem lapsed_of_le (monotone : r.Monotone) (dead : ∀ i, ¬ r.Revives i)
    (lost : (r.stateAt j).nodeAuthority.Lapsed (r.stateAt j).nowMonoMs) (upTo : j ≤ k)
    (within : k ≤ r.events.length) :
    (r.stateAt k).nodeAuthority.Lapsed (r.stateAt k).nowMonoMs := by
  induction k, upTo using Nat.le_induction with
  | base => exact lost
  | succ k _ ih =>
    have told : r.events[k]? = some (r.events[k]) := List.getElem?_eq_getElem within
    exact lapsed_succ monotone told (dead k) (ih (Nat.le_of_succ_le within))

/-- Every lease a process acts on has been live. -/
theorem was_live (monotone : r.Monotone) : ∀ i ≤ r.events.length,
    (r.stateAt i).nodeAuthority.lease?.isSome →
      ∃ j ≤ i, (r.stateAt j).nodeAuthority.Live (r.stateAt j).nowMonoMs := by
  refine history ?_ ?_
  · intro acts
    rw [stateAt_zero] at acts
    cases acts
  · intro i _ told past acts
    rcases (authorityStep told).live_or_begun acts fun _ => clock_eq_instant monotone told with
      live | before
    · exact ⟨i + 1, le_rfl, live⟩
    · obtain ⟨j, earlier, live⟩ := past before
      exact ⟨j, Nat.le_succ_of_le earlier, live⟩

/-- **Authority never returns exactly if no readback revives a lapsed lease.** -/
theorem neverReturns_iff (r : Run χ) (requires : r.config.requireNodeLease = true)
    (monotone : r.Monotone) : r.NeverReturns ↔ ∀ i, ¬ r.Revives i := by
  constructor
  · rintro never i ⟨_, told, revives⟩
    have within := lt_length_of_told told
    obtain ⟨prior, _, _, nowMonoMs, _, adopts, bounded, stale, fresh⟩ := revives
    have acts := adopts.acts
    have instant := adopts.instant
    -- The lease was live once, is lapsed before the readback, and live after it.
    obtain ⟨had, earlier, live⟩ := was_live monotone i within.le (by rw [acts]; rfl)
    have lost : (r.stateAt i).nodeAuthoritative = false := by
      rw [← Bool.not_eq_true, nodeAuthoritative_iff requires within.le]
      intro back
      exact back.not_lapsed (.inr ⟨prior, acts, stale⟩)
    have before : (r.stateAt had).nodeAuthoritative = true :=
      (nodeAuthoritative_iff requires (earlier.trans within.le)).mpr live
    have after : (r.stateAt (i + 1)).nodeAuthoritative = true := by
      rw [nodeAuthoritative_iff requires within]
      rw [clock_eq_instant monotone told instant, stateAt_succ told, onEvent_adopts adopts bounded]
      exact ⟨_, rfl, fresh⟩
    have gone := never had i (i + 1) earlier (Nat.le_succ i) within before lost
    rw [after] at gone
    cases gone
  · intro dead i j _ upTo after within had lost
    have begun : (r.stateAt i).nodeAuthority.Begun := by
      obtain ⟨lease, acts, _⟩ :=
        (nodeAuthoritative_iff requires ((upTo.trans after).trans within)).mp had
      exact .inr ⟨lease, acts⟩
    have lapsed : (r.stateAt j).nodeAuthority.Lapsed (r.stateAt j).nowMonoMs := by
      refine (begun_mono begun upTo (after.trans within)).lapsed_of_not_live ?_
      rw [← nodeAuthoritative_iff requires (after.trans within), lost]
      exact Bool.false_ne_true
    rw [← Bool.not_eq_true, nodeAuthoritative_iff requires within]
    intro back
    exact back.not_lapsed (lapsed_of_le monotone dead lapsed after within)

/-! ### Concrete runs -/

/-- A process that requires a lease of nine seconds, told `events`.  The wall clock
reads 100 s at the monotonic start. -/
def leased (events : List (Event Unit)) : Run Unit where
  node := "n"
  config := { sampleConfig with requireNodeLease := true }
  events := events

def nineSeconds : NodeLeaseSpec where
  addr := "n:1"
  ttlMs := 9000
  peerProtocol := 1
  generation := "g"
  resumeGeneration := none

/-- The first lease is published at once. -/
def firstLease : List (Event Unit) :=
  [.startNodeLease 100000 0 nineSeconds, .selfNodeLeaseRead 1 100000 0 (.ok none),
    .nodeLeaseCasCompleted 2 0 (.ok (.applied "e1")) none]

/-- The record of our process with a given expiry. -/
def ourRecord (expiresMs : ℕ) (etag : String) : NodeLeaseRecord :=
  { desiredRecord "n" nineSeconds 0 none with expiresMs := expiresMs, etag := etag }

/-- The answer to a renewal comes after the lease has lapsed. -/
def lateAnswer : Run Unit :=
  leased (firstLease ++ [.timerFired (.nodeLeaseRenew 1) 103000 3000, .requestAt 7 "a" 9000,
    .nodeLeaseCasCompleted 3 9500 (.ok (.applied "e2")) none])

theorem lateAnswer_neverReturns :
    (lateAnswer.stateAt 3).nodeAuthoritative = true ∧
      (lateAnswer.stateAt 5).nodeAuthoritative = false ∧ lateAnswer.NeverReturns := by
  refine ⟨by decide +kernel, by decide +kernel, ?_⟩
  refine (neverReturns_iff lateAnswer rfl (by decide)).mpr ?_
  rintro i ⟨_, told, _, _, _, _, _, ⟨_, _, rfl, _⟩, _⟩
  have within : i < 6 := lt_length_of_told told
  interval_cases i <;> cases told

/-- An ambiguous renewal lands after its readback; the next one is refused, and its
readback is answered half a second after the lease has lapsed. -/
def lateRenewal : Run Unit :=
  leased (firstLease ++ [.timerFired (.nodeLeaseRenew 1) 103000 3000,
    .nodeLeaseCasCompleted 3 3200 (.error .ambiguous) none,
    .selfNodeLeaseRead 4 103500 3500 (.ok (some (ourRecord 109000 "e1"))),
    .timerFired (.nodeLeaseRenew 1) 106500 6500,
    .nodeLeaseCasCompleted 5 6700 (.ok .rejected) none, .requestAt 7 "a" 9000,
    .selfNodeLeaseRead 6 109500 9500 (.ok (some (ourRecord 112000 "e2")))])

/-- A lapsed lease comes back. -/
theorem lateRenewal_returns :
    lateRenewal.config.requireNodeLease = true ∧ lateRenewal.Monotone ∧
      (lateRenewal.stateAt 3).nodeAuthoritative = true ∧
      (lateRenewal.stateAt 9).nodeAuthoritative = false ∧
      (lateRenewal.stateAt 10).nodeAuthoritative = true := by
  refine ⟨rfl, by decide, by decide +kernel, by decide +kernel, by decide +kernel⟩

end Run

end Celld
