import Celld.Lease.Lapse

/-!
# The published deadline

The record in the bucket says when a peer may take over; the process counts its own
time to live from the instant the record's expiry was computed from.  With wall and
monotonic clocks that advance together these are one deadline: every anchor plus its
time to live is at or below the expiry of its record (`Bounded`), whether the record
was written, read back, resumed or adopted.  What the store answers does not matter.

Two things can pull them apart.  The expiry saturates at the end of 64 bits, and a
first acquisition computes its expiry from the event's wall instant but counts from
the clock, which is ahead of the event if an earlier event carried a later instant.
-/

namespace Celld

open List

variable {χ : Type} {base : ℕ}

/-- A deadline counted from a monotonic anchor is at or below a published expiry,
which may have saturated. -/
def DeadlineWithin (base anchorMonoMs ttlMs expiresMs : ℕ) : Prop :=
  base + anchorMonoMs + ttlMs ≤ expiresMs ∨ expiresMs = u64Max

/-- An expiry computed at the wall instant of its anchor is the deadline. -/
theorem deadlineWithin_satAdd {anchorMonoMs nowMs ttlMs : ℕ} (agree : base + anchorMonoMs ≤ nowMs) :
    DeadlineWithin base anchorMonoMs ttlMs (satAdd nowMs ttlMs) := by
  unfold DeadlineWithin satAdd
  omega

/-- The anchor of an adopted record names no later deadline than the record. -/
theorem deadlineWithin_adopted {nowMs nowMonoMs anchor : ℕ} {prior : HeldNodeLease}
    {record : NodeLeaseRecord} (agree : nowMs = base + nowMonoMs)
    (bounded : Turn.adoptedAnchor prior record nowMs nowMonoMs = some anchor) :
    DeadlineWithin base anchor prior.spec.ttlMs record.expiresMs := by
  simp only [Turn.adoptedAnchor] at bounded
  split at bounded
  · cases bounded
  split at bounded
  · cases bounded
  cases bounded
  have sum : satAdd nowMonoMs (record.expiresMs - nowMs)
      ≤ nowMonoMs + (record.expiresMs - nowMs) := satAdd_le _ _
  refine .inl ?_
  omega

namespace NodeAuthority

/-- **The deadline invariant**: of the lease a process acts on, and of its attempt. -/
structure Bounded (base : ℕ) (a : NodeAuthority) : Prop where
  lease : ∀ lease, a.lease? = some lease →
    DeadlineWithin base lease.lastOkMonoMs lease.spec.ttlMs lease.record.expiresMs
  attempt : ∀ pending, a.pending? = some pending →
    DeadlineWithin base pending.anchorMonoMs pending.spec.ttlMs pending.desired.expiresMs

theorem Bounded.of_idle {a : NodeAuthority} (none : a.lease? = none)
    (still : a.pending? = Option.none) : a.Bounded base := by
  refine ⟨?_, ?_⟩
  · intro _ acts
    rw [none] at acts
    cases acts
  · intro _ attempt
    rw [still] at attempt
    cases attempt

theorem Bounded.of_held {held : HeldNodeLease}
    (within : DeadlineWithin base held.lastOkMonoMs held.spec.ttlMs held.record.expiresMs) :
    (NodeAuthority.held held).Bounded base := by
  refine ⟨?_, ?_⟩
  · rintro _ ⟨⟩
    exact within
  · rintro _ ⟨⟩

end NodeAuthority

/-- Every step keeps the deadline invariant, if the clocks of its event agree and the
clock has not run ahead of an event that begins an acquisition. -/
theorem AuthorityStep.bounded {node : NodeId} {clock : ℕ} {a b : NodeAuthority} {event : Event χ}
    (step : AuthorityStep node clock a event b) (kept : a.Bounded base)
    (agree : ∀ nowMs nowMonoMs, event.clocks? = some (nowMs, nowMonoMs) → nowMs = base + nowMonoMs)
    (inOrder : event.starts = true → ∀ nowMs nowMonoMs, event.clocks? = some (nowMs, nowMonoMs) →
      clock = nowMonoMs) : b.Bounded base := by
  cases step with
  | keep => exact kept
  | fence => exact .of_idle rfl rfl
  | acquire op spec nowMs nowMonoMs idle unfenced begins told =>
    refine ⟨by rintro _ ⟨⟩, ?_⟩
    rintro _ ⟨⟩
    refine deadlineWithin_satAdd ?_
    rw [inOrder begins nowMs nowMonoMs told, agree nowMs nowMonoMs told]
  | retry => exact .of_idle rfl rfl
  | hold pending record generation nowMonoMs attempt told inTime continuous published =>
    have within := kept.attempt pending attempt
    rw [← published] at within
    exact .of_held within
  | resume pending prior etag attempt renews =>
    exact .of_held <| kept.lease prior ((NodeAuthority.lease?_of_pending attempt).trans renews)
  | adopt prior record nowMs nowMonoMs anchor adopts bounded =>
    obtain ⟨op, pending, rfl, _⟩ := adopts
    have within := deadlineWithin_adopted (agree nowMs nowMonoMs rfl) bounded
    exact .of_held within
  | write op pending resumeLocal attempt =>
    refine ⟨?_, ?_⟩
    · intro lease acts
      exact kept.lease lease ((NodeAuthority.lease?_of_pending attempt).trans acts)
    · rintro _ ⟨⟩
      exact kept.attempt pending attempt
  | renew op held nowMs nowMonoMs holds told =>
    refine ⟨?_, ?_⟩
    · rintro _ ⟨⟩
      exact kept.lease held (by rw [holds]; rfl)
    · rintro _ ⟨⟩
      refine deadlineWithin_satAdd ?_
      rw [agree nowMs nowMonoMs told]
  | readback op pending readbackOnly stamped attempt =>
    refine ⟨?_, ?_⟩
    · intro lease acts
      exact kept.lease lease ((NodeAuthority.lease?_of_pending attempt).trans acts)
    · rintro _ ⟨⟩
      exact kept.attempt pending attempt

namespace Run

variable {r : Run χ} {i : ℕ}

/-- The wall and monotonic instants of every event that carries both are `base`
apart. -/
def ClocksAgree (r : Run χ) (base : ℕ) : Prop :=
  ∀ event ∈ r.events, ∀ nowMs nowMonoMs, event.clocks? = some (nowMs, nowMonoMs) →
    nowMs = base + nowMonoMs

/-- No event that can begin a first acquisition carries an instant behind the
clock. -/
def StartsInOrder (r : Run χ) : Prop :=
  ∀ i event nowMs nowMonoMs, r.events[i]? = some event → event.starts = true →
    event.clocks? = some (nowMs, nowMonoMs) → (r.stateAt i).nowMonoMs ≤ nowMonoMs

/-- The deadline invariant holds in every state of a run. -/
theorem bounded (agree : r.ClocksAgree base) (inOrder : r.StartsInOrder) :
    ∀ i ≤ r.events.length, (r.stateAt i).nodeAuthority.Bounded base := by
  refine history ?_ ?_
  · rw [stateAt_zero]
    exact .of_idle rfl rfl
  · intro i event told kept
    refine (authorityStep told).bounded kept (agree event (mem_of_getElem? told)) ?_
    intro begins nowMs nowMonoMs carries
    rw [clock_succ told, Event.nowMonoMs_of_starts begins carries]
    exact max_eq_right (inOrder i event nowMs nowMonoMs told begins carries)

/-- **Authority never outlives the published lease.** -/
theorem authority_before_expiry (r : Run χ) (base : ℕ) (agree : r.ClocksAgree base)
    (inOrder : r.StartsInOrder) (requires : r.config.requireNodeLease = true)
    (within : i ≤ r.events.length) (authoritative : (r.stateAt i).nodeAuthoritative = true) :
    ∃ lease, (r.stateAt i).nodeAuthority.lease? = some lease ∧
      (base + (r.stateAt i).nowMonoMs < lease.record.expiresMs ∨
        lease.record.expiresMs = u64Max) := by
  obtain ⟨lease, acts, fresh⟩ := (nodeAuthoritative_iff requires within).mp authoritative
  refine ⟨lease, acts, ?_⟩
  have elapsed : (r.stateAt i).nowMonoMs - lease.lastOkMonoMs < lease.spec.ttlMs :=
    of_decide_eq_true fresh
  rcases (bounded agree inOrder i within).lease lease acts with _ | saturated
  · refine .inl ?_
    omega
  · exact .inr saturated

/-- The late renewal of a lapsed lease, judged by its published deadline. -/
theorem lateRenewal_before_expiry :
    ∃ lease, (lateRenewal.stateAt 10).nodeAuthority.lease? = some lease ∧
      (100000 + (lateRenewal.stateAt 10).nowMonoMs < lease.record.expiresMs ∨
        lease.record.expiresMs = u64Max) := by
  refine authority_before_expiry lateRenewal 100000 ?_ ?_ rfl (by decide) (by decide +kernel)
  · intro event told nowMs nowMonoMs carries
    simp only [lateRenewal, leased, firstLease, cons_append, nil_append, mem_cons,
      not_mem_nil, or_false] at told
    rcases told with rfl | rfl | rfl | rfl | rfl | rfl | rfl | rfl | rfl | rfl
      <;> cases carries <;> rfl
  · intro i event nowMs nowMonoMs told begins carries
    have behind := clock_le_instant (by decide) i (lt_length_of_told told).le
    exact behind i event nowMonoMs le_rfl told
      (Event.instant_of_nowMonoMs (Event.nowMonoMs_of_starts begins carries))

/-- The wall clock is twenty milliseconds short of the end of 64 bits. -/
def endOfTime : Run Unit :=
  leased [.startNodeLease (u64Max - 20) 0 { nineSeconds with ttlMs := 100 },
    .selfNodeLeaseRead 1 (u64Max - 20) 0 (.ok none),
    .nodeLeaseCasCompleted 2 0 (.ok (.applied "e1")) none, .timerFired (.cellAlarm "a" 0) u64Max 20]

/-- A first acquisition is told an instant behind one already seen. -/
def startBehind : Run Unit :=
  leased [.requestAt 7 "a" 50, .startNodeLease 100010 10 nineSeconds,
    .selfNodeLeaseRead 1 100050 50 (.ok none),
    .nodeLeaseCasCompleted 2 50 (.ok (.applied "e1")) none, .requestAt 8 "a" 9049]

/-- Authority outlives the published lease if its expiry has saturated, and if a
first acquisition was told an instant behind the clock. -/
theorem authority_outlives_expiry :
    (endOfTime.ClocksAgree (u64Max - 20) ∧ (endOfTime.stateAt 4).nodeAuthoritative = true ∧
      (endOfTime.stateAt 4).nodeAuthority.lease?.map (·.record.expiresMs)
        = some (u64Max - 20 + (endOfTime.stateAt 4).nowMonoMs)) ∧
    (startBehind.ClocksAgree 100000 ∧ (startBehind.stateAt 5).nodeAuthoritative = true ∧
      (startBehind.stateAt 5).nowMonoMs = 9049 ∧
      (startBehind.stateAt 5).nodeAuthority.lease?.map (·.record.expiresMs) = some 109010) := by
  refine ⟨⟨?_, by decide +kernel, by decide +kernel⟩, ?_, by decide +kernel, by decide +kernel,
    by decide +kernel⟩
  · intro event told nowMs nowMonoMs carries
    simp only [endOfTime, leased, mem_cons, not_mem_nil, or_false] at told
    rcases told with rfl | rfl | rfl | rfl <;> cases carries <;> rfl
  · intro event told nowMs nowMonoMs carries
    simp only [startBehind, leased, mem_cons, not_mem_nil, or_false] at told
    rcases told with rfl | rfl | rfl | rfl | rfl <;> cases carries <;> rfl

end Run

end Celld
