import Celld.Moves.History

/-!
# What an event does to the node lease

`AuthorityStep` says once what an event can make of the node's authority: every
readback arm, every completion of a write and every timer is one of its
constructors, with the conditions its handler checked.  The laws of the lease are
read off that relation and never unfold a handler again.

Two instants appear.  The *clock* is the largest monotonic instant an event has
carried so far, which is what freshness is measured against; the *instant* of an
event is the one it carries itself, which is what most handlers compare with.  A
nudge carries an instant that the clock does not take in.
-/

namespace Celld

variable {χ : Type} {event : Event χ} {nowMonoMs nowMs : ℕ} {record : NodeLeaseRecord}
  {prior : HeldNodeLease} {a : NodeAuthority}

/-! ## The instants of an event -/

namespace Event

/-- The monotonic instant an event carries. -/
def instant? : Event χ → Option ℕ
  | .nudgeNodeLease _ nowMonoMs => some nowMonoMs
  | event => event.nowMonoMs?

/-- What the clock takes in is an instant of the event. -/
theorem instant_of_nowMonoMs
    (told : event.nowMonoMs? = some nowMonoMs) : event.instant? = some nowMonoMs := by
  cases event with
  | nudgeNodeLease => cases told
  | _ => exact told

/-- An event that can begin an acquisition gives the clock its own instant. -/
theorem nowMonoMs_of_starts (begins : event.starts = true)
    (told : event.clocks? = some (nowMs, nowMonoMs)) :
    event.nowMonoMs? = some nowMonoMs := by
  unfold starts at begins
  split at begins
  · cases told
    rfl
  · cases told
    rfl
  · cases begins

end Event

theorem NodeAuthority.lease?_of_pending {pending : PendingNodeLease}
    (attempt : a.pending? = some pending) : a.lease? = pending.prior := by
  unfold pending? at attempt
  split at attempt
  · cases attempt
    rfl
  · cases attempt
    rfl
  · cases attempt

/-- The lease a readback adopts for is the one the process acts on. -/
theorem Adopts.acts
    (adopts : Adopts event a prior record nowMs nowMonoMs) : a.lease? = some prior := by
  obtain ⟨_, _, _, rfl, renews, _⟩ := adopts
  exact renews

theorem Adopts.instant
    (adopts : Adopts event a prior record nowMs nowMonoMs) : event.nowMonoMs? = some nowMonoMs := by
  obtain ⟨_, _, rfl, _⟩ := adopts
  rfl

/-! ## The handlers -/

/-- Moves that are not granted a new authority keep the one there is. -/
theorem GateMoves.authority_eq {H : GateGrants χ} {f g : GateView χ} (moves : GateMoves H f g)
    (silent : ∀ a, ¬ H.authorizes a) : g.authority = f.authority := by
  refine moves.invariant (P := fun g => g.authority = f.authority) ?_ rfl
  intro g _ move same
  cases move with
  | authorize a granted => exact absurd granted (silent a)
  | _ => exact same

namespace Turn

variable {t : Turn χ}

theorem fenceNode_authority (reason : HaltReason) :
    (t.fenceNode reason).nodeAuthority = .fenced := by
  have kept : (t.setAuthority .fenced).fence.nodeAuthority = .fenced :=
    (fence_steps (H := .none) (r := .free)
      fun _ => .inl trivial).1.authority_eq fun _ => id
  exact kept

/-- **What handling an event makes of the authority.** -/
theorem handle_step (event : Event χ) (sound : t.core.CacheSound)
    (past : ∀ nowMs, event.nowMs? = some nowMs → nowMs ≤ t.nowMs) :
    AuthorityStep t.node t.nowMonoMs t.nodeAuthority event (t.handle event).nodeAuthority := by
  by_cases leases : event.leases = true
  · rcases handle_lease t leases with ⟨_, -, eq⟩ | ⟨-, step⟩
    · rw [eq, fenceNode_authority]
      exact .fence
    · exact step
  · have kept : (t.handle event).gate.authority = t.gate.authority :=
      (handle_moves event sound past).authority_eq fun _ => leases
    have same : (t.handle event).nodeAuthority = t.nodeAuthority := kept
    rw [same]
    exact .keep

end Turn

/-- What follows the handler of an event, the pumps and the deadlines, leaves the
authority alone. -/
theorem onEvent_authority {s : State χ} (event : Event χ) :
    (onEvent s event).1.nodeAuthority
      = (Turn.handle { s.foldClocks event with effects := [] } event).nodeAuthority := by
  let t := Turn.handle { s.foldClocks event with effects := [] } event
  have rest : (s.turn event).armOperationDeadlines.gate.authority = t.gate.authority :=
    (t.closing_moves (H := .none)).authority_eq fun _ => id
  exact rest

/-- **What an event makes of the authority.** -/
theorem onEvent_step {s : State χ} (event : Event χ) (sound : (s.view []).CacheSound) :
    AuthorityStep s.node (max s.nowMonoMs (event.nowMonoMs?.getD 0)) s.nodeAuthority event
      (onEvent s event).1.nodeAuthority := by
  rw [onEvent_authority]
  exact Turn.handle_step (t := { s.foldClocks event with effects := [] }) event sound
    (foldClocks_past event)

/-- A readback that can adopt a late renewal does. -/
theorem onEvent_adopts {s : State χ} {anchor : ℕ}
    (adopts : Adopts event s.nodeAuthority prior record nowMs nowMonoMs)
    (bounded : Turn.adoptedAnchor prior record nowMs nowMonoMs = some anchor) :
    (onEvent s event).1.nodeAuthority
      = .held { prior with lastOkMonoMs := anchor, record := record } := by
  obtain ⟨op, pending, rfl, reads, renews, other, unchanged, zombie⟩ := adopts
  let t : Turn χ := { s.foldClocks (.selfNodeLeaseRead op nowMs nowMonoMs (.ok (some record)))
    with effects := [] }
  have before : t.nodeAuthority = .reading op pending := reads
  rw [onEvent_authority]
  show (t.readSelfNodeLease op nowMs nowMonoMs (.ok (some record))).nodeAuthority = _
  simp only [Turn.readSelfNodeLease, before, renews, Turn.readbackRenewal, other, unchanged, zombie,
    Turn.adoptZombie, bounded, ne_eq, not_true_eq_false, if_false, if_true, Bool.false_eq_true]
  rfl

/-- What event `i` of a run makes of the authority. -/
theorem Run.authorityStep {r : Run χ} {i : ℕ} (told : r.events[i]? = some event) :
    AuthorityStep r.node (r.stateAt (i + 1)).nowMonoMs (r.stateAt i).nodeAuthority event
      (r.stateAt (i + 1)).nodeAuthority := by
  have step := onEvent_step event (r.stateAt_cacheSound i)
  rw [← stateAt_succ told, ← clock_succ told,
    (r.node_config i (lt_length_of_told told).le).1] at step
  exact step

end Celld
