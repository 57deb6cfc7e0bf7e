import Celld.Moves.Step

/-!
# What one event does to the barriers

A barrier never changes its owner, its residency or its position, and its id is
never used again.  `GateStep` collects what one event can do to the barriers and
which outputs it can release, from the list of gate moves; `Celld.Moves.History`
carries it over whole runs.
-/

namespace Celld

open Function List

variable {χ : Type}

/-- The parts of a barrier that never change. -/
structure Barrier.Same (before after : Barrier χ) : Prop where
  owner : after.owner = before.owner
  cell : after.cell = before.cell
  epoch : after.epoch = before.epoch
  position : after.position = before.position

namespace Barrier.Same

variable {a b c : Barrier χ}

theorem refl (b : Barrier χ) : b.Same b := ⟨rfl, rfl, rfl, rfl⟩

theorem trans (first : a.Same b) (second : b.Same c) : a.Same c :=
  ⟨second.owner.trans first.owner, second.cell.trans first.cell,
    second.epoch.trans first.epoch, second.position.trans first.position⟩

end Barrier.Same

/-- The barrier is an earlier one that grew: every follower it gained was granted
its place. -/
structure Barrier.Grew (H : GateGrants χ) (before after : Barrier χ) : Prop where
  same : before.Same after
  followers : ∀ held ∈ after.followers, held ∈ before.followers ∨
    ∃ host : Barrier χ, host.Same after ∧ H.follows held host

/-- The barrier was opened by this event. -/
structure Barrier.Fresh (H : GateGrants χ) (barrier : Barrier χ) : Prop where
  owner : H.opensFor barrier.owner barrier.cell barrier.epoch barrier.position
  followers : ∀ held ∈ barrier.followers,
    ∃ host : Barrier χ, host.Same barrier ∧ H.follows held host

/-- **What one event does to the barriers.** -/
structure GateStep (H : GateGrants χ) (f g : GateView χ) : Prop where
  nextOp : f.core.nextOp ≤ g.core.nextOp
  bound : ∀ op barrier, g.barriers op = some barrier → op < g.core.nextOp
  barriers : ∀ op barrier, g.barriers op = some barrier →
    (∃ earlier, f.barriers op = some earlier ∧ earlier.Grew H barrier) ∨
      f.core.nextOp ≤ op ∧ barrier.Fresh H
  released : ∀ request channel, .release request channel (.ok ()) ∈ g.outputs →
    H.releases ⟨request, channel⟩
  asked : ∀ op cell epoch, .verifyOwnership op cell epoch ∈ g.outputs → op < g.core.nextOp ∧
    ∀ barrier, g.barriers op = some barrier →
      ∃ host : Barrier χ, host.Same barrier ∧ H.verifies op host

theorem Move.nextOp_le {G : Grants} {v w : View} (move : Move G v w) : v.nextOp ≤ w.nextOp := by
  cases move <;> first | exact le_refl _ | exact Nat.le_succ _

theorem Moves.nextOp_le {G : Grants} {v w : View} (moves : Moves G v w) : v.nextOp ≤ w.nextOp :=
  moves.invariant (P := fun u => v.nextOp ≤ u.nextOp) (fun _ _ move le => le.trans move.nextOp_le)
    le_rfl

variable {H : GateGrants χ} {f g : GateView χ}

/-- A barrier replaced by one that grew from it. -/
theorem GateStep.put {op : OpId} {old new : Barrier χ} (step : GateStep H f g)
    (mem : g.barriers op = some old) (same : old.Same new)
    (followers : ∀ held ∈ new.followers, held ∈ old.followers ∨
      ∃ host : Barrier χ, host.Same new ∧ H.follows held host) :
    GateStep H f (g.put op new) := by
  have lookup : ∀ key barrier, (g.put op new).barriers key = some barrier →
      (key = op ∧ barrier = new) ∨ g.barriers key = some barrier := by
    intro key barrier found
    by_cases eq : key = op
    · subst eq
      simp only [GateView.put, update_self] at found
      exact .inl ⟨rfl, (Option.some.inj found).symm⟩
    · simp only [GateView.put, update_of_ne eq] at found
      exact .inr found
  refine ⟨step.nextOp, ?_, ?_, step.released, ?_⟩
  · intro key barrier found
    rcases lookup key barrier found with ⟨rfl, rfl⟩ | found
    · exact step.bound key old mem
    · exact step.bound key barrier found
  · intro key barrier found
    rcases lookup key barrier found with ⟨rfl, rfl⟩ | found
    · rcases step.barriers key old mem with ⟨earlier, there, grew⟩ | ⟨later, fresh⟩
      · refine .inl ⟨earlier, there, grew.same.trans same, fun held member => ?_⟩
        rcases followers held member with inOld | granted
        · rcases grew.followers held inOld with inEarlier | ⟨host, hosts, granted⟩
          · exact .inl inEarlier
          · exact .inr ⟨host, hosts.trans same, granted⟩
        · exact .inr granted
      · refine .inr ⟨later, ?_, fun held member => ?_⟩
        · have owner := fresh.owner
          rwa [← same.owner, ← same.cell, ← same.epoch, ← same.position] at owner
        · rcases followers held member with inOld | granted
          · obtain ⟨host, hosts, granted⟩ := fresh.followers held inOld
            exact ⟨host, hosts.trans same, granted⟩
          · exact granted
    · exact step.barriers key barrier found
  · intro key cell epoch told
    refine ⟨(step.asked key cell epoch told).1, fun barrier found => ?_⟩
    rcases lookup key barrier found with ⟨rfl, rfl⟩ | found
    · obtain ⟨host, hosts, granted⟩ := (step.asked key cell epoch told).2 old mem
      exact ⟨host, hosts.trans same, granted⟩
    · exact (step.asked key cell epoch told).2 barrier found

/-- Effects that neither release an output nor ask for an ownership read. -/
theorem GateStep.tell {effects : List (Effect χ)} (step : GateStep H f g)
    (plain : ∀ effect ∈ effects, (∀ request channel, effect ≠ .release request channel (.ok ())) ∧
      ∀ op cell epoch, effect ≠ .verifyOwnership op cell epoch) :
    GateStep H f (g.tell effects) := by
  refine ⟨step.nextOp, step.bound, step.barriers, ?_, ?_⟩
  · intro request channel told
    rcases mem_append.mp told with told | told
    · exact step.released request channel told
    · exact absurd rfl ((plain _ told).1 request channel)
  · intro op cell epoch told
    rcases mem_append.mp told with told | told
    · exact step.asked op cell epoch told
    · exact absurd rfl ((plain _ told).2 op cell epoch)

theorem Effect.quiet_plain {effect : Effect χ} (quiet : effect.quiet = true) :
    (∀ request channel, effect ≠ .release request channel (.ok ())) ∧
      ∀ op cell epoch, effect ≠ .verifyOwnership op cell epoch := by
  constructor
  · rintro request channel rfl
    cases quiet
  · rintro op cell epoch rfl
    cases quiet

/-- The core takes operation ids, which only makes room below the next one. -/
theorem GateStep.later {v : View} (step : GateStep H f g) (later : g.core.nextOp ≤ v.nextOp) :
    GateStep H f { g with core := v } where
  nextOp := step.nextOp.trans later
  bound op barrier found := (step.bound op barrier found).trans_le later
  barriers := step.barriers
  released := step.released
  asked op cell epoch told := by
    obtain ⟨below, hosts⟩ := step.asked op cell epoch told
    exact ⟨below.trans_le later, hosts⟩

theorem GateStep.drop {kept : OpId → Option (Barrier χ)} (step : GateStep H f g)
    (fewer : ∀ op, kept op = none ∨ kept op = g.barriers op) :
    GateStep H f { g with barriers := kept } := by
  have there : ∀ op barrier, kept op = some barrier → g.barriers op = some barrier := by
    intro op barrier found
    rcases fewer op with gone | same
    · rw [gone] at found; cases found
    · rw [← same]; exact found
  exact ⟨step.nextOp, fun op barrier found => step.bound op barrier (there op barrier found),
    fun op barrier found => step.barriers op barrier (there op barrier found), step.released,
    fun op cell epoch told => ⟨(step.asked op cell epoch told).1, fun barrier found =>
      (step.asked op cell epoch told).2 barrier (there op barrier found)⟩⟩

/-- A barrier opened under the next operation id collides with none. -/
theorem GateStep.openUp {barrier : Barrier χ} (step : GateStep H f g) (fresh : barrier.Fresh H) :
    GateStep H f ({ g with core := g.core.spend }.put g.core.nextOp barrier) := by
  have lookup : ∀ key found,
      (({ g with core := g.core.spend } : GateView χ).put g.core.nextOp barrier).barriers key
        = some found →
      (key = g.core.nextOp ∧ found = barrier) ∨ g.barriers key = some found := by
    intro key found eq
    by_cases same : key = g.core.nextOp
    · subst same
      simp only [GateView.put, update_self] at eq
      exact .inl ⟨rfl, (Option.some.inj eq).symm⟩
    · simp only [GateView.put, update_of_ne same] at eq
      exact .inr eq
  refine ⟨step.nextOp.trans (Nat.le_succ _), ?_, ?_, step.released, ?_⟩
  · intro key found eq
    rcases lookup key found eq with ⟨rfl, _⟩ | there
    · exact lt_add_one _
    · exact (step.bound key found there).trans (lt_add_one _)
  · intro key found eq
    rcases lookup key found eq with ⟨rfl, rfl⟩ | there
    · exact .inr ⟨step.nextOp, fresh⟩
    · exact step.barriers key found there
  · intro op cell epoch told
    obtain ⟨below, hosts⟩ := step.asked op cell epoch told
    refine ⟨below.trans (lt_add_one _), fun found eq => ?_⟩
    rcases lookup op found eq with ⟨rfl, _⟩ | there
    · exact absurd below (Nat.lt_irrefl _)
    · exact hosts found there

theorem GateStep.release {held : Held χ} (step : GateStep H f g) (granted : H.releases held) :
    GateStep H f (g.tell [.release held.request held.channel (.ok ())]) := by
  refine ⟨step.nextOp, step.bound, step.barriers, ?_, ?_⟩
  · intro request channel told
    rcases mem_append.mp told with told | told
    · exact step.released request channel told
    · obtain ⟨rfl, rfl⟩ : request = held.request ∧ channel = held.channel := by simpa using told
      exact granted
  · intro op cell epoch told
    rcases mem_append.mp told with told | told
    · exact step.asked op cell epoch told
    · simp at told

theorem GateStep.ask {op : OpId} {barrier : Barrier χ} (step : GateStep H f g)
    (mem : g.barriers op = some barrier) (granted : H.verifies op barrier) :
    GateStep H f (g.tell [.verifyOwnership op barrier.cell barrier.epoch]) := by
  refine ⟨step.nextOp, step.bound, step.barriers, ?_, ?_⟩
  · intro request channel told
    rcases mem_append.mp told with told | told
    · exact step.released request channel told
    · simp at told
  · intro key cell epoch told
    rcases mem_append.mp told with told | told
    · exact step.asked key cell epoch told
    · obtain rfl : key = op := by
        simp only [mem_singleton, Effect.verifyOwnership.injEq] at told
        exact told.1
      refine ⟨step.bound key barrier mem, fun found eq => ?_⟩
      have same : barrier = found := Option.some.inj (mem.symm.trans eq)
      exact ⟨barrier, same ▸ .refl barrier, granted⟩

/-- **One gate move extends the step.** -/
theorem GateStep.move {h : GateView χ} (step : GateStep H f g) (move : GateMove H g h) :
    GateStep H f h := by
  cases move with
  | core v move => exact step.later move.nextOp_le
  | tell effects quiet => exact step.tell fun effect mem => Effect.quiet_plain (quiet effect mem)
  | drop kept fewer => exact step.drop fewer
  | openUp owner cell epoch position granted =>
    exact (step.openUp ⟨granted, by simp⟩).tell (by simp)
  | follow op barrier held mem granted =>
    refine step.put mem ⟨rfl, rfl, rfl, rfl⟩ fun other member => ?_
    rcases mem_append.mp member with old | new
    · exact .inl old
    · rw [mem_singleton.mp new]
      exact .inr ⟨barrier, ⟨rfl, rfl, rfl, rfl⟩, granted⟩
  | ride op barrier riders mem =>
    exact step.put mem ⟨rfl, rfl, rfl, rfl⟩ fun held member => .inl member
  | verify op barrier mem granted =>
    have asked := step.ask mem granted
    exact asked.put mem ⟨rfl, rfl, rfl, rfl⟩ fun held member => .inl member
  | release held granted => exact step.release granted
  | authorize => exact ⟨step.nextOp, step.bound, step.barriers, step.released, step.asked⟩

/-- **An event is one step of the gate.** -/
theorem GateMoves.step (bound : ∀ op barrier, f.barriers op = some barrier → op < f.core.nextOp)
    (silent : f.outputs = []) (moves : GateMoves H f g) : GateStep H f g := by
  have start : GateStep H f f := by
    refine ⟨le_refl _, bound, ?_, ?_, ?_⟩
    · intro op barrier found
      exact .inl ⟨barrier, found, .refl barrier, fun held member => .inl member⟩
    · intro _ _ told
      rw [silent] at told
      cases told
    · intro op _ _ told
      rw [silent] at told
      cases told
  exact moves.invariant (fun _ _ move step => step.move move) start

end Celld
