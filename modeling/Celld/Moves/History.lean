import Celld.Gate.Barriers

/-!
# Runs and their histories

A `Run` is a process and the list of events it is told.  Claims about what
happened *before* something in a run are stated with indices: `stateAt i` is the
state before event `i`, `effectsAt i` what that event raises.
-/

namespace Celld

theorem State.view_cellAt {χ : Type} {s : State χ} {effects : List (Effect χ)}
    {id : CellId} {cell : Cell}
    (found : s.cells[id]? = some cell) : (s.view effects).cellAt id = cell := by
  simp [State.view, State.gate, Turn.gate, Turn.core, CoreTurn.view, found]

/-- Moves leave the node, its configuration and its clocks alone. -/
structure View.SameNode (v w : View) : Prop where
  node : w.node = v.node
  config : w.config = v.config
  nowMs : w.nowMs = v.nowMs
  nowMonoMs : w.nowMonoMs = v.nowMonoMs

theorem Moves.sameNode {G : Grants} {v w : View} (moves : Moves G v w) : v.SameNode w := by
  refine moves.invariant ?_ ⟨rfl, rfl, rfl, rfl⟩
  intro _ w move same
  cases move <;> exact ⟨same.node, same.config, same.nowMs, same.nowMonoMs⟩

/-- A process and the events it is told. -/
structure Run (χ : Type) where
  node : NodeId
  config : Config
  events : List (Event χ)

namespace Run

variable {χ : Type} (r : Run χ)

/-- The state before event `i`. -/
def stateAt (i : ℕ) : State χ := run r.node r.config (r.events.take i)

/-- The effects that event `i` raises. -/
def effectsAt (i : ℕ) : List (Effect χ) :=
  match r.events[i]? with
  | none => []
  | some event => (onEvent (r.stateAt i) event).2

variable {r} {i : ℕ} {event : Event χ}

theorem stateAt_zero : r.stateAt 0 = State.new r.node r.config := by
  rw [stateAt, List.take_zero]
  rfl

theorem stateAt_succ (told : r.events[i]? = some event) :
    r.stateAt (i + 1) = (onEvent (r.stateAt i) event).1 := by
  have split : r.events.take (i + 1) = r.events.take i ++ [event] := by
    rw [List.take_add_one, told]
    rfl
  rw [stateAt, split]
  exact runFrom_append _ _ _

theorem effectsAt_of_told (told : r.events[i]? = some event) :
    r.effectsAt i = (onEvent (r.stateAt i) event).2 := by
  rw [effectsAt, told]

theorem told_of_effect {effect : Effect χ} (raised : effect ∈ r.effectsAt i) :
    ∃ event, r.events[i]? = some event ∧ effect ∈ (onEvent (r.stateAt i) event).2 := by
  unfold effectsAt at raised
  split at raised
  · cases raised
  · exact ⟨_, ‹_›, raised⟩

/-- **The history rule.** What holds before the first event and is kept by every
event holds before every event and after the last. -/
theorem history {P : ℕ → Prop} (start : P 0)
    (step : ∀ i event, r.events[i]? = some event → P i → P (i + 1)) :
    ∀ i ≤ r.events.length, P i := by
  intro i
  induction i with
  | zero => exact fun _ => start
  | succ i ih =>
    intro within
    have told : r.events[i]? = some (r.events[i]) := List.getElem?_eq_getElem within
    exact step i _ told (ih (Nat.le_of_succ_le within))

theorem lt_length_of_told (told : r.events[i]? = some event) : i < r.events.length :=
  (List.getElem?_eq_some_iff.mp told).1

theorem stateAt_cacheSound (r : Run χ) (i : ℕ) : ((r.stateAt i).view []).CacheSound :=
  run_cacheSound _ _ _

/-- What event `i` does to the cells. -/
theorem moves (told : r.events[i]? = some event) :
    Moves (event.grants (r.stateAt i)) (((r.stateAt i).foldClocks event).view [])
      ((r.stateAt (i + 1)).view (r.effectsAt i)) := by
  rw [stateAt_succ told, effectsAt_of_told told]
  exact onEvent_moves event (r.stateAt_cacheSound i)

theorem sameNode (told : r.events[i]? = some event) :
    (((r.stateAt i).foldClocks event).view []).SameNode
      ((r.stateAt (i + 1)).view (r.effectsAt i)) := (moves told).sameNode

/-- The node and the configuration of a run never change. -/
theorem node_config (r : Run χ) : ∀ i ≤ r.events.length,
    (r.stateAt i).node = r.node ∧ (r.stateAt i).config = r.config := by
  refine history ?_ ?_
  · rw [stateAt_zero]
    exact ⟨rfl, rfl⟩
  · intro i _ told same
    have next := sameNode told
    exact ⟨next.node.trans same.1, next.config.trans same.2⟩

/-- The clock takes in the instant of an event. -/
theorem clock_succ (told : r.events[i]? = some event) :
    (r.stateAt (i + 1)).nowMonoMs = max (r.stateAt i).nowMonoMs (event.nowMonoMs?.getD 0) :=
  (sameNode told).nowMonoMs

/-- No barrier of a run has an id that is still to come. -/
theorem barrier_bound (r : Run χ) : ∀ i ≤ r.events.length, ∀ op barrier,
    (r.stateAt i).barriers[op]? = some barrier → op < (r.stateAt i).nextOp := by
  refine history ?_ ?_
  · intro op barrier found
    rw [stateAt_zero] at found
    simp [State.new] at found
  · intro i event told bound
    have step := (onEvent_gateMoves event (r.stateAt_cacheSound i)).step bound rfl
    rw [stateAt_succ told]
    exact step.bound

/-- What event `i` does to the barriers. -/
theorem gateStep (told : r.events[i]? = some event) :
    GateStep (event.gateGrants (r.stateAt i)) ((r.stateAt i).gate [])
      ((r.stateAt (i + 1)).gate (r.effectsAt i)) := by
  have bound := r.barrier_bound i (lt_length_of_told told).le
  rw [stateAt_succ told, effectsAt_of_told told]
  -- The clocks that the event folds in are no concern of the barriers.
  have step : GateStep (event.gateGrants (r.stateAt i)) (((r.stateAt i).foldClocks event).gate [])
      ((onEvent (r.stateAt i) event).1.gate (onEvent (r.stateAt i) event).2) :=
    (onEvent_gateMoves event (r.stateAt_cacheSound i)).step bound rfl
  exact ⟨step.nextOp, step.bound, step.barriers, step.released, step.asked⟩

theorem nextOp_le_succ (told : r.events[i]? = some event) :
    (r.stateAt i).nextOp ≤ (r.stateAt (i + 1)).nextOp := (gateStep told).nextOp

theorem nextOp_mono {j : ℕ} (before : i ≤ j) (within : j ≤ r.events.length) :
    (r.stateAt i).nextOp ≤ (r.stateAt j).nextOp := by
  induction j with
  | zero => rw [Nat.le_zero.mp before]
  | succ j ih =>
    rcases Nat.of_le_succ before with before | rfl
    · have told : r.events[j]? = some (r.events[j]) := List.getElem?_eq_getElem within
      exact (ih before (Nat.le_of_succ_le within)).trans (nextOp_le_succ told)
    · exact le_refl _

/-- An effect beside the cells, as gate moves list it. -/
theorem mem_outputs {effects : List (Effect χ)} {s : State χ} {effect : Effect χ}
    (raised : effect ∈ effects) (foreign : effect.cell? = none) :
    effect ∈ (s.gate effects).outputs := by
  refine List.mem_filter.mpr ⟨raised, ?_⟩
  rw [foreign]
  rfl

end Run

/-! ## A process for concrete runs -/

/-- Small ceilings, no deadlines and no node lease. -/
def sampleConfig : Config where
  maxResident := 8
  maxActivations := 8
  maxEvictions := 2
  maxReleases := 2
  maxOutboundWebsockets := 4
  ownershipOnEvict := .sticky
  requireNodeLease := false
  peerProtocol := 1
  operationDeadlineMs := none
  ownerLogRecoveryBackoffMs := 1000
  ownerLogRecoveryAttempts := 3
  alarmResidentMs := 1000
  idleEvictMs := none
  pressure := {}

/-- Request 1 finds cell `a` without an owner and brings it to residency at epoch
1, which takes the operations 1 to 5. -/
def bootEvents {χ : Type} : List (Event χ) :=
  [.request 1 "a", .ownerRead 1 0 (.ok none), .ownerCasCompleted 2 (.ok .applied),
    .restoreCompleted 3 (.ok ⟨false, none⟩), .runtimeStarted 4 none 0 (.ok ()),
    .published 5 (.ok ())]

/-- The process of the concrete runs, told `events` once cell `a` is resident. -/
def booted {χ : Type} (events : List (Event χ)) : Run χ where
  node := "n"
  config := sampleConfig
  events := bootEvents ++ events

end Celld
