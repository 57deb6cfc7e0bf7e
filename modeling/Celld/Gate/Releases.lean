import Celld.Gate.CustodyStep
import Celld.Moves.History

/-!
# Every withheld output is released once

Between events all that is owed is stored in barriers, so the docket of a run balances event by
event: what is stored after an event, and what the event answered, is what was stored before and
what the event brought (`Run.balance`).  Summed over a stretch of the run this counts the releases
of an output (`Run.releases_balance`), and where no output is sent again before it is released,
the count is one.
-/

namespace Celld

open List Effect

variable {χ : Type}

namespace Barrier

/-- The outputs a barrier withholds: its owner and its followers. -/
def withheld (barrier : Barrier χ) : List (Held χ) :=
  match barrier.owner with
  | .output held => held :: barrier.followers
  | _ => barrier.followers

/-- The export tickets a barrier carries: its owner and its riders. -/
def tickets (barrier : Barrier χ) : List ℕ :=
  match barrier.owner with
  | .export ticket => ticket :: barrier.riders.map (·.ticket)
  | _ => barrier.riders.map (·.ticket)

end Barrier

/-- The outputs that the gate withholds. -/
def State.withheld (s : State χ) : List (Held χ) := s.barriers.toList.flatMap (·.2.withheld)

/-- The export tickets that the gate carries. -/
def State.tickets (s : State χ) : List ℕ := s.barriers.toList.flatMap (·.2.tickets)

/-- The output an effect releases. -/
def Effect.released? : Effect χ → Option (Held χ)
  | .release request channel _ => some ⟨request, channel⟩
  | _ => none

/-- The export ticket an effect gives a verdict on. -/
def Effect.settled? : Effect χ → Option ℕ
  | .exportProven _ _ ticket _ => some ticket
  | _ => none

/-! ## The docket of a state -/

/-- What the barriers of a state owe. -/
def State.debts (s : State χ) : Multiset (Debt χ) := (s.docket 0).stored.map Owed.debt

theorem sum_coe_eq_flatMap {α β : Type} (l : List α) (f : α → List β) :
    (l.map fun one => (f one : Multiset β)).sum = (l.flatMap f : List β) := by
  induction l with
  | nil => rfl
  | cons one l ih => rw [map_cons, sum_cons, ih, flatMap_cons, Multiset.coe_add]

theorem Turn.toList_nodup (t : Turn χ) : (t.barriers.toList.map (·.1)).Nodup :=
  pairwise_map.mpr t.toList_apart

theorem Docket.stored_eq_sum (d : Docket χ) (l : List (OpId × Barrier χ)) (bounded : d.Bounded)
    (distinct : (l.map (·.1)).Nodup) (lists : ∀ op barrier, (op, barrier) ∈ l ↔
      d.barriers op = some barrier) :
    d.stored = (l.flatMap (·.2.owes) : List (Owed χ)) := by
  have found : ∀ one ∈ l, Barrier.weighs (d.barriers one.1) = one.2.owes := by
    intro one mem
    rw [(lists one.1 one.2).mp mem]
    rfl
  have keys : (l.map (·.1)).toFinset ⊆ Finset.range d.nextOp := by
    intro op mem
    obtain ⟨one, there, rfl⟩ := mem_map.mp (mem_toFinset.mp mem)
    exact Finset.mem_range.mpr (bounded one.1 one.2 ((lists one.1 one.2).mp there))
  have others : ∀ op ∈ Finset.range d.nextOp, op ∉ (l.map (·.1)).toFinset →
      Barrier.weighs (d.barriers op) = 0 := by
    intro op _ absent
    cases found : d.barriers op with
    | none => rfl
    | some barrier =>
      refine absurd (mem_toFinset.mpr ?_) absent
      exact mem_map.mpr ⟨(op, barrier), (lists op barrier).mpr found, rfl⟩
  calc d.stored
      = ∑ op ∈ (l.map (·.1)).toFinset, Barrier.weighs (d.barriers op) :=
        (Finset.sum_subset keys others).symm
    _ = ((l.map (·.1)).map fun op => Barrier.weighs (d.barriers op)).sum :=
        sum_toFinset _ distinct
    _ = (l.map fun one => (one.2.owes : Multiset (Owed χ))).sum := by
        rw [map_map]
        exact congrArg List.sum (map_congr_left found)
    _ = (l.flatMap (·.2.owes) : List (Owed χ)) := sum_coe_eq_flatMap _ _

namespace Barrier

variable [DecidableEq χ] (barrier : Barrier χ)

theorem count_output (held : Held χ) :
    (barrier.owes.map Owed.debt).count (.output held) = barrier.withheld.count held := by
  have followers : ((barrier.followers.map Owed.output).map Owed.debt).count (.output held)
      = barrier.followers.count held := by
    rw [map_map]
    exact count_map_of_injective _ _ (fun _ _ same => Debt.output.inj same) held
  have riders : ((barrier.riders.map barrier.rides).map Owed.debt).count (Debt.output held) = 0 :=
    count_eq_zero.mpr (by simp [rides, Owed.debt])
  unfold owes withheld ownerOwes
  rw [map_append, map_append, count_append, count_append, followers, riders]
  cases barrier.owner <;> simp [Owed.debt, count_cons, Nat.add_comm]

theorem count_ticket (ticket : ℕ) :
    (barrier.owes.map Owed.debt).count (.ticket ticket) = barrier.tickets.count ticket := by
  have followers : ((barrier.followers.map Owed.output).map Owed.debt).count (Debt.ticket ticket)
      = 0 := count_eq_zero.mpr (by simp [Owed.debt])
  have riders : ((barrier.riders.map barrier.rides).map Owed.debt).count (Debt.ticket ticket)
      = (barrier.riders.map (·.ticket)).count ticket := by
    have same : (barrier.riders.map barrier.rides).map Owed.debt
        = (barrier.riders.map (·.ticket)).map Debt.ticket := by
      rw [map_map, map_map]
      rfl
    rw [same]
    exact count_map_of_injective _ _ (fun _ _ same => Debt.ticket.inj same) ticket
  unfold owes tickets ownerOwes
  rw [map_append, map_append, count_append, count_append, followers, riders]
  cases barrier.owner <;> simp [Owed.debt, count_cons, Nat.add_comm]

end Barrier

namespace State

variable {s : State χ}

theorem debts_eq (bounded : (s.docket 0).Bounded) :
    s.debts = ((s.barriers.toList.flatMap fun one => one.2.owes.map Owed.debt : List (Debt χ)) :
      Multiset (Debt χ)) := by
  have stored := Docket.stored_eq_sum (s.docket 0) s.barriers.toList bounded
    (Turn.toList_nodup { s with effects := [] })
    fun op barrier => Std.ExtTreeMap.mem_toList_iff_getElem?_eq_some
  rw [debts, stored, Multiset.map_coe, map_flatMap]

variable [DecidableEq χ]

/-- What is owed to outputs is owed to those the gate withholds. -/
theorem count_debts_output (bounded : (s.docket 0).Bounded) (held : Held χ) :
    s.debts.count (.output held) = s.withheld.count held := by
  rw [debts_eq bounded, Multiset.coe_count, withheld, count_flatMap, count_flatMap]
  refine congrArg List.sum (map_congr_left fun one _ => ?_)
  exact one.2.count_output held

/-- What is owed to tickets is owed to those the gate carries. -/
theorem count_debts_ticket (bounded : (s.docket 0).Bounded) (ticket : ℕ) :
    s.debts.count (.ticket ticket) = s.tickets.count ticket := by
  rw [debts_eq bounded, Multiset.coe_count, tickets, count_flatMap, count_flatMap]
  refine congrArg List.sum (map_congr_left fun one _ => ?_)
  exact one.2.count_ticket ticket

end State

/-! ## Runs -/

/-- Anything may be told. -/
def Evidence.all : Evidence := ⟨fun _ _ _ _ => True, fun _ _ _ _ => True⟩

theorem Owed.earns_all (owed : Owed χ) (result : Except RequestError Unit) :
    owed.Earns .all result := by
  cases owed with
  | output => trivial
  | ticket => exact fun _ => trivial

theorem Event.Custody.all {t : Turn χ} (event : Event χ)
    (alone : ∀ (op : OpId) (gate : Barrier χ), t.barriers[op]? = some gate → gate.Alone) :
    event.Custody .all t where
  alone := alone
  reached _ _ _ _ :=
    ⟨fun _ _ _ _ => ⟨fun _ _ _ _ _ => trivial, fun _ _ _ _ _ _ _ => trivial⟩,
      fun _ _ _ _ one _ => one.earns_all _⟩
  verified _ _ _ _ one _ := one.earns_all _

namespace Run

variable {r : Run χ} {i j : ℕ} {event : Event χ} {held : Held χ}

theorem docket_bounded (r : Run χ) (i : ℕ) (within : i ≤ r.events.length) (p : Multiset (Owed χ)) :
    ((r.stateAt i).docket p).Bounded := fun op barrier found =>
  r.barrier_bound i within op barrier found

/-- No export barrier of a run has followers. -/
theorem alone (r : Run χ) : ∀ i ≤ r.events.length, ∀ (op : OpId) (gate : Barrier χ),
    (r.stateAt i).barriers[op]? = some gate → gate.Alone := by
  let known : Custody := ⟨fun _ _ _ _ => True, fun _ _ _ _ _ => True⟩
  refine history ?_ ?_
  · intro op gate found
    rw [stateAt_zero] at found
    simp [State.new] at found
  · intro i event told alone
    have moves := onEvent_docket event (.all event alone) (r.stateAt_cacheSound i)
    have before : ((r.stateAt i).docket event.owed).Vouched .all known := by
      refine ⟨fun _ _ _ _ _ => trivial, fun op gate found => ?_, fun _ _ _ told => ?_⟩
      · exact ⟨fun _ _ _ _ _ => trivial, fun _ _ => .inr trivial, alone op gate found,
          fun _ _ _ _ _ _ => .inl trivial⟩
      · cases told
    have after := moves.invariant (fun _ _ move vouched => vouched.move move) before
    rw [stateAt_succ told]
    exact fun op gate found => (after.barriers op gate found).alone

/-- **An event answers or stores what it brings**, and keeps or answers what is stored. -/
theorem balance (told : r.events[i]? = some event) :
    (r.stateAt (i + 1)).debts + ((r.effectsAt i).filterMap debt? : List (Debt χ))
      = (r.stateAt i).debts + (event.owed.map Owed.debt : List (Debt χ)) := by
  have within := (lt_length_of_told told).le
  have moves := onEvent_docket event (.all event (r.alone i within)) (r.stateAt_cacheSound i)
  have total := (moves.total (r.docket_bounded i within event.owed)).2
  -- The effects on cells answer nothing.
  have answered : ∀ effects : List (Effect χ),
      (effects.filter (·.cell?.isNone)).filterMap debt? = effects.filterMap debt? := by
    intro effects
    rw [filterMap_filter]
    refine filterMap_congr fun effect _ => ?_
    cases effect <;> rfl
  rw [stateAt_succ told, effectsAt_of_told told]
  simp only [Docket.total, Turn.docket, State.docket, zero_add, answered, filter_nil,
    filterMap_nil, Multiset.coe_nil, add_zero, Multiset.map_add, Multiset.map_coe] at total
  rw [add_comm ((r.stateAt i).debts)]
  exact total

/-- Only an output brings an output. -/
theorem output?_of_owed (brought : .output held ∈ event.owed) :
    ∃ position observed, event.output? = some (held, position, observed) := by
  cases event with
  | output id channel position observed =>
    cases mem_singleton.mp brought
    exact ⟨position, observed, rfl⟩
  | outputAt id channel position observed =>
    cases mem_singleton.mp brought
    exact ⟨position, observed, rfl⟩
  | exportTicket => cases mem_singleton.mp brought
  | _ => cases brought

section Counts

variable [DecidableEq χ]

/-- How often event `i` answers a debt. -/
def answers (r : Run χ) (i : ℕ) (debt : Debt χ) : ℕ :=
  ((r.effectsAt i).filterMap debt?).count debt

/-- How often event `i` brings a debt. -/
def brings (r : Run χ) (i : ℕ) (debt : Debt χ) : ℕ :=
  ((r.events[i]?.elim [] Event.owed).map Owed.debt).count debt

theorem count_balance (told : r.events[i]? = some event) (debt : Debt χ) :
    (r.stateAt (i + 1)).debts.count debt + r.answers i debt
      = (r.stateAt i).debts.count debt + r.brings i debt := by
  have balanced := congrArg (Multiset.count debt) (balance told)
  rw [Multiset.count_add, Multiset.count_add, Multiset.coe_count, Multiset.coe_count] at balanced
  rw [answers, brings, told]
  exact balanced

/-- **The debts of a stretch of a run balance.** -/
theorem stretch_balance (r : Run χ) (debt : Debt χ) (before : i ≤ j)
    (within : j ≤ r.events.length) :
    (r.stateAt j).debts.count debt + ∑ k ∈ Finset.Ico i j, r.answers k debt
      = (r.stateAt i).debts.count debt + ∑ k ∈ Finset.Ico i j, r.brings k debt := by
  induction j, before using Nat.le_induction with
  | base => simp
  | succ j before ih =>
    have told : r.events[j]? = some (r.events[j]) := getElem?_eq_getElem within
    have step := count_balance told debt
    have earlier := ih (Nat.le_of_succ_le within)
    rw [Finset.sum_Ico_succ_top before, Finset.sum_Ico_succ_top before]
    omega

/-- Event `i` is an output. -/
def OutputAt (r : Run χ) (i : ℕ) (held : Held χ) : Prop :=
  ∃ event position observed, r.events[i]? = some event ∧
    event.output? = some (held, position, observed)

/-- How often an output is released from event `i` on, before event `j`. -/
def releases (r : Run χ) (i j : ℕ) (held : Held χ) : ℕ :=
  ∑ k ∈ Finset.Ico i j, ((r.effectsAt k).filterMap released?).count held

/-- How often there is a verdict on an export ticket before event `j`. -/
def verdicts (r : Run χ) (j ticket : ℕ) : ℕ :=
  ∑ k ∈ Finset.range j, ((r.effectsAt k).filterMap settled?).count ticket

theorem answers_output (r : Run χ) (i : ℕ) (held : Held χ) :
    r.answers i (.output held) = ((r.effectsAt i).filterMap released?).count held := by
  unfold answers
  rw [count_filterMap, count_filterMap]
  refine congrFun (congrArg List.countP (funext fun effect => ?_)) _
  cases effect <;> simp [debt?, released?]

theorem answers_ticket (r : Run χ) (i ticket : ℕ) :
    r.answers i (.ticket ticket) = ((r.effectsAt i).filterMap settled?).count ticket := by
  unfold answers
  rw [count_filterMap, count_filterMap]
  refine congrFun (congrArg List.countP (funext fun effect => ?_)) _
  cases effect <;> simp [debt?, settled?]

theorem brings_output (output : r.OutputAt i held) :
    r.brings i (.output held) = 1 := by
  obtain ⟨event, _, _, told, outputs⟩ := output
  rw [brings, told]
  cases event <;> cases outputs <;> simp [Event.owed, Owed.debt]

theorem brings_none (other : ¬ r.OutputAt i held) :
    r.brings i (.output held) = 0 := by
  refine count_eq_zero.mpr fun mem => other ?_
  cases told : r.events[i]? with
  | none => simp [told] at mem
  | some event =>
    simp only [told, Option.elim_some, mem_map] at mem
    obtain ⟨owed, brought, same⟩ := mem
    cases owed with
    | ticket => cases same
    | output =>
      cases same
      obtain ⟨position, observed, outputs⟩ := output?_of_owed brought
      exact ⟨event, position, observed, told, outputs⟩

/-- The releases of a stretch of a run, with what the gate withholds at its ends. -/
theorem releases_balance (r : Run χ) (held : Held χ) (before : i ≤ j)
    (within : j ≤ r.events.length) :
    (r.stateAt j).withheld.count held + r.releases i j held
      = (r.stateAt i).withheld.count held + ∑ k ∈ Finset.Ico i j, r.brings k (.output held) := by
  have balanced := r.stretch_balance (.output held) before within
  rw [State.count_debts_output (r.docket_bounded j within 0),
    State.count_debts_output (r.docket_bounded i (before.trans within) 0)] at balanced
  rw [← balanced, releases]
  refine congrArg _ (Finset.sum_congr rfl fun k _ => ?_)
  exact (r.answers_output k held).symm

/-- The shell never sends an output again before it was released. -/
def Disciplined (r : Run χ) : Prop :=
  ∀ i j held, i < j → r.OutputAt i held → r.OutputAt j held →
    ∃ k, i ≤ k ∧ k < j ∧ held ∈ (r.effectsAt k).filterMap released?

theorem releases_pos {k : ℕ} (first : i ≤ k) (last : k < j)
    (released : held ∈ (r.effectsAt k).filterMap released?) : 0 < r.releases i j held := by
  refine Finset.sum_pos' (fun _ _ => Nat.zero_le _) ⟨k, Finset.mem_Ico.mpr ⟨first, last⟩, ?_⟩
  exact count_pos_iff.mpr released

theorem releases_succ (r : Run χ) (held : Held χ) (before : i ≤ j) :
    r.releases i (j + 1) held = r.releases i j held + r.releases j (j + 1) held := by
  unfold releases
  rw [Finset.sum_Ico_succ_top before, Nat.Ico_succ_singleton, Finset.sum_singleton]

/-- What the gate withholds, it withholds once, for an output that was not released. -/
theorem withheld_once (disciplined : r.Disciplined) (held : Held χ) : ∀ j ≤ r.events.length,
    (r.stateAt j).withheld.count held = 0 ∨ (r.stateAt j).withheld.count held = 1 ∧
      ∃ i < j, r.OutputAt i held ∧ r.releases i j held = 0 := by
  refine history ?_ ?_
  · left
    rw [stateAt_zero, State.withheld, State.new, Std.ExtTreeMap.toList_eq_nil_iff.mpr rfl]
    rfl
  · intro j _ told before
    have within := lt_length_of_told told
    have step := r.releases_balance held (Nat.le_add_right j 1) within
    rw [Nat.Ico_succ_singleton, Finset.sum_singleton] at step
    by_cases output : r.OutputAt j held
    · -- By the discipline the earlier outputs of the pair are released.
      have none : (r.stateAt j).withheld.count held = 0 := by
        rcases before with none | ⟨_, i, earlier, sent, unreleased⟩
        · exact none
        · obtain ⟨_, first, last, released⟩ := disciplined i j held earlier sent output
          have := releases_pos first last released
          omega
      rw [none, brings_output output] at step
      rcases Nat.eq_zero_or_pos ((r.stateAt (j + 1)).withheld.count held) with gone | kept
      · exact .inl gone
      · exact .inr ⟨by omega, j, lt_add_one j, output, by omega⟩
    · rw [brings_none output] at step
      rcases before with none | ⟨_, i, earlier, sent, unreleased⟩
      · exact .inl (by omega)
      rcases Nat.eq_zero_or_pos ((r.stateAt (j + 1)).withheld.count held) with gone | kept
      · exact .inl gone
      · refine .inr ⟨by omega, i, earlier.trans (lt_add_one j), sent, ?_⟩
        rw [r.releases_succ held earlier.le]
        omega

/-- **Every withheld output is released exactly once.**  As long as a pair is not sent again, an
output has one release behind it, or one place among the owners and followers of the barriers.
What the gate withholds is an output that was not released, and nothing twice.  And an event that
does not send the pair passes on what it withheld of it, or releases it, one for one. -/
theorem outputs_released_once (r : Run χ) (disciplined : r.Disciplined) :
    (∀ i j held, r.OutputAt i held → i < j → j ≤ r.events.length →
      (∀ k, i < k → k < j → ¬ r.OutputAt k held) →
      r.releases i j held + (r.stateAt j).withheld.count held = 1) ∧
    (∀ j ≤ r.events.length, (r.stateAt j).withheld.Nodup ∧
      ∀ held ∈ (r.stateAt j).withheld, ∃ i < j, r.OutputAt i held ∧ r.releases i j held = 0) ∧
    ∀ i < r.events.length, ∀ held, ¬ r.OutputAt i held →
      (r.stateAt (i + 1)).withheld.count held + r.releases i (i + 1) held
        = (r.stateAt i).withheld.count held := by
  refine ⟨fun i j held output before within last => ?_, fun j within => ⟨?_, fun held mem => ?_⟩,
    fun i within held other => ?_⟩
  · have none : (r.stateAt i).withheld.count held = 0 := by
      rcases r.withheld_once disciplined held i (before.le.trans within) with none |
        ⟨_, earlier, before, sent, _⟩
      · exact none
      · obtain ⟨k, first, last, released⟩ := disciplined earlier i held before sent output
        have := releases_pos first last released
        omega
    have only : ∑ k ∈ Finset.Ico i j, r.brings k (.output held) = 1 := by
      rw [Finset.sum_eq_single i, brings_output output]
      · intro k mem _
        obtain ⟨first, below⟩ := Finset.mem_Ico.mp mem
        exact brings_none (last k (by omega) below)
      · intro absent
        exact absurd (Finset.mem_Ico.mpr ⟨le_rfl, before⟩) absent
    have balanced := r.releases_balance held before.le within
    omega
  · refine nodup_iff_count_le_one.mpr fun held => ?_
    rcases r.withheld_once disciplined held j within with none | ⟨_, _⟩ <;> omega
  · have kept := count_pos_iff.mpr mem
    rcases r.withheld_once disciplined held j within with none | ⟨_, sent⟩
    · omega
    · exact sent
  · have step := r.releases_balance held (Nat.le_add_right i 1) within
    rw [Nat.Ico_succ_singleton, Finset.sum_singleton, brings_none other] at step
    exact step

end Counts

/-- A pair is sent, released by a fleet proof, and sent again. -/
def sentTwice : Run Unit :=
  booted [.output 1 () (some 5) none none, .durableReached 6 (.ok 7) .fleet,
    .output 1 () (some 8) none none]

theorem sentTwice_disciplined : sentTwice.Disciplined := by
  have released : ∀ held : Held Unit, held.request = 1 →
      held ∈ (sentTwice.effectsAt 7).filterMap released? := by
    rintro ⟨request, ⟨⟩⟩ rfl
    decide +kernel
  have sent : ∀ k held, sentTwice.OutputAt k held → (k = 6 ∨ k = 8) ∧ held.request = 1 := by
    rintro k held ⟨_, _, _, told, outputs⟩
    have within : k < 9 := lt_length_of_told told
    interval_cases k <;> cases told <;> cases outputs
    · exact ⟨.inl rfl, rfl⟩
    · exact ⟨.inr rfl, rfl⟩
  intro i j held _ first second
  obtain ⟨_, request⟩ := sent i held first
  obtain ⟨_, _⟩ := sent j held second
  exact ⟨7, by omega, by omega, released held request⟩

/-- The first output of the pair is released, the second one is withheld. -/
theorem sentTwice_released_once :
    sentTwice.releases 6 8 ⟨1, ()⟩ = 1 ∧ (sentTwice.stateAt 9).withheld.count ⟨1, ()⟩ = 1 := by
  have once := outputs_released_once sentTwice sentTwice_disciplined
  have first := once.1 6 8 ⟨1, ()⟩ ⟨_, _, _, rfl, rfl⟩ (by decide) (by decide) (by
    rintro k _ _ ⟨_, _, _, told, outputs⟩
    obtain rfl : k = 7 := by omega
    cases told
    cases outputs)
  have second := once.1 8 9 ⟨1, ()⟩ ⟨_, _, _, rfl, rfl⟩ (by decide) (by decide) (by omega)
  have gone : (sentTwice.stateAt 8).withheld.count ⟨1, ()⟩ = 0 := by decide +kernel
  have kept : sentTwice.releases 8 9 ⟨1, ()⟩ = 0 := by decide +kernel
  omega

end Run

end Celld
