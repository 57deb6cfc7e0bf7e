import Celld.Moves.History

/-!
# The victims of shedding

Three loops cut residency: `shed_one` makes room for a waiter, `evict_idle` gives cold cells
back, and `shed_toward_floor` walks a latched node down.  Each takes the cell that sheds first
and stops at the first refusal.  The order and the filter live in `shed_candidate_where`, and the
refusals in `begin_eviction`, so what has to be compared is which candidates `begin_eviction`
refuses.

It is one kind only: on a node that is neither latched nor draining, a cell whose alarm is
imminent.  Such a cell is a candidate, it is refused, and the loop gives up in front of the
cells behind it.  `Core.SweepsFreely` says when that costs nothing: wherever a cell held back
sheds before one that is not, the permits run out before its turn.
-/

namespace Celld

open List

variable {x y : CellId × Cell} {c : Core} {keep : Cell → Bool} {id : CellId}

namespace Core

/-- The cells a sweep chooses among. -/
def candidates (c : Core) (keep : Cell → Bool) : List (CellId × Cell) :=
  c.cells.toList.filter fun (id, cell) => c.isHibernatable id && keep cell && cell.alarmCovered

/-- An imminent alarm holds its cell on a node that has room to spare. -/
def holdsBack (c : Core) (cell : Cell) : Bool :=
  c.alarmIsImminent cell && !c.shedding && !c.draining

theorem mem_candidates :
    x ∈ c.candidates keep ↔ c.cells[x.1]? = some x.2 ∧ x.2.phase.isResident = true ∧
      c.isActive x.1 = false ∧ keep x.2 = true ∧ x.2.alarmCovered = true := by
  obtain ⟨_, _⟩ := x
  unfold candidates
  rw [mem_filter, Std.ExtTreeMap.mem_toList_iff_getElem?_eq_some]
  refine and_congr_right fun found => ?_
  simp only [isHibernatable, found, Option.any_some, Bool.and_eq_true, Bool.not_eq_true']
  tauto

/-- A candidate is given by its id. -/
theorem candidate_unique (mem : x ∈ c.candidates keep) (mem' : y ∈ c.candidates keep)
    (same : x.1 = y.1) : x = y := by
  refine Prod.ext same (Option.some.inj ?_)
  rw [← (mem_candidates.mp mem).1, ← (mem_candidates.mp mem').1, same]

/-- The order of the sweep, key by key. -/
def shedOrder (c : Core) : CellId × Cell → CellId × Cell → Ordering :=
  compareLex (compareLex (compareLex
    (compareOn fun x => c.emptiest x.2) (compareOn fun x => x.2.evictionRefusedMonoMs))
    (compareOn fun x => x.2.lastUsedMonoMs)) (compareOn Prod.fst)

instance (c : Core) : Std.TransCmp c.shedOrder := by
  unfold shedOrder
  infer_instance

theorem shedsBefore_iff :
    c.shedsBefore x y = true ↔ c.shedOrder x y = .lt := Ordering.isLT_iff_eq_lt

theorem not_shedsBefore_iff :
    c.shedsBefore x y = false ↔ (c.shedOrder y x).isLE = true := by
  have swap : c.shedOrder x y = (c.shedOrder y x).swap := Std.OrientedCmp.eq_swap
  rw [Bool.eq_false_iff, ne_eq, shedsBefore_iff, swap]
  cases c.shedOrder y x <;> decide

theorem shedsBefore_asymm (before : c.shedsBefore x y = true) :
    c.shedsBefore y x = false := by
  rw [shedsBefore_iff] at before
  rw [not_shedsBefore_iff, before]
  rfl

theorem not_shedsBefore_trans {z : CellId × Cell} (first : c.shedsBefore y x = false)
    (second : c.shedsBefore z y = false) :
    c.shedsBefore z x = false := by
  rw [not_shedsBefore_iff] at first second ⊢
  exact Std.TransCmp.isLE_trans first second

/-- The id is the last key, so no two cells tie. -/
theorem shedsBefore_total (differ : x.1 ≠ y.1)
    (unsurpassed : c.shedsBefore y x = false) : c.shedsBefore x y = true := by
  rw [not_shedsBefore_iff] at unsurpassed
  rw [shedsBefore_iff]
  cases order : c.shedOrder x y with
  | lt => rfl
  | eq =>
    have ids : compare x.1 y.1 = .eq := (Ordering.then_eq_eq.mp order).2
    exact absurd (Std.LawfulEqCmp.eq_of_compare ids) differ
  | gt =>
    rw [order] at unsurpassed
    cases unsurpassed

end Core

/-- Nothing is less than what `min_by_key` picks. -/
theorem minBy_least {α : Type} {lt : α → α → Bool}
    (asymm : ∀ {a b : α}, lt a b = true → lt b a = false)
    (compose : ∀ {a b c : α}, lt b a = false → lt c b = false → lt c a = false)
    {l : List α} {a : α} (picked : minBy lt l = some a) : ∀ b ∈ l, lt b a = false := by
  have irrefl : ∀ a, lt a a = false := by
    intro a
    rw [Bool.eq_false_iff]
    intro less
    cases (asymm less).symm.trans less
  -- The accumulator only ever gets smaller, so what it has beaten stays beaten.
  have least : ∀ (as : List α) (best : α), ∀ b ∈ best :: as,
      lt b (as.foldl (fun best x => if lt x best then x else best) best) = false := by
    intro as
    induction as with
    | nil =>
      intro best b mem
      rw [mem_singleton.mp mem]
      exact irrefl best
    | cons x xs ih =>
      intro best b mem
      rw [foldl_cons]
      split
      case isTrue better =>
        rcases mem_cons.mp mem with rfl | later
        · exact compose (ih x x mem_cons_self) (asymm better)
        · exact ih x b later
      case isFalse worse =>
        rcases mem_cons.mp mem with rfl | later
        · exact ih b b mem_cons_self
        · rcases mem_cons.mp later with rfl | last
          · exact compose (ih best best mem_cons_self) (by simpa using worse)
          · exact ih best b (mem_cons_of_mem _ last)
  cases l with
  | nil => cases picked
  | cons b bs =>
    rw [← Option.some.inj picked]
    exact least bs b

namespace Core

/-- The victim is a candidate, and no candidate sheds before it. -/
theorem shedCandidateWhere_some (picked : c.shedCandidateWhere keep = some id) :
    ∃ cell, (id, cell) ∈ c.candidates keep ∧
      ∀ x ∈ c.candidates keep, c.shedsBefore x (id, cell) = false := by
  obtain ⟨⟨_, cell⟩, least, rfl⟩ := Option.map_eq_some_iff.mp picked
  change minBy c.shedsBefore (c.candidates keep) = _ at least
  refine ⟨cell, minBy_mem least, ?_⟩
  apply minBy_least _ _ least
  · exact fun before => shedsBefore_asymm before
  · exact fun first second => not_shedsBefore_trans first second

theorem shedCandidateWhere_none
    (none : c.shedCandidateWhere keep = none) : c.candidates keep = [] := by
  unfold shedCandidateWhere at none
  rw [Option.map_eq_none_iff] at none
  change minBy c.shedsBefore (c.candidates keep) = _ at none
  cases list : c.candidates keep with
  | nil => rfl
  | cons =>
    rw [list] at none
    cases none

end Core

namespace CoreTurn

/-- Turn `u` is turn `t` after the eviction of a resident cell has begun. -/
structure Evicts (t : CoreTurn) (x : CellId × Cell) (u : CoreTurn) : Prop where
  here : ∃ cell op epoch, u.cells[x.1]? = some cell ∧ x.2.phase = .resident epoch ∧
    cell.phase = .ensuringDurability op epoch ∧ cell.isolate = x.2.isolate
  others : ∀ key : CellId, key ≠ x.1 → u.cells[key]? = t.cells[key]?
  permits : u.evictionPermits = t.evictionPermits.insert x.1
  activeCells : u.activeCells = t.activeCells
  config : u.config = t.config
  shedding : u.shedding = t.shedding
  draining : u.draining = t.draining
  nowMs : u.nowMs = t.nowMs
  occupied : u.occupied = t.occupied
  shedFloor : u.shedFloor = t.shedFloor

variable {t u : CoreTurn} {keep : Cell → Bool} {x : CellId × Cell}

theorem evictionCeiling_ge (c : Core) : c.config.maxEvictions ≤ c.evictionCeiling := by
  unfold Core.evictionCeiling
  split
  · exact le_max_right _ _
  · exact le_rfl

/-- A candidate that is held back is refused, and nothing changes. -/
theorem beginEviction_held (rebalance : Bool) (candidate : x ∈ t.candidates keep)
    (held : t.holdsBack x.2 = true) :
    t.beginEviction x.1 rebalance = (.error .alarmImminent, t) := by
  unfold beginEviction
  rw [(Core.mem_candidates.mp candidate).1]
  exact if_pos held

/-- Every other candidate is evicted, as long as there is a permit. -/
theorem beginEviction_free (rebalance : Bool) (candidate : x ∈ t.candidates keep)
    (free : t.holdsBack x.2 = false) (room : t.evictionPermits.size < t.config.maxEvictions) :
    (t.beginEviction x.1 rebalance).1 = .ok t.nextOp ∧
      Evicts t x (t.beginEviction x.1 rebalance).2 := by
  obtain ⟨found, resident, inactive, -, covered⟩ := Core.mem_candidates.mp candidate
  have below : ¬ t.evictionCeiling ≤ t.evictionPermits.size := by
    have := evictionCeiling_ge t.toCore
    omega
  rw [Core.holdsBack] at free
  cases phase : x.2.phase with
  | resident epoch =>
    unfold beginEviction
    rw [found]
    simp only [phase, free, inactive, covered, below, Bool.false_eq_true, if_false, Bool.not_true]
    refine ⟨rfl, ?_, ?_, rfl, rfl, rfl, rfl, rfl, rfl, ?_, rfl⟩
    · exact ⟨_, t.nextOp, epoch, Std.ExtTreeMap.getElem?_insert_self, phase, rfl, rfl⟩
    · intro _ differs
      refine Std.ExtTreeMap.getElem?_insert.trans (if_neg ?_)
      simpa using differs.symm
    · simp only [push, putCell, setPhase, cellOp, Phase.occupiesCapacity]
  | _ =>
    rw [phase] at resident
    cases resident

/-- `begin_eviction` would accept a cell. -/
def Accepts (t : CoreTurn) (id : CellId) : Prop :=
  ∃ rebalance op, (t.beginEviction id rebalance).1 = .ok op

/-- What it accepts is a candidate that is not held back. -/
theorem Accepts.candidate (accepts : t.Accepts id) :
    ∃ cell, (id, cell) ∈ t.candidates (fun _ => true) ∧ t.holdsBack cell = false := by
  obtain ⟨_, _, answer⟩ := accepts
  unfold beginEviction at answer
  split at answer
  · cases answer
  rename_i cell found
  split at answer
  · cases answer
  rename_i free
  split at answer
  · cases answer
  rename_i inactive
  split at answer
  · rename_i phase
    split at answer
    · cases answer
    rename_i covered
    refine ⟨cell, Core.mem_candidates.mpr ⟨found, ?_, by simpa using inactive, rfl,
      by simpa using covered⟩, by simpa [Core.holdsBack] using free⟩
    rw [phase]
    rfl
  · cases answer

/-- With a permit left, it accepts all of those. -/
theorem accepts_iff (room : t.evictionPermits.size < t.config.maxEvictions) :
    t.Accepts id ↔
      ∃ cell, (id, cell) ∈ t.candidates (fun _ => true) ∧ t.holdsBack cell = false := by
  constructor
  · exact Accepts.candidate
  · rintro ⟨cell, candidate, free⟩
    exact ⟨false, t.nextOp, (beginEviction_free false candidate free room).1⟩

namespace Evicts

theorem holdsBack (evicts : Evicts t x u) (cell : Cell) :
    u.holdsBack cell = t.holdsBack cell := by
  simp only [Core.holdsBack, Core.alarmIsImminent, evicts.shedding, evicts.draining,
    evicts.nowMs, evicts.config]

/-- The victim is a candidate no more, and nothing else changes. -/
theorem mem_candidates (evicts : Evicts t x u) :
    y ∈ u.candidates keep ↔ y ∈ t.candidates keep ∧ y.1 ≠ x.1 := by
  rw [Core.mem_candidates, Core.mem_candidates]
  by_cases same : y.1 = x.1
  · obtain ⟨_, _, _, found, -, phase, -⟩ := evicts.here
    rw [same, found]
    constructor
    · rintro ⟨there, resident, -⟩
      rw [← Option.some.inj there, phase] at resident
      cases resident
    · rintro ⟨-, differs⟩
      exact absurd rfl differs
  · simp only [Core.isActive, evicts.others y.1 same, evicts.activeCells]
    tauto

theorem isolateOccupancy (evicts : Evicts t x u) (found : t.cells[x.1]? = some x.2)
    (isolate : HeapId) : u.isolateOccupancy isolate = t.isolateOccupancy isolate := by
  unfold Core.isolateOccupancy
  -- The tables agree once every cell is replaced by its isolate.
  have same : u.cells.map (fun _ cell => cell.isolate) = t.cells.map fun _ cell =>
      cell.isolate := by
    apply Std.ExtTreeMap.ext_getElem?
    intro key
    rw [Std.ExtTreeMap.getElem?_map, Std.ExtTreeMap.getElem?_map]
    by_cases differs : key = x.1
    · obtain ⟨cell, _, _, there, -, -, placed⟩ := evicts.here
      rw [differs, there, found, Option.map_some, Option.map_some, placed]
    · rw [evicts.others key differs]
  have lists := congrArg Std.ExtTreeMap.toList same
  rw [Std.ExtTreeMap.toList_map, Std.ExtTreeMap.toList_map] at lists
  have counts := congrArg (fun l => (l.filter fun p => p.2 = some isolate).length) lists
  simpa only [filter_map, length_map, Function.comp_def] using counts

theorem shedsBefore (evicts : Evicts t x u) (found : t.cells[x.1]? = some x.2)
    (y z : CellId × Cell) : u.shedsBefore y z = t.shedsBefore y z := by
  have ranks : ∀ cell, u.emptiest cell = t.emptiest cell := by
    intro cell
    unfold Core.emptiest
    cases cell.isolate with
    | none => rfl
    | some isolate => exact evicts.isolateOccupancy found isolate
  simp only [Core.shedsBefore, ranks]

end Evicts

end CoreTurn

/-! ## What a sweep leaves behind -/

namespace Core

/-- The permits taken once everything that sheds before `x` is being evicted. -/
def permitsBefore (c : Core) (keep : Cell → Bool) (x : CellId × Cell) : Finset CellId :=
  c.evictionPermits.toList.toFinset ∪
    (((c.candidates keep).filter (c.shedsBefore · x)).map (·.1)).toFinset

/-- No cell held back keeps a permit from a cell behind it. -/
def SweepsFreely (c : Core) (keep : Cell → Bool) : Prop :=
  ∀ x ∈ c.candidates keep, ∀ y ∈ c.candidates keep, c.holdsBack x.2 = true →
    c.holdsBack y.2 = false → c.shedsBefore x y = true →
      c.config.maxEvictions ≤ (c.permitsBefore keep x).card

/-- The permits are spent, or whatever is left is held back. -/
def Swept (c : Core) (keep : Cell → Bool) : Prop :=
  c.config.maxEvictions ≤ c.evictionPermits.size ∨
    ∀ x ∈ c.candidates keep, c.holdsBack x.2 = true

theorem card_permits (c : Core) :
    c.evictionPermits.toList.toFinset.card = c.evictionPermits.size := by
  have distinct : c.evictionPermits.toList.Nodup :=
    Std.ExtTreeSet.distinct_toList.imp fun differ same => differ (by simp [same])
  rw [toFinset_card_of_nodup distinct, Std.ExtTreeSet.length_toList]

theorem mem_permitsBefore :
    id ∈ c.permitsBefore keep x ↔ id ∈ c.evictionPermits ∨
      ∃ cell, (id, cell) ∈ c.candidates keep ∧ c.shedsBefore (id, cell) x = true := by
  simp [permitsBefore, Std.ExtTreeSet.mem_toList]

end Core

namespace CoreTurn

variable {t u : CoreTurn} {keep : Cell → Bool} {m : CellId × Cell}

/-- Evicting the cell that sheds first changes nothing for the cells behind it. -/
theorem Evicts.sweepsFreely (evicts : Evicts t m u) (candidate : m ∈ t.candidates keep)
    (first : ∀ x ∈ t.candidates keep, t.shedsBefore x m = false)
    (free : t.holdsBack m.2 = false) : u.SweepsFreely keep ↔ t.SweepsFreely keep := by
  have found := (Core.mem_candidates.mp candidate).1
  have spent : ∀ x ∈ t.candidates keep, x.1 ≠ m.1 →
      u.permitsBefore keep x = t.permitsBefore keep x := by
    intro x mem differs
    ext id
    rw [Core.mem_permitsBefore, Core.mem_permitsBefore, evicts.permits, Std.ExtTreeSet.mem_insert]
    simp only [evicts.mem_candidates, evicts.shedsBefore found, Std.LawfulEqCmp.compare_eq_iff_eq]
    constructor
    · rintro ((rfl | taken) | ⟨cell, ⟨there, -⟩, before⟩)
      · exact .inr ⟨m.2, candidate, Core.shedsBefore_total (Ne.symm differs) (first x mem)⟩
      · exact .inl taken
      · exact .inr ⟨cell, there, before⟩
    · rintro (taken | ⟨cell, there, before⟩)
      · exact .inl (.inr taken)
      · by_cases same : id = m.1
        · exact .inl (.inl same.symm)
        · exact .inr ⟨cell, ⟨there, same⟩, before⟩
  constructor
  · intro sweeps x mem y mem' held free' before
    have differs : x.1 ≠ m.1 := by
      intro same
      rw [Core.candidate_unique mem candidate same, free] at held
      cases held
    have differs' : y.1 ≠ m.1 := by
      intro same
      rw [Core.candidate_unique mem' candidate same, first x mem] at before
      cases before
    have bound := sweeps x (evicts.mem_candidates.mpr ⟨mem, differs⟩) y
      (evicts.mem_candidates.mpr ⟨mem', differs'⟩) (by rwa [evicts.holdsBack])
      (by rwa [evicts.holdsBack]) (by rwa [evicts.shedsBefore found])
    rwa [evicts.config, spent x mem differs] at bound
  · intro sweeps x mem y mem' held free' before
    obtain ⟨mem, differs⟩ := evicts.mem_candidates.mp mem
    obtain ⟨mem', -⟩ := evicts.mem_candidates.mp mem'
    rw [evicts.config, spent x mem differs]
    exact sweeps x mem y mem' (by rwa [evicts.holdsBack] at held)
      (by rwa [evicts.holdsBack] at free') (by rwa [evicts.shedsBefore found] at before)

/-- Every eviction leaves fewer candidates, which bounds the passes of a sweep. -/
theorem Evicts.length_lt (evicts : Evicts t m u) (candidate : m ∈ t.candidates keep) :
    (u.candidates keep).length < (t.candidates keep).length := by
  have distinct : ∀ c : Core, (c.candidates keep).Nodup := by
    intro c
    refine List.Nodup.filter _ (Std.ExtTreeMap.distinct_keys_toList.imp ?_)
    intro x _ differ same
    exact differ (by simp [same])
  rw [← toFinset_card_of_nodup (distinct u.toCore),
    ← toFinset_card_of_nodup (distinct t.toCore)]
  refine Finset.card_lt_card (Finset.ssubset_iff_subset_ne.mpr ⟨?_, ?_⟩)
  · intro x mem
    rw [mem_toFinset, evicts.mem_candidates] at mem
    exact mem_toFinset.mpr mem.1
  · intro same
    have there := mem_toFinset.mpr candidate
    rw [← same, mem_toFinset, evicts.mem_candidates] at there
    exact there.2 rfl

/-- With no permit left there is nothing to sweep. -/
theorem sweepsFreely_of_spent (spent : t.config.maxEvictions ≤ t.evictionPermits.size) :
    t.SweepsFreely keep := by
  intro _ _ _ _ _ _ _
  refine spent.trans ?_
  rw [← t.toCore.card_permits]
  exact Finset.card_le_card Finset.subset_union_left

/-- A cell held back that sheds first stops a sweep with a permit left. -/
theorem sweepsFreely_of_held (candidate : m ∈ t.candidates keep)
    (first : ∀ x ∈ t.candidates keep, t.shedsBefore x m = false)
    (held : t.holdsBack m.2 = true) (room : t.evictionPermits.size < t.config.maxEvictions) :
    t.SweepsFreely keep ↔ ∀ x ∈ t.candidates keep, t.holdsBack x.2 = true := by
  constructor
  · intro sweeps y mem'
    by_contra free
    have free : t.holdsBack y.2 = false := by simpa using free
    have differs : m.1 ≠ y.1 := by
      intro same
      rw [Core.candidate_unique candidate mem' same, free] at held
      cases held
    have bound := sweeps m candidate y mem' held free
      (Core.shedsBefore_total differs (first y mem'))
    have none_before : t.permitsBefore keep m = t.evictionPermits.toList.toFinset := by
      unfold Core.permitsBefore
      rw [filter_eq_nil_iff.mpr (fun x mem => by simp [first x mem])]
      simp
    rw [none_before, t.toCore.card_permits] at bound
    omega
  · intro all x mem y mem' _ free
    rw [all y mem'] at free
    cases free

/-- **The sweep of `evict_idle`** leaves nothing acceptable behind exactly if nothing held back
stands in front of it. -/
theorem evictIdleLoop_swept (nowMonoMs idleMs fuel : ℕ) :
    ∀ t : CoreTurn, (t.candidates (isIdle nowMonoMs idleMs)).length ≤ fuel →
      ((evictIdleLoop nowMonoMs idleMs fuel t).Swept (isIdle nowMonoMs idleMs) ↔
        t.SweepsFreely (isIdle nowMonoMs idleMs)) := by
  induction fuel with
  | zero =>
    intro t few
    have blank : t.candidates (isIdle nowMonoMs idleMs) = [] :=
      eq_nil_of_length_eq_zero (by omega)
    simp [evictIdleLoop, Core.Swept, Core.SweepsFreely, blank]
  | succ fuel ih =>
    intro t few
    unfold evictIdleLoop
    split
    case isFalse full =>
      have spent : t.config.maxEvictions ≤ t.evictionPermits.size := by omega
      exact iff_of_true (.inl spent) (sweepsFreely_of_spent spent)
    case isTrue room =>
      split
      case h_1 picked =>
        have blank := Core.shedCandidateWhere_none picked
        simp [Core.Swept, Core.SweepsFreely, blank]
      case h_2 id picked =>
        obtain ⟨cell, candidate, first⟩ := Core.shedCandidateWhere_some picked
        cases held : t.holdsBack cell with
        | true =>
          rw [beginEviction_held false candidate held]
          simp only [Core.Swept]
          rw [sweepsFreely_of_held candidate first held room, or_iff_right (by omega)]
        | false =>
          obtain ⟨answer, evicts⟩ := beginEviction_free false candidate held room
          have few' := evicts.length_lt candidate
          rw [← evicts.sweepsFreely candidate first held, ← ih _ (by omega)]
          split
          case h_1 refused =>
            rw [refused] at answer
            cases answer
          case h_2 op u begun => rw [begun]

/-- The walk down is done: the floor is in sight, or no permit or no candidate is left. -/
def Floored (t : CoreTurn) : Prop :=
  t.occupied - t.evictionPermits.size ≤ t.shedFloor ∨
    t.config.maxEvictions ≤ t.evictionPermits.size ∨ t.candidates (fun _ => true) = []

/-- A latched node holds nothing back, so its walk goes to the end. -/
theorem shedTowardFloorLoop_floored (fuel : ℕ) :
    ∀ t : CoreTurn, t.shedding = true → (t.candidates fun _ => true).length ≤ fuel →
      (shedTowardFloorLoop fuel t).Floored := by
  induction fuel with
  | zero =>
    intro t _ few
    exact .inr (.inr (eq_nil_of_length_eq_zero (Nat.le_zero.mp few)))
  | succ fuel ih =>
    intro t latched few
    unfold shedTowardFloorLoop
    split
    case isFalse done =>
      simp only [Bool.and_eq_true, decide_eq_true_eq, not_and_or, not_lt] at done
      exact done.elim (fun spent => .inr (.inl spent)) .inl
    case isTrue wanted =>
      have room : t.evictionPermits.size < t.config.maxEvictions := by
        simp only [Bool.and_eq_true, decide_eq_true_eq] at wanted
        exact wanted.1
      split
      case h_1 picked => exact .inr (.inr (Core.shedCandidateWhere_none picked))
      case h_2 id picked =>
        obtain ⟨cell, candidate, _⟩ := Core.shedCandidateWhere_some picked
        have free : t.holdsBack cell = false := by simp [Core.holdsBack, latched]
        obtain ⟨answer, evicts⟩ := beginEviction_free t.rebalances candidate free room
        split
        case h_1 refused =>
          rw [refused] at answer
          cases answer
        case h_2 op u begun =>
          rw [begun] at evicts
          have fewer : (u.candidates fun _ => true).length < (t.candidates fun _ => true).length :=
            evicts.length_lt candidate
          exact ih u (evicts.shedding.trans latched) (by omega)

theorem not_accepts_of_held (held : ∀ x ∈ t.candidates fun _ => true,
    t.holdsBack x.2 = true) : ¬ t.Accepts id := by
  intro accepts
  obtain ⟨_, candidate, free⟩ := accepts.candidate
  rw [held _ candidate] at free
  cases free

theorem candidates_length_le (t : CoreTurn) (keep : Cell → Bool) :
    (t.candidates keep).length ≤ t.cells.size := by
  rw [← Std.ExtTreeMap.length_toList]
  exact length_filter_le _ _

/-- What a sweep leaves, in the words of `begin_eviction`. -/
theorem swept_iff : t.Swept keep ↔ t.config.maxEvictions ≤ t.evictionPermits.size ∨
    ∀ (id : CellId) (cell : Cell), t.cells[id]? = some cell → keep cell = true →
      ¬ t.Accepts id := by
  unfold Core.Swept
  by_cases spent : t.config.maxEvictions ≤ t.evictionPermits.size
  · exact iff_of_true (.inl spent) (.inl spent)
  · rw [or_iff_right spent, or_iff_right spent]
    have room : t.evictionPermits.size < t.config.maxEvictions := by omega
    constructor
    · intro held id cell found kept accepts
      obtain ⟨other, candidate, free⟩ := accepts.candidate
      obtain ⟨there, resident, inactive, -, covered⟩ := Core.mem_candidates.mp candidate
      obtain rfl : cell = other := Option.some.inj (found.symm.trans there)
      rw [held (id, cell) (Core.mem_candidates.mpr ⟨found, resident, inactive, kept, covered⟩)]
        at free
      cases free
    · intro refused x mem
      obtain ⟨found, resident, inactive, kept, covered⟩ := Core.mem_candidates.mp mem
      by_contra free
      refine refused x.1 x.2 found kept ((accepts_iff room).mpr ⟨x.2, ?_, by simpa using free⟩)
      exact Core.mem_candidates.mpr ⟨found, resident, inactive, rfl, covered⟩

/-- After `shed_one`: its guard was closed, an eviction has begun, or no resident cell would be
accepted. -/
def ShedOneSettles (t : CoreTurn) : Prop :=
  (t.shedding = true ∨ t.capacityWaiters.length ≤ t.evictionPermits.size ∨
    t.config.maxEvictions ≤ t.evictionPermits.size) ∨
  (∃ (id : CellId) (cell next : Cell) (op : OpId) (epoch : Epoch), t.cells[id]? = some cell ∧
    cell.phase = .resident epoch ∧ t.shedOne.cells[id]? = some next ∧
    next.phase = .ensuringDurability op epoch) ∨
  ∀ id, ¬ t.shedOne.Accepts id

/-- After `evict_idle` on a node that is not latched: no permit is left, or no idle cell would be
accepted. -/
def EvictIdleSettles (t : CoreTurn) (nowMonoMs : ℕ) : Prop :=
  ∀ idleMs, t.config.idleEvictMs = some idleMs → t.shedding = false →
    (t.evictIdle nowMonoMs).config.maxEvictions ≤ (t.evictIdle nowMonoMs).evictionPermits.size ∨
    ∀ (id : CellId) (cell : Cell), (t.evictIdle nowMonoMs).cells[id]? = some cell →
      isIdle nowMonoMs idleMs cell = true → ¬ (t.evictIdle nowMonoMs).Accepts id

/-- After `shed_toward_floor` on a latched node: the floor is in sight, no permit is left, or no
cell would be accepted. -/
def ShedTowardFloorSettles (t : CoreTurn) : Prop :=
  t.shedding = true →
    t.shedTowardFloor.occupied - t.shedTowardFloor.evictionPermits.size
        ≤ t.shedTowardFloor.shedFloor ∨
    t.shedTowardFloor.config.maxEvictions ≤ t.shedTowardFloor.evictionPermits.size ∨
    ∀ id, ¬ t.shedTowardFloor.Accepts id

/-- With its guard open, `shed_one` is not stopped in front of a cell it could take: if the cell
that sheds first is held back, every candidate is. -/
def ShedsFreely (t : CoreTurn) : Prop :=
  t.shedding = false → t.evictionPermits.size < t.capacityWaiters.length →
    t.evictionPermits.size < t.config.maxEvictions →
      ∀ m ∈ t.candidates fun _ => true,
        (∀ x ∈ t.candidates fun _ => true, t.shedsBefore x m = false) →
          t.holdsBack m.2 = true → ∀ x ∈ t.candidates fun _ => true, t.holdsBack x.2 = true

/-- Two candidates that shed first are one. -/
theorem first_unique (mem : x ∈ t.candidates keep) (mem' : y ∈ t.candidates keep)
    (first : t.shedsBefore y x = false) (first' : t.shedsBefore x y = false) : x = y := by
  refine Core.candidate_unique mem mem' ?_
  by_contra differ
  rw [Core.shedsBefore_total differ first] at first'
  cases first'

theorem shedOneSettles_iff : t.ShedOneSettles ↔ t.ShedsFreely := by
  by_cases closed : t.shedding = true ∨ t.capacityWaiters.length ≤ t.evictionPermits.size ∨
      t.config.maxEvictions ≤ t.evictionPermits.size
  · refine iff_of_true (.inl closed) fun relaxed waiting room => ?_
    rcases closed with latched | _ | _
    · rw [relaxed] at latched
      cases latched
    · omega
    · omega
  · rw [ShedOneSettles, or_iff_right closed]
    simp only [not_or, not_le, Bool.not_eq_true] at closed
    obtain ⟨relaxed, waiting, room⟩ := closed
    have closed : ¬ (t.shedding || decide (t.capacityWaiters.length ≤ t.evictionPermits.size) ||
        decide (t.config.maxEvictions ≤ t.evictionPermits.size)) = true := by
      simp only [relaxed, Bool.or_eq_true, decide_eq_true_eq, Bool.false_eq_true, false_or]
      omega
    unfold shedOne
    rw [if_neg closed]
    split
    case h_1 id picked =>
      obtain ⟨cell, candidate, first⟩ := Core.shedCandidateWhere_some picked
      cases held : t.holdsBack cell with
      | true =>
        rw [beginEviction_held t.rebalances candidate held]
        constructor
        · rintro (⟨id, cell, next, op, epoch, found, phase, there, evicting⟩ | refused)
          · cases found.symm.trans there
            cases phase.symm.trans evicting
          · intro _ _ _ m mem least heldBack x mem'
            by_contra free
            exact refused x.1 ((accepts_iff room).mpr ⟨x.2, mem', by simpa using free⟩)
        · intro frees
          exact .inr fun _ => not_accepts_of_held
            (frees relaxed waiting room (id, cell) candidate first held)
      | false =>
        obtain ⟨-, evicts⟩ := beginEviction_free t.rebalances candidate held room
        refine iff_of_true (.inl ?_) ?_
        · obtain ⟨next, op, epoch, there, phase, evicting, -⟩ := evicts.here
          obtain ⟨found, -⟩ := Core.mem_candidates.mp candidate
          exact ⟨id, cell, next, op, epoch, found, phase, there, evicting⟩
        · intro _ _ _ m mem least heldBack
          rw [first_unique mem candidate (least _ candidate) (first m mem), held] at heldBack
          cases heldBack
    case h_2 picked =>
      have blank := Core.shedCandidateWhere_none picked
      refine iff_of_true (.inr fun id => not_accepts_of_held ?_) ?_
      · simp [blank]
      · simp [ShedsFreely, blank]

theorem evictIdleSettles_iff (nowMonoMs : ℕ) : t.EvictIdleSettles nowMonoMs ↔
    ∀ idleMs, t.config.idleEvictMs = some idleMs → t.shedding = false →
      t.SweepsFreely (isIdle nowMonoMs idleMs) := by
  unfold EvictIdleSettles
  refine forall_congr' fun idleMs => imp_congr_right fun idle => imp_congr_right fun relaxed => ?_
  have swept : t.evictIdle nowMonoMs = evictIdleLoop nowMonoMs idleMs t.cells.size t := by
    simp [evictIdle, idle, relaxed]
  rw [swept, ← swept_iff]
  exact evictIdleLoop_swept nowMonoMs idleMs _ t (t.candidates_length_le _)

theorem shedTowardFloorSettles (t : CoreTurn) : t.ShedTowardFloorSettles := by
  intro latched
  unfold shedTowardFloor
  split
  case isTrue closed =>
    have low : t.occupied ≤ t.shedFloor := by simpa [latched] using closed
    exact .inl (by omega)
  case isFalse =>
    rcases shedTowardFloorLoop_floored _ t latched (t.candidates_length_le _)
      with low | spent | blank
    · exact .inl low
    · exact .inr (.inl spent)
    · refine .inr (.inr fun id => not_accepts_of_held ?_)
      simp [blank]

/-- **One refused victim hides nothing, exactly if nothing is held back in front of it.**  The
walk toward the floor is never hindered; `shed_one` is if the cell that sheds first is held back
and another candidate is not, and `evict_idle` if a cell held back has its turn, while permits
are left, before one that is not. -/
theorem sheds_unhindered_iff (t : CoreTurn) (nowMonoMs : ℕ) :
    (t.ShedOneSettles ∧ t.EvictIdleSettles nowMonoMs ∧ t.ShedTowardFloorSettles) ↔
      t.ShedsFreely ∧ ∀ idleMs, t.config.idleEvictMs = some idleMs → t.shedding = false →
        t.SweepsFreely (isIdle nowMonoMs idleMs) := by
  rw [shedOneSettles_iff, evictIdleSettles_iff]
  exact and_congr_right fun _ => and_iff_left t.shedTowardFloorSettles

end CoreTurn

namespace Run

/-- Two slots: the idle cells `a`, whose alarm is due within the second, and `b`, which has none,
are resident, and cell `c` waits for a slot. -/
def fullNode : Run Unit where
  node := "n"
  config := { sampleConfig with maxResident := 2 }
  events := bootEvents ++ [.activityFinished 1, .alarmObserved "a" ⟨some 500, none⟩ true 0 0,
    .request 2 "b", .ownerRead 6 0 (.ok none), .ownerCasCompleted 7 (.ok .applied),
    .restoreCompleted 8 (.ok ⟨false, none⟩), .runtimeStarted 9 none 0 (.ok ()),
    .published 10 (.ok ()), .activityFinished 2, .request 3 "c", .ownerRead 11 0 (.ok none)]

/-- The core of the node after the run. -/
def fullCore : CoreTurn := { (fullNode.stateAt 17).toCore with effects := [] }

/-- Cell `a` sheds first and is refused, `b` would be accepted, and `c` waits on. -/
theorem fullNode_hindered :
    fullCore.capacityWaiters = ["c"] ∧ fullCore.evictionPermits.size = 0 ∧
      fullCore.shedCandidate = some "a" ∧ fullCore.Accepts "b" ∧ ¬ fullCore.ShedOneSettles := by
  have waiting : fullCore.capacityWaiters = ["c"] := by decide +kernel
  have permits : fullCore.evictionPermits.size = 0 := by decide +kernel
  have accepts : fullCore.Accepts "b" := ⟨false, 12, by decide +kernel⟩
  have picked : fullCore.shedCandidate = some "a" := by decide +kernel
  refine ⟨waiting, permits, picked, accepts, fun settles => ?_⟩
  have frees := CoreTurn.shedOneSettles_iff.mp settles
  obtain ⟨cell, candidate, first⟩ := Core.shedCandidateWhere_some picked
  have held : (fullCore.cells["a"]?).map fullCore.holdsBack = some true := by decide +kernel
  rw [(Core.mem_candidates.mp candidate).1] at held
  exact CoreTurn.not_accepts_of_held (frees (by decide +kernel) (by decide +kernel)
    (by decide +kernel) ("a", cell) candidate first (Option.some.inj held)) accepts

end Run

end Celld
