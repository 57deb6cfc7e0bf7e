import Mathlib

/-!
# Runs of keyed values, the newest first in precedence

A run is a list of keyed values in increasing order of keys.  Of several runs, oldest
first, the newest that holds a key decides its value.  A merge takes the runs apart from
the front, the least key at a time; the lemmas say what one round of it does to every
lookup.
-/

namespace Wire

open List

variable {α β : Type} [LinearOrder α]

/-- Keys stand in increasing order. -/
def Increasing (run : List (α × β)) : Prop := (run.map Prod.fst).Pairwise (· < ·)

/-- The value a run holds for a key. -/
def lookup (key : α) (run : List (α × β)) : Option β :=
  (run.find? fun entry => entry.1 = key).map Prod.snd

/-- The value that runs hold for a key, oldest run first. -/
def newest (key : α) : List (List (α × β)) → Option β
  | [] => none
  | run :: newer => (newest key newer).or (lookup key run)

/-- A map with the value of a key set. -/
def assign (map : α → Option β) (entry : α × β) : α → Option β := fun key =>
  if key = entry.1 then some entry.2 else map key

/-- Drop the key if it is in front. -/
def advance (key : α) : List (α × β) → List (α × β)
  | [] => []
  | entry :: run => if entry.1 = key then run else entry :: run

section Lookup

variable {key other : α} {value : β} {run : List (α × β)}

@[simp] theorem lookup_nil : lookup key ([] : List (α × β)) = none := rfl

theorem lookup_cons (entry : α × β) :
    lookup key (entry :: run) = if entry.1 = key then some entry.2 else lookup key run := by
  unfold lookup
  by_cases same : entry.1 = key <;> simp [same]

theorem mem_of_lookup (found : lookup key run = some value) : (key, value) ∈ run := by
  obtain ⟨entry, eq, rfl⟩ := Option.map_eq_some_iff.mp found
  have same : entry.1 = key := by simpa using find?_some eq
  rw [← same]
  exact mem_of_find?_eq_some eq

theorem lookup_eq_none_iff : lookup key run = none ↔ key ∉ run.map Prod.fst := by
  rw [lookup, Option.map_eq_none_iff, find?_eq_none]
  constructor
  · intro absent mem
    obtain ⟨entry, held, same⟩ := mem_map.mp mem
    exact absent entry held (decide_eq_true same)
  · intro absent entry held same
    exact absent (mem_map.mpr ⟨entry, held, of_decide_eq_true same⟩)

/-- In an increasing run a key has one value. -/
theorem Increasing.lookup_eq_some_iff (increasing : Increasing run) :
    lookup key run = some value ↔ (key, value) ∈ run := by
  refine ⟨mem_of_lookup, ?_⟩
  induction run with
  | nil => exact fun mem => by cases mem
  | cons entry run ih =>
    intro mem
    obtain ⟨first, rest⟩ := pairwise_cons.mp increasing
    rw [lookup_cons]
    rcases mem_cons.mp mem with rfl | later
    · exact if_pos rfl
    · have less : entry.1 < key := first key (mem_map.mpr ⟨_, later, rfl⟩)
      rw [if_neg less.ne]
      exact ih rest later

theorem Increasing.tail {entry : α × β} (increasing : Increasing (entry :: run)) : Increasing run :=
  (pairwise_cons.mp increasing).2

theorem advance_sublist (key : α) (run : List (α × β)) : (advance key run).Sublist run := by
  cases run with
  | nil => exact .slnil
  | cons entry run =>
    rw [advance]
    split
    · exact sublist_cons_self entry run
    · exact .refl _

theorem Increasing.advance (increasing : Increasing run) (key : α) :
    Increasing (Wire.advance key run) := increasing.sublist ((advance_sublist key run).map _)

/-- A key that no other in the run precedes is gone once dropped. -/
theorem Increasing.lookup_advance_self (increasing : Increasing run)
    (least : ∀ entry ∈ run, key ≤ entry.1) : lookup key (Wire.advance key run) = none := by
  rw [lookup_eq_none_iff]
  cases run with
  | nil => exact not_mem_nil
  | cons entry run =>
    have above : ∀ later ∈ run.map Prod.fst, entry.1 < later := (pairwise_cons.mp increasing).1
    rw [Wire.advance]
    split
    · rename_i same
      intro mem
      exact absurd (above key mem) (same ▸ lt_irrefl _)
    · rename_i differ
      intro mem
      rcases mem_cons.mp mem with same | later
      · exact differ same.symm
      · exact absurd (above key later) (not_lt.mpr (least entry mem_cons_self))

theorem lookup_advance_of_ne (differ : other ≠ key) :
    lookup other (advance key run) = lookup other run := by
  cases run with
  | nil => rfl
  | cons entry run =>
    rw [advance]
    split
    · rename_i same
      rw [lookup_cons, if_neg]
      rintro rfl
      exact differ same
    · rfl

/-- Looking up behind a filter of the keys and a map of the values. -/
theorem lookup_filter_map {γ : Type} (keep : α → Bool) (f : α × β → γ) :
    lookup key ((run.filter fun entry => keep entry.1).map fun entry => (entry.1, f entry))
      = if keep key then (lookup key run).map fun value => f (key, value) else none := by
  induction run with
  | nil => simp
  | cons entry run ih =>
    rw [filter_cons, lookup_cons]
    by_cases same : entry.1 = key
    · subst same
      by_cases kept : keep entry.1 = true
      · rw [if_pos kept, map_cons, lookup_cons, if_pos rfl, if_pos kept, if_pos rfl]
        rfl
      · rw [if_neg kept, ih, if_neg kept, if_neg kept]
    · by_cases kept : keep entry.1 = true
      · rw [if_pos kept, map_cons, lookup_cons, if_neg same, ih, if_neg same]
      · rw [if_neg kept, ih, if_neg same]

theorem Increasing.filter_map {γ : Type} (increasing : Increasing run) (keep : α × β → Bool)
    (f : α × β → γ) :
    Increasing ((run.filter keep).map fun entry => (entry.1, f entry)) := by
  refine pairwise_map.mpr (pairwise_map.mpr ?_)
  exact (pairwise_map.mp increasing).filter keep

/-- A run is given by its entries. -/
theorem Increasing.ext {other : List (α × β)} (increasing : Increasing run)
    (increasing' : Increasing other) (same : ∀ entry, entry ∈ run ↔ entry ∈ other) :
    run = other := by
  have irrefl : Std.Irrefl fun a b : α × β => a.1 < b.1 := ⟨fun _ => lt_irrefl _⟩
  have antisymm : Std.Antisymm fun a b : α × β => a.1 < b.1 :=
    ⟨fun _ _ less more => absurd less (lt_asymm more)⟩
  exact (pairwise_map.mp increasing).eq_of_mem_iff (pairwise_map.mp increasing') same

/-- The value of a least key is the one in front. -/
theorem Increasing.lookup_least (increasing : Increasing run)
    (least : ∀ entry ∈ run, key ≤ entry.1) :
    lookup key run = (run.head?.filter fun entry => entry.1 = key).map Prod.snd := by
  cases run with
  | nil => rfl
  | cons entry run =>
    rw [lookup_cons, head?_cons]
    by_cases same : entry.1 = key
    · simp [Option.filter, same]
    · have absent : lookup key run = none := by
        rw [lookup_eq_none_iff]
        intro mem
        have above : entry.1 < key := (pairwise_cons.mp increasing).1 key mem
        exact absurd above (not_lt.mpr (least entry mem_cons_self))
      simp [Option.filter, same, absent]

end Lookup

section Newest

variable {key : α} {value : β} {runs : List (List (α × β))}

theorem newest_append (older newer : List (List (α × β))) :
    newest key (older ++ newer) = (newest key newer).or (newest key older) := by
  induction older with
  | nil => simp [newest]
  | cons run older ih => rw [cons_append, newest, ih, newest, Option.or_assoc]

theorem newest_eq_none_iff : newest key runs = none ↔ ∀ run ∈ runs, lookup key run = none := by
  induction runs with
  | nil => simp [newest]
  | cons run runs ih => simp [newest, ih, and_comm]

theorem exists_of_newest (found : newest key runs = some value) :
    ∃ run ∈ runs, lookup key run = some value := by
  induction runs with
  | nil => cases found
  | cons run runs ih =>
    rw [newest, Option.or_eq_some_iff] at found
    rcases found with later | ⟨_, here⟩
    · obtain ⟨held, mem, eq⟩ := ih later
      exact ⟨held, mem_cons_of_mem _ mem, eq⟩
    · exact ⟨run, mem_cons_self, here⟩

/-- Dropping a least key leaves every other lookup alone. -/
theorem newest_advance_of_ne {other : α} (differ : other ≠ key) :
    newest other (runs.map (advance key)) = newest other runs := by
  induction runs with
  | nil => rfl
  | cons run runs ih => rw [map_cons, newest, newest, ih, lookup_advance_of_ne differ]

theorem newest_advance_self (increasing : ∀ run ∈ runs, Increasing run)
    (least : ∀ run ∈ runs, ∀ entry ∈ run, key ≤ entry.1) :
    newest key (runs.map (advance key)) = none := by
  rw [newest_eq_none_iff]
  intro run mem
  obtain ⟨old, here, rfl⟩ := mem_map.mp mem
  exact (increasing old here).lookup_advance_self (least old here)

end Newest

section Assign

variable {map : α → Option β} {run : List (α × β)} {runs : List (List (α × β))}

/-- A map with the values of a run set holds them. -/
theorem foldl_assign (increasing : Increasing run) :
    run.foldl assign map = fun key => (lookup key run).or (map key) := by
  induction run generalizing map with
  | nil => rfl
  | cons entry run ih =>
    rw [foldl_cons, ih increasing.tail]
    funext key
    rw [lookup_cons]
    by_cases same : entry.1 = key
    · -- A later key is greater.
      have absent : lookup key run = none := by
        rw [lookup_eq_none_iff, ← same]
        exact fun mem => lt_irrefl _ ((pairwise_cons.mp increasing).1 _ mem)
      rw [absent, if_pos same]
      simp [assign, same]
    · rw [if_neg same]
      simp [assign, Ne.symm same]

/-- A map with the values of runs set, oldest run first, holds the newest of them. -/
theorem foldl_assign_runs (increasing : ∀ run ∈ runs, Increasing run) :
    runs.foldl (fun map run => run.foldl assign map) map
      = fun key => (newest key runs).or (map key) := by
  induction runs generalizing map with
  | nil => rfl
  | cons run runs ih =>
    obtain ⟨here, rest⟩ := forall_mem_cons.mp increasing
    rw [foldl_cons, ih rest, foldl_assign here]
    funext key
    rw [newest, Option.or_assoc]

end Assign

/-! ## Merging -/

/-- The least of some keys. -/
def least? (keys : List α) : Option α :=
  keys.foldl (fun least key => some (least.elim key (min · key))) none

theorem least?_eq_min? (keys : List α) : least? keys = keys.min? := by
  have fold : ∀ (keys : List α) (start : α),
      keys.foldl (fun least key => some (least.elim key (min · key))) (some start)
        = some (keys.foldl min start) := by
    intro keys
    induction keys with
    | nil => exact fun _ => rfl
    | cons key keys ih => exact fun start => ih (min start key)
  cases keys with
  | nil => rfl
  | cons key keys => exact fold keys key

theorem least?_cases (keys : List α) :
    (keys = [] ∧ least? keys = none) ∨
      ∃ least, least? keys = some least ∧ least ∈ keys ∧ ∀ key ∈ keys, least ≤ key := by
  rw [least?_eq_min?]
  cases found : keys.min? with
  | none => exact .inl ⟨min?_eq_none_iff.mp found, rfl⟩
  | some least => exact .inr ⟨least, rfl, min?_eq_some_iff.mp found⟩

/-- The keys in front of the runs. -/
def fronts (runs : List (List (α × β))) : List α := runs.filterMap fun run => run.head?.map Prod.fst

/-- The merge of runs: the least key in front, with its newest value if the key is kept,
and then the merge of what is left. -/
def mergeRuns (keep : α → Bool) : ℕ → List (List (α × β)) → List (α × β)
  | 0, _ => []
  | fuel + 1, runs =>
      match least? (fronts runs) with
      | none => []
      | some key =>
          ((newest key runs).filter fun _ => keep key).toList.map (Prod.mk key) ++
            mergeRuns keep fuel (runs.map (advance key))

/-- How many values the runs hold. -/
def size (runs : List (List (α × β))) : ℕ := (runs.map List.length).sum

section Fronts

omit [LinearOrder α]

variable {key : α} {runs : List (List (α × β))}

theorem mem_fronts : key ∈ fronts runs ↔ ∃ value run, (key, value) :: run ∈ runs := by
  rw [fronts, mem_filterMap]
  constructor
  · rintro ⟨run, mem, front⟩
    cases run with
    | nil => cases front
    | cons entry run =>
      cases front
      exact ⟨entry.2, run, mem⟩
  · rintro ⟨value, run, mem⟩
    exact ⟨_, mem, rfl⟩

end Fronts

section Merging

variable {keep : α → Bool} {key : α} {runs : List (List (α × β))}

/-- The least key in front is a least key. -/
theorem least_of_fronts (increasing : ∀ run ∈ runs, Increasing run)
    (front : ∀ other ∈ fronts runs, key ≤ other) : ∀ run ∈ runs, ∀ entry ∈ run, key ≤ entry.1 := by
  intro run mem entry held
  cases run with
  | nil => cases held
  | cons first run =>
    have here : key ≤ first.1 := front first.1 (mem_fronts.mpr ⟨first.2, run, mem⟩)
    rcases mem_cons.mp held with rfl | later
    · exact here
    · have above : first.1 < entry.1 :=
        (pairwise_cons.mp (increasing _ mem)).1 entry.1 (mem_map.mpr ⟨entry, later, rfl⟩)
      exact here.trans (le_of_lt above)

theorem size_advance_lt (front : key ∈ fronts runs) :
    size (runs.map (advance key)) < size runs := by
  obtain ⟨_, run, mem⟩ := mem_fronts.mp front
  rw [size, size, map_map]
  exact sum_lt_sum _ _ (fun run _ => (advance_sublist key run).length_le)
    ⟨_, mem, by simp [advance]⟩

/-- Without a key in front there is nothing to merge. -/
theorem newest_of_fronts_nil (none_ : fronts runs = []) : newest key runs = none := by
  rw [newest_eq_none_iff]
  intro run mem
  cases run with
  | nil => rfl
  | cons entry run =>
    have front : entry.1 ∈ fronts runs := mem_fronts.mpr ⟨entry.2, run, mem⟩
    rw [none_] at front
    cases front

theorem Increasing.advance_all (increasing : ∀ run ∈ runs, Increasing run) (key : α) :
    ∀ run ∈ runs.map (Wire.advance key), Increasing run := by
  intro run mem
  obtain ⟨old, here, rfl⟩ := mem_map.mp mem
  exact (increasing old here).advance key

/-- **A merge holds the newest value of every key that is kept.** -/
theorem mem_mergeRuns (increasing : ∀ run ∈ runs, Increasing run) {fuel : ℕ}
    (enough : size runs < fuel) {key : α} {value : β} :
    (key, value) ∈ mergeRuns keep fuel runs ↔ keep key = true ∧ newest key runs = some value := by
  induction fuel generalizing runs with
  | zero => cases enough
  | succ fuel ih =>
    rw [mergeRuns]
    rcases least?_cases (fronts runs) with ⟨empty, front⟩ | ⟨least, front, held, below⟩
    · rw [front, newest_of_fronts_nil empty]
      simp
    · rw [front]
      have first := least_of_fronts increasing below
      have smaller : size (runs.map (advance least)) < fuel :=
        Nat.lt_of_lt_of_le (size_advance_lt held) (Nat.le_of_lt_succ enough)
      rw [mem_append, ih (Increasing.advance_all increasing least) smaller]
      by_cases same : key = least
      · subst same
        rw [newest_advance_self increasing first]
        simp [Option.mem_toList, Option.filter_eq_some_iff, and_comm]
      · rw [newest_advance_of_ne same]
        simp [Ne.symm same]

/-- **A merge is in increasing order.** -/
theorem increasing_mergeRuns (increasing : ∀ run ∈ runs, Increasing run) {fuel : ℕ}
    (enough : size runs < fuel) : Increasing (mergeRuns keep fuel runs) := by
  induction fuel generalizing runs with
  | zero => cases enough
  | succ fuel ih =>
    rw [mergeRuns]
    rcases least?_cases (fronts runs) with ⟨_, front⟩ | ⟨least, front, held, below⟩
    · rw [front]
      exact List.Pairwise.nil
    · rw [front]
      have first := least_of_fronts increasing below
      have smaller : size (runs.map (advance least)) < fuel :=
        Nat.lt_of_lt_of_le (size_advance_lt held) (Nat.le_of_lt_succ enough)
      have advanced := Increasing.advance_all increasing least
      have rest := ih advanced smaller
      dsimp only
      cases found : (newest least runs).filter fun _ => keep least with
      | none => exact rest
      | some value =>
        refine pairwise_cons.mpr ⟨?_, rest⟩
        intro key mem
        obtain ⟨⟨other, value⟩, later, rfl⟩ := mem_map.mp mem
        obtain ⟨_, kept⟩ := (mem_mergeRuns advanced smaller).mp later
        -- What is left lies above the least key.
        obtain ⟨run, here, eq⟩ := exists_of_newest kept
        obtain ⟨old, had, rfl⟩ := mem_map.mp here
        have differ : other ≠ least := by
          rintro rfl
          rw [(increasing old had).lookup_advance_self (first old had)] at eq
          cases eq
        have above := first old had _ ((advance_sublist least old).subset (mem_of_lookup eq))
        exact lt_of_le_of_ne above (Ne.symm differ)

/-- Fuel beyond what is needed changes nothing. -/
theorem mergeRuns_fuel {fuel more : ℕ} (enough : size runs < fuel) (enough' : size runs < more) :
    mergeRuns keep fuel runs = mergeRuns keep more runs := by
  induction fuel generalizing more runs with
  | zero => cases enough
  | succ fuel ih =>
    cases more with
    | zero => cases enough'
    | succ =>
      rw [mergeRuns, mergeRuns]
      rcases least?_cases (fronts runs) with ⟨_, front⟩ | ⟨_, front, held, _⟩
      · rw [front]
      · rw [front]
        have smaller := size_advance_lt held
        dsimp only
        rw [ih (Nat.lt_of_lt_of_le smaller (Nat.le_of_lt_succ enough))
          (Nat.lt_of_lt_of_le smaller (Nat.le_of_lt_succ enough'))]

end Merging

end Wire
