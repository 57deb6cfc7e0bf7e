import Mathlib

/-!
# Tallies

A map that holds, for each element of a list, how often it occurs.  Its size is the number of
distinct elements, and its values add up to the length of the list.
-/

namespace Tally

open List Std.ExtTreeMap

variable {K : Type*} [LinearOrder K]

/-- `m` counts the elements of `l`. -/
structure Tallies (m : Std.ExtTreeMap K ℕ) (l : List K) : Prop where
  holds : ∀ (k : K) (n : ℕ), m[k]? = some n ↔ k ∈ l ∧ n = l.count k

variable {m : Std.ExtTreeMap K ℕ} {l l' : List K}

theorem tallies_empty : Tallies (∅ : Std.ExtTreeMap K ℕ) [] :=
  ⟨by simp⟩

theorem Tallies.perm (h : Tallies m l) (perm : l.Perm l') : Tallies m l' := by
  refine ⟨fun k n => ?_⟩
  rw [h.holds k n, perm.mem_iff, perm.count_eq]

theorem Tallies.getD (h : Tallies m l) (k : K) : (m[k]?).getD 0 = l.count k := by
  by_cases mem : k ∈ l
  · rw [(h.holds k _).mpr ⟨mem, rfl⟩, Option.getD_some]
  · have absent : m[k]? = none := by
      refine Option.eq_none_iff_forall_ne_some.mpr fun n found => mem ((h.holds k n).mp found).1
    rw [absent, Option.getD_none, count_eq_zero_of_not_mem mem]

/-- One more occurrence. -/
theorem Tallies.insert (h : Tallies m l) (k : K) :
    Tallies (m.insert k ((m[k]?).getD 0 + 1)) (k :: l) := by
  refine ⟨fun k' n => ?_⟩
  rw [Std.ExtTreeMap.getElem?_insert, h.getD]
  by_cases same : k = k'
  · subst same
    simp [eq_comm]
  · simp [same, Ne.symm same, h.holds k' n]

theorem Tallies.filter (h : Tallies m l) (f : K → Bool) :
    Tallies (m.filter fun k _ => f k) (l.filter f) := by
  refine ⟨fun k n => ?_⟩
  rw [← mem_toList_iff_getElem?_eq_some, toList_filter,
    mem_filter, mem_toList_iff_getElem?_eq_some, h.holds k n, mem_filter]
  constructor
  · rintro ⟨⟨mem, rfl⟩, kept⟩
    exact ⟨⟨mem, kept⟩, (count_filter kept).symm⟩
  · rintro ⟨⟨mem, kept⟩, rfl⟩
    exact ⟨⟨mem, count_filter kept⟩, kept⟩

theorem Tallies.keys_perm (h : Tallies m l) : (m.toList.map (·.1)).Perm l.dedup := by
  have nodup : (m.toList.map (·.1)).Nodup := by
    rw [List.Nodup, pairwise_map]
    exact distinct_keys_toList.imp fun apart same =>
      apart (compare_eq_iff_eq.mpr same)
  refine (perm_ext_iff_of_nodup nodup (nodup_dedup l)).mpr fun k => ?_
  simp only [mem_map, Prod.exists, exists_and_right, exists_eq_right, mem_dedup,
    mem_toList_iff_getElem?_eq_some]
  constructor
  · rintro ⟨n, found⟩
    exact ((h.holds k n).mp found).1
  · intro mem
    exact ⟨_, (h.holds k _).mpr ⟨mem, rfl⟩⟩

/-- The size is the number of distinct elements. -/
theorem Tallies.size (h : Tallies m l) (nodup : l'.Nodup) (mem : ∀ k, k ∈ l' ↔ k ∈ l) :
    m.size = l'.length := by
  have perm : l'.Perm l.dedup :=
    (perm_ext_iff_of_nodup nodup (nodup_dedup l)).mpr fun k => by rw [mem, mem_dedup]
  rw [perm.length_eq, ← h.keys_perm.length_eq, length_map, length_toList]

theorem Tallies.sum (h : Tallies m l) : (m.toList.map (·.2)).sum = l.length := by
  have values : m.toList.map (·.2) = (m.toList.map (·.1)).map fun k => l.count k := by
    rw [List.map_map]
    refine map_congr_left fun entry mem => ?_
    exact ((h.holds entry.1 entry.2).mp (mem_toList_iff_getElem?_eq_some.mp mem)).2
  rw [values, (h.keys_perm.map _).sum_eq, sum_map_count_dedup_eq_length]

end Tally
