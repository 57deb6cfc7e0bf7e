import Mathlib

/-!
# Searching for the least

A search that returns the least element of a set, or nothing where the set is empty, is put
together from searches through its parts, each behind the one before.
-/

namespace Search

variable {α β : Type*} [LinearOrder α] [LinearOrder β]

/-- The search returns the least element of the set, if there is one. -/
structure Finds (s : Set α) (result : Option α) : Prop where
  of_none : result = none → s = ∅
  of_some : ∀ a, result = some a → IsLeast s a

variable {s t u : Set α} {first second : Option α} {a : α}

theorem finds_none (empty : ∀ a, a ∉ s) : Finds s none :=
  ⟨fun _ => Set.eq_empty_of_forall_notMem empty, by rintro _ ⟨⟩⟩

theorem finds_some (least : IsLeast s a) : Finds s (some a) :=
  ⟨by rintro ⟨⟩, by rintro _ ⟨⟩; exact least⟩

theorem Finds.eq_some_iff (here : Finds s first) : first = some a ↔ IsLeast s a := by
  refine ⟨here.of_some a, fun least => ?_⟩
  cases found : first with
  | none => exact absurd (here.of_none found ▸ least.1) (Set.notMem_empty a)
  | some b => rw [(here.of_some b found).unique least]

/-- A second search begins where the first one ended. -/
theorem Finds.or (here : Finds s first) (rest : Finds t second)
    (before : ∀ a ∈ s, ∀ b ∈ t, a < b) (split : ∀ a, a ∈ u ↔ a ∈ s ∨ a ∈ t) :
    Finds u (first.or second) := by
  have union : u = s ∪ t := Set.ext split
  rw [union]
  cases found : first with
  | none =>
    rw [here.of_none found, Set.empty_union, Option.none_or]
    exact rest
  | some a =>
    obtain ⟨mem, least⟩ := here.of_some a found
    exact finds_some ⟨.inl mem, fun b other => other.elim (fun own => least own)
      fun later => (before a mem b later).le⟩

/-- A search that is made on a condition, and its result translated. -/
theorem Finds.guard {v : Set β} {f : α → β} {c : Prop} [Decidable c] (here : Finds s first)
    (mono : StrictMono f) (same : ∀ b, b ∈ v ↔ c ∧ b ∈ f '' s) :
    Finds v ((if c then first else none).map f) := by
  by_cases holds : c
  · have image : v = f '' s := Set.ext fun b => (same b).trans (and_iff_right holds)
    rw [if_pos holds, image]
    cases found : first with
    | none =>
      rw [here.of_none found, Set.image_empty]
      exact finds_none fun _ => Set.notMem_empty _
    | some a => exact finds_some (mono.monotone.map_isLeast (here.of_some a found))
  · rw [if_neg holds]
    exact finds_none fun b mem => holds ((same b).mp mem).1

end Search
