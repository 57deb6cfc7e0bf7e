import Mathlib

/-!
# Settling a queue lease

A settlement is accepted if it names the complete current batch of its lease: the same messages
with the same sequence numbers and generations, each once, in any order.
-/

namespace Celld.Queue

open List

variable {current : List LeaseMember} {matched : List Bool}

/-- One message identity captured by a lease. -/
structure LeaseMember where
  seq : ℤ
  messageId : String
  generation : ℕ
  deriving DecidableEq

/-- The loop over the submitted members: each takes the first equal member of `current` that is not
taken yet. -/
def matchMembers (current : List LeaseMember) : List Bool → List LeaseMember → Bool
  | _, [] => true
  | matched, submitted :: rest =>
      match current.zipIdx.find? fun c => !matched.getD c.2 false &&
          c.1.messageId = submitted.messageId && c.1.seq = submitted.seq &&
          c.1.generation = submitted.generation with
      | none => false
      | some c => matchMembers current (matched.set c.2 true) rest

/-- `settlement_matches`. -/
def settlementMatches (current submitted : List LeaseMember) : Bool :=
  if current.isEmpty || current.length != submitted.length then false
  else if current.zipIdx.any fun c =>
      (current.take c.2).any fun prior => prior.messageId = c.1.messageId then false
  else matchMembers current (List.replicate current.length false) submitted

/-- The members that are not taken yet. -/
def unmatched (current : List LeaseMember) (matched : List Bool) : List LeaseMember :=
  ((current.zip matched).filter fun c => !c.2).map (·.1)

theorem unmatched_append {current' : List LeaseMember} {matched' : List Bool}
    (same : current.length = matched.length) :
    unmatched (current ++ current') (matched ++ matched') =
      unmatched current matched ++ unmatched current' matched' := by
  rw [unmatched, zip_append same, filter_append, map_append]
  rfl

/-- Taking the member at an index. -/
theorem unmatched_set {i : ℕ} {c : LeaseMember} (same : current.length = matched.length)
    (found : current[i]? = some c) (free : matched[i]? = some false) :
    (unmatched current matched).Perm (c :: unmatched current (matched.set i true)) := by
  obtain ⟨_, at_⟩ := List.getElem?_eq_some_iff.mp found
  obtain ⟨lt', free⟩ := List.getElem?_eq_some_iff.mp free
  have parts : current = current.take i ++ c :: current.drop (i + 1) := by
    rw [← at_, ← drop_eq_getElem_cons, take_append_drop]
  have parts' : matched = matched.take i ++ false :: matched.drop (i + 1) := by
    rw [← free, ← drop_eq_getElem_cons, take_append_drop]
  have after : matched.set i true = matched.take i ++ true :: matched.drop (i + 1) :=
    set_eq_take_append_cons_drop.trans (if_pos lt')
  have split : ∀ taken, unmatched current (matched.take i ++ taken :: matched.drop (i + 1)) =
      unmatched (current.take i) (matched.take i) ++
        unmatched (c :: current.drop (i + 1)) (taken :: matched.drop (i + 1)) := by
    intro taken
    conv_lhs => rw [parts]
    exact unmatched_append (by simp [same])
  have before := split false
  rw [← parts'] at before
  rw [before, after, split true]
  exact perm_middle

/-- The loop succeeds if what is submitted can be told apart among the members not taken yet. -/
theorem matchMembers_iff (same : current.length = matched.length) (submitted : List LeaseMember) :
    matchMembers current matched submitted ↔ submitted.Subperm (unmatched current matched) := by
  induction submitted generalizing matched with
  | nil => simp [matchMembers]
  | cons s rest ih =>
    rw [matchMembers]
    cases found : current.zipIdx.find? fun c => !matched.getD c.2 false &&
        c.1.messageId = s.messageId && c.1.seq = s.seq && c.1.generation = s.generation with
    | none =>
      simp only [Bool.false_eq_true, false_iff]
      intro sub
      -- A member equal to the submitted one that is not taken would have been found.
      obtain ⟨⟨c, taken⟩, mem, rfl⟩ := mem_map.mp (sub.subset mem_cons_self)
      obtain ⟨memZ, free⟩ := mem_filter.mp mem
      obtain ⟨i, lt, eq⟩ := getElem_of_mem memZ
      rw [getElem_zip] at eq
      obtain ⟨at_, at_'⟩ := Prod.mk.inj eq
      rw [length_zip] at lt
      have here : (current[i], i) ∈ current.zipIdx := by
        rw [mem_zipIdx_iff_getElem?]
        exact getElem?_eq_getElem (by omega)
      have none := find?_eq_none.mp found _ here
      have free' : matched[i]?.getD false = false := by
        rw [getElem?_eq_getElem (by omega), Option.getD_some, at_']
        simpa using free
      simp [at_, free'] at none
    | some c =>
      have fits := find?_some found
      have mem := mem_zipIdx_iff_getElem?.mp (mem_of_find?_eq_some found)
      simp only [Bool.and_eq_true, Bool.not_eq_true', decide_eq_true_eq] at fits
      obtain ⟨⟨⟨free, messageId⟩, seq⟩, generation⟩ := fits
      obtain rfl : c.1 = s := by
        cases h : c.1
        cases s
        simp_all
      have lt := (List.getElem?_eq_some_iff.mp mem).1
      have free : matched[c.2]? = some false := by
        rw [getElem?_eq_getElem (by omega)]
        simpa [getD_eq_getElem?_getD, getElem?_eq_getElem (same ▸ lt)] using free
      have perm := unmatched_set same mem free
      have step := @ih (matched.set c.2 true) (by simp [same])
      simp only
      rw [step, perm.subperm_left, subperm_cons]

theorem distinct_iff (current : List LeaseMember) :
    (current.zipIdx.any fun c =>
        (current.take c.2).any fun prior => prior.messageId = c.1.messageId) = false ↔
      (current.map (·.messageId)).Nodup := by
  rw [List.Nodup, pairwise_map, pairwise_iff_getElem, any_eq_false]
  constructor
  · intro none i j _ hj lt same
    have here : (current[j], j) ∈ current.zipIdx :=
      mem_zipIdx_iff_getElem?.mpr (getElem?_eq_getElem hj)
    have earlier : current[i] ∈ current.take j :=
      mem_take_iff_getElem.mpr ⟨i, by omega, rfl⟩
    refine none _ here (any_eq_true.mpr ⟨_, earlier, ?_⟩)
    simpa using same
  · intro distinct c mem repeated
    obtain ⟨prior, earlier, same⟩ := any_eq_true.mp repeated
    obtain ⟨i, lt, rfl⟩ := mem_take_iff_getElem.mp earlier
    obtain ⟨lt', at_⟩ := List.getElem?_eq_some_iff.mp (mem_zipIdx_iff_getElem?.mp mem)
    refine distinct i c.2 (by omega) lt' (by omega) ?_
    rw [at_]
    simpa using same

/-- A settlement is accepted if it is the current batch in some order, and the batch is not empty
and names no message twice. -/
theorem settlementMatches_iff (current submitted : List LeaseMember) :
    settlementMatches current submitted ↔
      current ≠ [] ∧ (current.map (·.messageId)).Nodup ∧ submitted.Perm current := by
  have fresh : unmatched current (List.replicate current.length false) = current := by
    have zip : ∀ l : List LeaseMember,
        l.zip (List.replicate l.length false) = l.map (·, false) := by
      intro l
      induction l with
      | nil => rfl
      | cons c l ih => simp [replicate_succ, ih]
    rw [unmatched, zip, filter_map, map_map]
    simp [Function.comp_def]
  have loop : matchMembers current (List.replicate current.length false) submitted ↔
      submitted.Subperm (unmatched current (List.replicate current.length false)) :=
    matchMembers_iff (by simp) submitted
  rw [fresh] at loop
  unfold settlementMatches
  split_ifs with shape repeated
  · simp only [Bool.or_eq_true, List.isEmpty_iff, bne_iff_ne] at shape
    refine iff_of_false (by simp) fun ⟨nonempty, _, perm⟩ => ?_
    exact shape.elim nonempty fun differs => differs perm.length_eq.symm
  · refine iff_of_false (by simp) fun ⟨_, distinct, _⟩ => ?_
    rw [(distinct_iff current).mpr distinct] at repeated
    cases repeated
  · simp only [Bool.or_eq_true, List.isEmpty_iff, bne_iff_ne, not_or, not_not] at shape
    have distinct := (distinct_iff current).mp (Bool.not_eq_true _ ▸ repeated)
    rw [loop]
    constructor
    · intro sub
      exact ⟨shape.1, distinct, sub.perm_of_length_le shape.2.le⟩
    · exact fun ⟨_, _, perm⟩ => perm.subperm

end Celld.Queue
