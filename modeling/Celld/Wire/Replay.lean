import Mathlib

/-!
# Replaying a history

A `History` is a state and numbered transactions that act on it.  A delta *carries* a range
of a history if it takes every state in it, from the one before the range on, to the last:
so ranges may overlap when they are replayed, and the first one may start anywhere if it
holds the whole state (`replay_eq`).
-/

namespace Wire

open List

variable {σ δ α : Type*}

/-- A state and the transactions on it, from a first number on. -/
structure History (σ δ : Type*) where
  base : σ
  first : ℕ
  txn : ℕ → δ

/-- The state after a transaction. -/
def History.stateAt (apply : δ → σ → σ) (h : History σ δ) (t : ℕ) : σ :=
  (List.range' h.first (t + 1 - h.first)).foldl (fun s i => apply (h.txn i) s) h.base

/-- The delta stands for the transactions from `low` to `high` of the states.  One that
starts with the first transaction holds the whole state. -/
structure Carries (apply : δ → σ → σ) (states : ℕ → σ) (low high : ℕ) (d : δ) : Prop where
  step : ∀ t, low ≤ t + 1 → t < high → apply d (states t) = states high
  whole : low = 1 → ∀ s, apply d s = states high

/-- Ranges one after the other, each of which goes on from the one before: from `reached`
to the last. -/
def Extends (low high : α → ℕ) : ℕ → List α → ℕ → Prop
  | reached, [], last => reached = last
  | reached, a :: rest, last => low a ≤ reached + 1 ∧ reached < high a ∧
      Extends low high (high a) rest last

section States

variable {apply : δ → σ → σ} {h : History σ δ} {t : ℕ}

theorem History.stateAt_of_lt (before : t < h.first) : h.stateAt apply t = h.base := by
  have none_ : t + 1 - h.first = 0 := by omega
  rw [History.stateAt, none_]
  rfl

theorem History.stateAt_succ (after : h.first ≤ t + 1) :
    h.stateAt apply (t + 1) = apply (h.txn (t + 1)) (h.stateAt apply t) := by
  have one : t + 1 + 1 - h.first = (t + 1 - h.first) + 1 := by omega
  have number : h.first + (t + 1 - h.first) = t + 1 := by omega
  rw [History.stateAt, one, range'_concat, foldl_append, Nat.one_mul, number]
  rfl

/-- The transactions after a state lead to a later one. -/
theorem History.stateAt_foldl (after : h.first ≤ t + 1) (count : ℕ) :
    h.stateAt apply (t + count)
      = ((List.range' (t + 1) count).map h.txn).foldl (fun s d => apply d s)
        (h.stateAt apply t) := by
  induction count with
  | zero => rfl
  | succ count ih =>
    rw [← Nat.add_assoc, h.stateAt_succ (by omega), ih, range'_concat, map_append,
      foldl_append, Nat.one_mul, Nat.add_right_comm]
    rfl

/-- The states of two histories that agree over the range are carried alike. -/
theorem Carries.congr {states other : ℕ → σ} {low high : ℕ} {d : δ}
    (carries : Carries apply states low high d) (up : low ≤ high)
    (same : ∀ t, low ≤ t + 1 → t ≤ high → states t = other t) : Carries apply other low high d := by
  have last := same high (by omega) le_rfl
  refine ⟨fun t after before => ?_, fun one s => ?_⟩
  · rw [← same t after before.le, ← last]
    exact carries.step t after before
  · rw [← last]
    exact carries.whole one s

end States

section Ranges

variable {low high : α → ℕ} {reached middle last : ℕ} {plan rest : List α}

theorem Extends.append (front : Extends low high reached plan middle)
    (back : Extends low high middle rest last) : Extends low high reached (plan ++ rest) last := by
  induction plan generalizing reached with
  | nil =>
    cases front
    exact back
  | cons a plan ih => exact ⟨front.1, front.2.1, ih front.2.2⟩

theorem Extends.le (reach : Extends low high reached plan last) : reached ≤ last := by
  induction plan generalizing reached with
  | nil => exact reach.le
  | cons a plan ih => exact reach.2.1.le.trans (ih reach.2.2)

/-- The last range ends at the last number. -/
theorem Extends.exists_last (reach : Extends low high reached plan last) (some_ : plan ≠ []) :
    ∃ a ∈ plan, high a = last := by
  induction plan generalizing reached with
  | nil => exact absurd rfl some_
  | cons a plan ih =>
    by_cases none_ : plan = []
    · subst none_
      exact ⟨a, mem_cons_self, reach.2.2⟩
    · obtain ⟨b, mem, ends⟩ := ih reach.2.2 none_
      exact ⟨b, mem_cons_of_mem _ mem, ends⟩

variable {apply : δ → σ → σ} {states : ℕ → σ} {deltas : List δ}

/-- What is replayed from a state of the history ends in the last state. -/
theorem replay_of_state
    (carries : List.Forall₂ (fun a d => Carries apply states (low a) (high a) d) plan deltas)
    (reach : Extends low high reached plan last) :
    deltas.foldl (fun s d => apply d s) (states reached) = states last := by
  induction carries generalizing reached with
  | nil =>
    cases reach
    rfl
  | cons here _ ih =>
    rw [foldl_cons, here.step reached reach.1 reach.2.1]
    exact ih reach.2.2

/-- **What is replayed from the first transaction on ends in the last state**, whatever it
starts from. -/
theorem replay_eq
    (carries : List.Forall₂ (fun a d => Carries apply states (low a) (high a) d) plan deltas)
    (positive : ∀ a ∈ plan, 0 < low a) (some_ : plan ≠ []) (reach : Extends low high 0 plan last)
    (s : σ) : deltas.foldl (fun s d => apply d s) s = states last := by
  cases carries with
  | nil => exact absurd rfl some_
  | cons here later =>
    have above := positive _ mem_cons_self
    have one : low _ = 1 := le_antisymm reach.1 above
    rw [foldl_cons, here.whole one s]
    exact replay_of_state later reach.2.2

end Ranges

end Wire
