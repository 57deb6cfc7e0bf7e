import Celld.Replica.Plan

/-!
# The epochs of a cell as one chain

A restore walks down from the newest epoch until one that opens with a snapshot.  A paged
epoch starts right after the cut it continues, so the epoch below it is the next one whose
objects, clipped to the transactions before, end exactly at the cut.  `walk` finds them by
these numbers alone.
-/

namespace Celld.Replica

open Wire Ltx List

/-- The files of an epoch by level. -/
abbrev Listing := ℕ → List FileInfo

structure Span where
  epoch : ℕ
  /-- The first transaction that the epoch serves. -/
  lo : ℕ
  levels : Listing

/-- The restore view, oldest epoch first. -/
abbrev EpochChain := List Span

namespace Listing

/-- The files that end before a transaction. -/
def clip (lo : ℕ) (levels : Listing) : Listing := fun level =>
  (levels level).filter fun f => f.maxTxid < lo

def ends (levels : Listing) : Option ℕ := ((allFiles levels).map FileInfo.maxTxid).max?

def begins (levels : Listing) : Option ℕ := ((allFiles levels).map FileInfo.minTxid).min?

end Listing

namespace EpochChain

/-- What an epoch has below the spans found, if it ends where they begin. -/
def below (levels : Listing) : List Span → Option Listing
  | [] => some levels
  | above :: _ =>
      if (levels.clip above.lo).ends = some (above.lo - 1) then some (levels.clip above.lo)
      else none

/-- From the newest epoch down; `spans` are those found, the last one in front. -/
def walk : List (ℕ × Listing) → List Span → List Span
  | [], spans => spans
  | (epoch, levels) :: older, spans =>
      match below levels spans with
      | none => walk older spans
      | some clipped =>
          match clipped.begins with
          | none => walk older spans
          | some lo =>
              if lo = 1 then ⟨epoch, lo, clipped⟩ :: spans
              else walk older (⟨epoch, lo, clipped⟩ :: spans)

/-- The chain over epochs in ascending order. -/
def build (epochs : List (ℕ × Listing)) : Except Error EpochChain :=
  let spans := walk epochs.reverse []
  if spans = [] then .error .txNotAvailable else .ok spans

/-- The last transaction of the chain: the cut a continuation starts after. -/
def maxTxid (chain : EpochChain) : ℕ :=
  ((chain.flatMap fun span => allFiles span.levels).map FileInfo.maxTxid).foldl max 0

/-- The span that a transaction is read from. -/
def span? (chain : EpochChain) (txid : ℕ) : Option Span :=
  (chain.reverse.find? fun span => span.lo ≤ txid).or chain.head?

def ltxFiles (chain : EpochChain) : Listing := fun level => chain.flatMap fun span =>
    span.levels level

end EpochChain

/-! ## Clipping -/

section Clipping

variable {levels : Listing} {f : FileInfo} {lo last : ℕ}

theorem mem_allFiles_clip : f ∈ allFiles (levels.clip lo) ↔ f ∈ allFiles levels ∧
    f.maxTxid < lo := by
  simp only [allFiles, mem_flatMap, Listing.clip, mem_filter, decide_eq_true_iff]
  constructor
  · rintro ⟨level, inside, mem, before⟩
    exact ⟨⟨level, inside, mem⟩, before⟩
  · rintro ⟨⟨level, inside, mem⟩, before⟩
    exact ⟨level, inside, mem, before⟩

theorem ends_eq_some_iff : levels.ends = some last ↔
    (∃ f ∈ allFiles levels, f.maxTxid = last) ∧ ∀ f ∈ allFiles levels, f.maxTxid ≤ last := by
  rw [Listing.ends, max?_eq_some_iff, mem_map, forall_mem_map]

theorem begins_eq_some_iff : levels.begins = some lo ↔
    (∃ f ∈ allFiles levels, f.minTxid = lo) ∧ ∀ f ∈ allFiles levels, lo ≤ f.minTxid := by
  rw [Listing.begins, min?_eq_some_iff, mem_map, forall_mem_map]

theorem begins_eq_none_iff : levels.begins = none ↔ allFiles levels = [] := by
  rw [Listing.begins, min?_eq_none_iff, map_eq_nil_iff]

/-- Clipped files end at the cut if one of them does. -/
theorem ends_clip_iff : (levels.clip (last + 1)).ends = some last ↔
    ∃ f ∈ allFiles levels, f.maxTxid = last := by
  rw [ends_eq_some_iff]
  constructor
  · rintro ⟨⟨f, mem, eq⟩, _⟩
    exact ⟨f, (mem_allFiles_clip.mp mem).1, eq⟩
  · rintro ⟨f, mem, eq⟩
    refine ⟨⟨f, mem_allFiles_clip.mpr ⟨mem, by omega⟩, eq⟩, fun g inside => ?_⟩
    have before := (mem_allFiles_clip.mp inside).2
    omega

end Clipping

/-! ## One step of the walk -/

namespace EpochChain

variable {epoch : ℕ} {levels : Listing} {older : List (ℕ × Listing)} {above : Span}
  {spans : List Span}

/-- The newest epoch is taken as it is. -/
theorem walk_newest (epoch : ℕ) (older : List (ℕ × Listing)) (some_ : allFiles levels ≠ []) :
    ∃ lo, levels.begins = some lo ∧
    walk ((epoch, levels) :: older) [] =
      if lo = 1 then [⟨epoch, lo, levels⟩] else walk older [⟨epoch, lo, levels⟩] := by
  cases first : levels.begins with
  | none => exact absurd (begins_eq_none_iff.mp first) some_
  | some lo =>
    refine ⟨lo, rfl, ?_⟩
    simp only [walk, below, first]

/-- An epoch without a file that ends at the cut is skipped. -/
theorem walk_skip {cut : ℕ} (lo : above.lo = cut + 1)
    (elsewhere : ∀ f ∈ allFiles levels, f.maxTxid ≠ cut) :
    walk ((epoch, levels) :: older) (above :: spans) = walk older (above :: spans) := by
  have differs : (levels.clip above.lo).ends ≠ some (above.lo - 1) := by
    rw [lo, Nat.add_sub_cancel, ne_eq, ends_clip_iff]
    rintro ⟨f, mem, ends⟩
    exact elsewhere f mem ends
  simp only [walk, below, if_neg differs]

theorem exists_begins_clip {cut : ℕ} (found : ∃ f ∈ allFiles levels, f.maxTxid = cut) :
    ∃ lo, (levels.clip (cut + 1)).begins = some lo := by
  cases first : (levels.clip (cut + 1)).begins with
  | some lo => exact ⟨lo, rfl⟩
  | none =>
    obtain ⟨f, mem, _⟩ := found
    have inside : f ∈ allFiles (levels.clip (cut + 1)) := mem_allFiles_clip.mpr ⟨mem, by omega⟩
    rw [begins_eq_none_iff.mp first] at inside
    cases inside

/-- An epoch with a file that ends at the cut is the next one. -/
theorem walk_link {cut lo : ℕ} (above_lo : above.lo = cut + 1)
    (found : ∃ f ∈ allFiles levels, f.maxTxid = cut)
    (begins : (levels.clip (cut + 1)).begins = some lo) :
    walk ((epoch, levels) :: older) (above :: spans) =
      if lo = 1 then ⟨epoch, lo, levels.clip (cut + 1)⟩ :: above :: spans
      else walk older (⟨epoch, lo, levels.clip (cut + 1)⟩ :: above :: spans) := by
  have same : (levels.clip (cut + 1)).ends = some (cut + 1 - 1) := ends_clip_iff.mpr found
  simp only [walk, below, above_lo, if_pos same, begins]

end EpochChain

end Celld.Replica
