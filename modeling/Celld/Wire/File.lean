import Celld.Wire.Bytes

/-!
# Plain files

A file has a size and a byte at every offset, zero where nothing was written and behind its end.
Two files
that agree on size and bytes answer every read alike.
-/

namespace Wire

structure File where
  size : ℕ
  byte : ℕ → UInt8
  blank : ∀ i, size ≤ i → byte i = 0

namespace File

/-- A sparse file. -/
def sparse (size : ℕ) : File := ⟨size, fun _ => 0, fun _ _ => rfl⟩

def ofBytes (bytes : Bytes) : File :=
  ⟨bytes.length, fun i => bytes.getD i 0, fun _ => List.getD_eq_default _ _⟩

/-- The bytes from an offset on, up to the end of the file. -/
def read (f : File) (start amount : ℕ) : Bytes :=
  (List.range (min amount (f.size - start))).map fun i => f.byte (start + i)

/-- Bytes behind the end of the file grow it. -/
def write (f : File) (start : ℕ) (data : Bytes) : File where
  size := if data = [] then f.size else max f.size (start + data.length)
  byte i := if start ≤ i ∧ i < start + data.length then data.getD (i - start) 0 else f.byte i
  blank i behind := by
    split at behind
    · subst data
      rw [if_neg (by simp), f.blank i behind]
    · obtain ⟨old, new⟩ := max_le_iff.mp behind
      rw [if_neg (by omega), f.blank i old]

def truncate (f : File) (size : ℕ) : File where
  size := size
  byte i := if i < size then f.byte i else 0
  blank _ behind := if_neg (not_lt.mpr behind)

variable {f g : File} {start amount size i : ℕ} {data : Bytes}

/-- Files that agree are read alike. -/
theorem read_congr (sizes : f.size = g.size)
    (bytes : ∀ i, start ≤ i → i < start + amount → f.byte i = g.byte i) :
    f.read start amount = g.read start amount := by
  unfold read
  rw [sizes]
  refine List.map_congr_left fun i mem => bytes _ (Nat.le_add_right _ _) ?_
  have inside := List.mem_range.mp mem
  omega

theorem byte_write_of_mem (after : start ≤ i) (before : i < start + data.length) :
    (f.write start data).byte i = data.getD (i - start) 0 := if_pos ⟨after, before⟩

theorem byte_write_of_not_mem (outside : ¬ (start ≤ i ∧ i < start + data.length)) :
    (f.write start data).byte i = f.byte i := if_neg outside

theorem byte_truncate_size (f : File) : (f.truncate f.size).byte i = f.byte i := by
  by_cases inside : i < f.size
  · exact if_pos inside
  · exact (if_neg inside).trans (f.blank i (not_lt.mp inside)).symm

/-- A write inside of the file leaves its size alone. -/
theorem size_write_of_le (within : start + data.length ≤ f.size) :
    (f.write start data).size = f.size := by
  unfold write
  dsimp only
  split
  · rfl
  · exact Nat.max_eq_left within

theorem le_size_write : f.size ≤ (f.write start data).size := by
  unfold write
  dsimp only
  split
  · exact Nat.le_refl _
  · exact Nat.le_max_left _ _

end File

end Wire
