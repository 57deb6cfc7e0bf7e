import Mathlib

/-!
# Numerals

Numbers are written most significant digit first, by `Nat.toDigits`, and read by
`parseUnsigned` as machine integers are: a leading plus sign is skipped, letters of either
case are digits, and leading zeros count for nothing.  Reading undoes writing
(`parseUnsigned_toDigits`), but a text that was read need not be the one that is written:
in decimal it is if it begins with neither (`toDigits_of_value`).
-/

namespace Numerals

open List Nat Option

/-- The value of a digit, by its code. -/
def digit? (base : ℕ) (c : Char) : Option ℕ :=
  let k := c.toNat
  let d :=
    if 48 ≤ k ∧ k ≤ 57 then k - 48
    else if 97 ≤ k ∧ k ≤ 122 then k - 87
    else if 65 ≤ k ∧ k ≤ 90 then k - 55
    else base
  if d < base then some d else none

/-- The value of digits that follow others. -/
def value? (base : ℕ) : ℕ → List Char → Option ℕ
  | n, [] => some n
  | n, c :: s => (digit? base c).bind fun d => value? base (base * n + d) s

/-- Read an unsigned integer below `bound`.  The value grows with every digit, so that it is
enough to compare it at the end. -/
def parseUnsigned (base bound : ℕ) (s : List Char) : Option ℕ :=
  let digits := if s.head? = some '+' then s.tail else s
  if digits = [] then none else (value? base 0 digits).filter (· < bound)

/-- Read a signed integer between `-bound` and `bound - 1`. -/
def parseSigned (base bound : ℕ) (s : List Char) : Option ℤ :=
  if s.head? = some '-' then
    if s.tail = [] then none
    else ((value? base 0 s.tail).filter (· ≤ bound)).map fun v => -(v : ℤ)
  else (parseUnsigned base bound s).map Int.ofNat

variable {base bound n v d : ℕ} {c : Char} {s t : List Char}

theorem digit_digitChar (small : base ≤ 16) (below : d < base) :
    digit? base d.digitChar = some d := by
  have all : ∀ d < 16, ∀ base ≤ 16, d < base → digit? base d.digitChar = some d := by decide
  exact all d (by omega) base small below

/-- A decimal digit is written in one way. -/
theorem digitChar_of_digit (read : digit? 10 c = some d) : d < 10 ∧ d.digitChar = c := by
  simp only [digit?, ite_none_right_eq_some, Option.some.injEq] at read
  obtain ⟨below, eq⟩ := read
  rw [eq] at below
  refine ⟨below, Char.toNat_inj.mp ?_⟩
  rw [toNat_digitChar_of_lt_ten below]
  split_ifs at eq <;> omega

theorem value_append (s t : List Char) :
    value? base n (s ++ t) = (value? base n s).bind fun v => value? base v t := by
  induction s generalizing n with
  | nil => rfl
  | cons c s ih =>
    simp only [cons_append, value?, bind_assoc]
    exact Option.bind_congr fun d _ => ih

/-- Reading undoes writing. -/
theorem value_toDigits (large : 1 < base) (small : base ≤ 16) (n : ℕ) :
    value? base 0 (Nat.toDigits base n) = some n := by
  induction n using Nat.strong_induction_on with
  | h n ih =>
    by_cases single : n < base
    · rw [toDigits_of_lt_base single]
      simp [value?, digit_digitChar small single]
    · have le : base ≤ n := not_lt.mp single
      have last := digit_digitChar small (mod_lt n (by omega : 0 < base))
      rw [toDigits_of_base_le large le, value_append,
        ih _ (Nat.div_lt_self (by omega) large)]
      simp [value?, last, div_add_mod]

/-- A positive number is written without leading zeros. -/
theorem head_toDigits_ne_zero (large : 1 < base) (small : base ≤ 16) (pos : 0 < n) :
    (Nat.toDigits base n).head? ≠ some '0' := by
  induction n using Nat.strong_induction_on with
  | h n ih =>
    by_cases single : n < base
    · rw [toDigits_of_lt_base single, head?_cons, Ne, Option.some.injEq]
      intro zero
      have read := digit_digitChar small single
      rw [zero, show digit? base '0' = some 0 by simp [digit?]; omega] at read
      exact pos.ne (Option.some.inj read)
    · have le : base ≤ n := not_lt.mp single
      rw [toDigits_of_base_le large le, head?_append_of_ne_nil _ toDigits_ne_nil]
      exact ih _ (Nat.div_lt_self (by omega) large) (Nat.div_pos le (by omega))

/-- Writing undoes reading behind a digit other than zero. -/
theorem toDigits_append (pos : 0 < n) (read : value? 10 n s = some v) :
    Nat.toDigits 10 n ++ s = Nat.toDigits 10 v := by
  induction s generalizing n with
  | nil =>
    cases read
    exact append_nil _
  | cons c s ih =>
    obtain ⟨d, digit, rest⟩ := bind_eq_some_iff.mp read
    obtain ⟨below, written⟩ := digitChar_of_digit digit
    have next : Nat.toDigits 10 n ++ [c] = Nat.toDigits 10 (10 * n + d) := by
      rw [← toDigits_append_toDigits (by decide) pos below, toDigits_of_lt_base below,
        written]
    rw [append_cons, next]
    exact ih (by omega) rest

theorem toDigits_of_value (head : c ≠ '0') (read : value? 10 0 (c :: s) = some v) :
    Nat.toDigits 10 v = c :: s := by
  obtain ⟨d, digit, rest⟩ := bind_eq_some_iff.mp read
  obtain ⟨below, written⟩ := digitChar_of_digit digit
  have pos : 0 < d := by
    refine Nat.pos_of_ne_zero ?_
    rintro rfl
    exact head written.symm
  rw [Nat.mul_zero, Nat.zero_add] at rest
  rw [← toDigits_append pos rest, toDigits_of_lt_base below, written]
  rfl

/-- What is no digit does not stand among digits. -/
theorem notMem_of_value (other : digit? base c = none) (read : value? base n s = some v) :
    c ∉ s := by
  induction s generalizing n with
  | nil => exact not_mem_nil
  | cons d s ih =>
    obtain ⟨k, digit, rest⟩ := bind_eq_some_iff.mp read
    refine not_mem_cons_of_ne_of_not_mem ?_ (ih rest)
    rintro rfl
    exact nomatch other.symm.trans digit

theorem parseUnsigned_of_value (nonempty : s ≠ []) (read : value? base 0 s = some v)
    (fits : v < bound) : parseUnsigned base bound s = some v := by
  have other : digit? base '+' = none := by simp [digit?]
  have unsigned : s.head? ≠ some '+' := fun head =>
    notMem_of_value other read (mem_of_mem_head? head)
  simp only [parseUnsigned, if_neg unsigned, if_neg nonempty, read]
  simp [fits]

theorem parseSigned_of_value (nonempty : s ≠ []) (read : value? base 0 s = some v)
    (fits : v < bound) : parseSigned base bound s = some (v : ℤ) := by
  have other : digit? base '-' = none := by simp [digit?]
  have unsigned : s.head? ≠ some '-' := fun head =>
    notMem_of_value other read (mem_of_mem_head? head)
  rw [parseSigned, if_neg unsigned, parseUnsigned_of_value nonempty read fits]
  rfl

/-! ## Numerals of a fixed width -/

/-- A number behind zeros. -/
def padded (base width n : ℕ) : List Char := (Nat.toDigits base n).leftpad width '0'

theorem value_padded (large : 1 < base) (small : base ≤ 16) (width n : ℕ) :
    value? base 0 (padded base width n) = some n := by
  have zeros : ∀ k, value? base 0 (List.replicate k '0') = some 0 := by
    intro k
    induction k with
    | zero => rfl
    | succ k ih =>
        simp [replicate_succ, value?, show digit? base '0' = some 0 by simp [digit?]; omega, ih]
  rw [padded, List.leftpad, value_append, zeros, bind_some, value_toDigits large small]

theorem padded_ne_nil (base width n : ℕ) : padded base width n ≠ [] :=
  append_ne_nil_of_right_ne_nil _ toDigits_ne_nil

theorem length_padded (large : 1 < base) {width : ℕ} (pos : 0 < width) (fits : n < base ^ width) :
    (padded base width n).length = width := by
  have short := (length_toDigits_le_iff large pos).mpr fits
  rw [padded, List.leftpad, length_append, length_replicate, Nat.sub_add_cancel short]

theorem padded_succ (large : 1 < base) {width : ℕ} (pos : 0 < width) (n : ℕ) :
    padded base (width + 1) n = padded base width (n / base) ++ [(n % base).digitChar] := by
  by_cases single : n < base
  · have zeros : List.replicate (width - 1) '0' ++ ['0'] = List.replicate width '0' := by
      rw [← replicate_succ', Nat.sub_add_cancel pos]
    rw [padded, padded, div_eq_of_lt single, mod_eq_of_lt single,
      toDigits_of_lt_base single, toDigits_of_lt_base (by omega), List.leftpad, List.leftpad]
    simp [← zeros]
  · rw [padded, padded, toDigits_of_base_le large (not_lt.mp single)]
    simp [List.leftpad]

/-- Behind texts of one length, the later parts decide only between equals. -/
theorem append_lt_append {s₁ s₂ t₁ t₂ : List Char} (same : s₁.length = s₂.length) :
    s₁ ++ t₁ < s₂ ++ t₂ ↔ s₁ < s₂ ∨ s₁ = s₂ ∧ t₁ < t₂ := by
  induction s₁ generalizing s₂ with
  | nil =>
    obtain rfl := length_eq_zero_iff.mp same.symm
    simp
  | cons c s₁ ih =>
    cases s₂ with
    | nil => cases same
    | cons =>
      simp only [cons_append, cons_lt_cons_iff, ih (Nat.succ.inj same),
        List.cons.injEq]
      tauto

theorem padded_inj (large : 1 < base) (small : base ≤ 16) {width m : ℕ} :
    padded base width m = padded base width n ↔ m = n := by
  refine ⟨fun same => ?_, fun same => same ▸ rfl⟩
  have read := value_padded large small width m
  rw [same, value_padded large small] at read
  exact (Option.some.inj read).symm

/-- **Numerals of one width are ordered as their numbers.** -/
theorem padded_lt (large : 1 < base) (small : base ≤ 16) {width m : ℕ} (pos : 0 < width)
    (left : m < base ^ width) (right : n < base ^ width) :
    padded base width m < padded base width n ↔ m < n := by
  have digits : ∀ d < 16, ∀ e < 16, [d.digitChar] < [e.digitChar] ↔ d < e := by decide
  induction width, pos using le_induction generalizing m n with
  | base =>
    rw [pow_one] at left right
    simpa [padded, List.leftpad, toDigits_of_lt_base left, toDigits_of_lt_base right]
      using digits m (by omega) n (by omega)
  | succ width pos ih =>
    have left' : m / base < base ^ width := Nat.div_lt_of_lt_mul (by rwa [mul_comm, ← pow_succ])
    have right' : n / base < base ^ width := Nat.div_lt_of_lt_mul (by rwa [mul_comm, ← pow_succ])
    have lastLeft := mod_lt m (by omega : 0 < base)
    have lastRight := mod_lt n (by omega : 0 < base)
    have lengths : (padded base width (m / base)).length = (padded base width (n / base)).length :=
      (length_padded large pos left').trans (length_padded large pos right').symm
    rw [padded_succ large pos, padded_succ large pos, append_lt_append lengths,
      padded_inj large small, digits _ (by omega) _ (by omega)]
    refine (or_congr_left (ih left' right')).trans ?_
    rcases lt_trichotomy (m / base) (n / base) with less | same | more
    · exact iff_of_true (.inl less) (lt_of_div_lt_div less)
    · have splitLeft := div_add_mod m base
      have splitRight := div_add_mod n base
      rw [same] at splitLeft ⊢
      omega
    · have greater := lt_of_div_lt_div more
      exact iff_of_false (by omega) (by omega)

end Numerals
