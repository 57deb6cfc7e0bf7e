import Mathlib

/-!
# Bytes on the wire

Fixed-width big-endian integers and base-128 varints, each with a writer, a reader, and
the law that every format above them rests on: a reader takes back what the writer put
in front of any bytes, and leaves those bytes alone.

Bytes are a `List UInt8`.  A reader returns what it read and what is left.
-/

namespace Wire

open List Nat

variable {value width : ℕ}

abbrev Bytes := List UInt8

section Pieces

variable {α β : Type} {f : α → List β} {l : List α} {n : ℕ}

theorem length_flatMap_le (each : ∀ a ∈ l, (f a).length ≤ n) :
    (l.flatMap f).length ≤ l.length * n := by
  rw [length_flatMap]
  simpa using sum_le_card_nsmul _ n (forall_mem_map.mpr each)

theorem le_length_flatMap (each : ∀ a ∈ l, n ≤ (f a).length) :
    l.length * n ≤ (l.flatMap f).length := by
  rw [length_flatMap]
  simpa using card_nsmul_le_sum _ n (forall_mem_map.mpr each)

end Pieces

/-! ## Fixed width -/

/-- The low `width` bytes of a number, most significant first. -/
def beBytes : ℕ → ℕ → Bytes
  | 0, _ => []
  | width + 1, value => beBytes width (value / 256) ++ [UInt8.ofNat (value % 256)]

/-- The number that bytes spell, most significant first. -/
def beValue (bytes : Bytes) : ℕ := bytes.foldl (fun value byte => value * 256 + byte.toNat) 0

@[simp] theorem length_beBytes (width value : ℕ) : (beBytes width value).length = width := by
  induction width generalizing value with
  | zero => rfl
  | succ width ih => simp [beBytes, ih]

theorem beValue_concat (bytes : Bytes) (byte : UInt8) :
    beValue (bytes ++ [byte]) = beValue bytes * 256 + byte.toNat := by
  simp [beValue, foldl_append]

theorem beValue_beBytes (width value : ℕ) :
    beValue (beBytes width value) = value % 256 ^ width := by
  induction width generalizing value with
  | zero => simp [beBytes, beValue, mod_one]
  | succ width ih =>
    have low : (UInt8.ofNat (value % 256)).toNat = value % 256 := by simp
    rw [beBytes, beValue_concat, ih, low, Nat.pow_succ, Nat.mul_comm (256 ^ width) 256,
      mod_mul]
    omega

theorem beValue_beBytes_of_lt (fits : value < 256 ^ width) :
    beValue (beBytes width value) = value := by
  rw [beValue_beBytes, mod_eq_of_lt fits]

/-- The first `width` bytes and the rest, if there are that many. -/
def readExact (width : ℕ) (bytes : Bytes) : Option (Bytes × Bytes) :=
  if width ≤ bytes.length then some (bytes.take width, bytes.drop width) else none

theorem readExact_append {front rest : Bytes} (length : front.length = width) :
    readExact width (front ++ rest) = some (front, rest) := by
  subst length
  simp [readExact]

/-- A number of `width` bytes and the rest. -/
def readBe (width : ℕ) (bytes : Bytes) : Option (ℕ × Bytes) :=
  (readExact width bytes).map fun read => (beValue read.1, read.2)

theorem readBe_append (fits : value < 256 ^ width) (rest : Bytes) :
    readBe width (beBytes width value ++ rest) = some (value, rest) := by
  rw [readBe, readExact_append (length_beBytes width value), Option.map_some,
    beValue_beBytes_of_lt fits]

/-- The low `width` bytes of a number, least significant first. -/
def leBytes (width value : ℕ) : Bytes := (beBytes width value).reverse

/-- The number that bytes spell, least significant first. -/
def leValue (bytes : Bytes) : ℕ := beValue bytes.reverse

@[simp] theorem length_leBytes (width value : ℕ) : (leBytes width value).length = width := by
  simp [leBytes]

theorem leValue_leBytes (fits : value < 256 ^ width) :
    leValue (leBytes width value) = value := by
  rw [leValue, leBytes, reverse_reverse, beValue_beBytes_of_lt fits]

/-! ## Text -/

def utf8 (s : String) : Bytes := s.toByteArray.data.toList

/-- The text that bytes spell, if they do. -/
def ofUtf8 (bytes : Bytes) : Option String := String.fromUTF8? ⟨bytes.toArray⟩

theorem ofUtf8_utf8 (s : String) : ofUtf8 (utf8 s) = some s := by
  rw [ofUtf8, utf8, Array.toArray_toList, String.fromUTF8?, dif_pos s.isValidUTF8]
  rfl

/-! ## Varints -/

/-- Seven bits a byte, low bits first, at most `fuel` bytes. -/
def uvarintDigits : ℕ → ℕ → Bytes
  | 0, _ => []
  | fuel + 1, value =>
      if value < 0x80 then [UInt8.ofNat value]
      else UInt8.ofNat (value % 0x80 + 0x80) :: uvarintDigits fuel (value >>> 7)

/-- The varint of a 64-bit number: ten bytes hold seventy bits. -/
def writeUvarint (value : ℕ) : Bytes := uvarintDigits 10 value

/-- Reads on from the `shift` low bits, which are `value`.  A number of more than 64 bits
is refused. -/
def readUvarintFrom (value shift : ℕ) : Bytes → Option (ℕ × Bytes)
  | [] => none
  | byte :: rest =>
      if byte.toNat < 0x80 then
        if 64 ≤ shift ∨ shift = 63 ∧ 1 < byte.toNat then none
        else some (value ||| byte.toNat <<< shift, rest)
      else if 70 ≤ shift + 7 then none
      else readUvarintFrom (value ||| (byte.toNat % 0x80) <<< shift) (shift + 7) rest

def readUvarint (bytes : Bytes) : Option (ℕ × Bytes) := readUvarintFrom 0 0 bytes

/-- Bits above the low ones are added. -/
theorem or_shiftLeft {shift : ℕ} (low : value < 2 ^ shift) (high : ℕ) :
    value ||| high <<< shift = value + high * 2 ^ shift := by
  rw [shiftLeft_eq, Nat.or_comm, Nat.mul_comm, ← two_pow_add_eq_or_of_lt low, Nat.add_comm]

theorem readUvarintFrom_digits (fuel : ℕ) :
    ∀ {value low shift : ℕ} (rest : Bytes), low < 2 ^ shift → shift + 7 * fuel = 70 →
      value < 2 ^ (64 - shift) → 0 < fuel →
      readUvarintFrom low shift (uvarintDigits fuel value ++ rest)
        = some (low + value * 2 ^ shift, rest) := by
  induction fuel with
  | zero =>
    intro value low shift rest _ _ _ positive
    exact absurd positive (lt_irrefl 0)
  | succ fuel ih =>
    intro value low shift rest below _ _ _
    have narrow : shift ≤ 63 := by omega
    rw [uvarintDigits]
    by_cases last : value < 0x80
    · have byte : (UInt8.ofNat value).toNat = value := by
        rw [UInt8.toNat_ofNat']
        exact mod_eq_of_lt (by omega)
      have room : ¬ (64 ≤ shift ∨ shift = 63 ∧ 1 < value) := by
        rintro (_ | ⟨rfl, _⟩)
        · omega
        · omega
      rw [if_pos last, singleton_append, readUvarintFrom, byte, if_pos last, if_neg room,
        or_shiftLeft below]
    · have byte : (UInt8.ofNat (value % 0x80 + 0x80)).toNat = value % 0x80 + 0x80 := by
        rw [UInt8.toNat_ofNat']
        exact mod_eq_of_lt (by omega)
      -- A continued number has bits left for the bytes to come.
      have more : shift + 7 < 70 := by
        by_contra full
        have at63 : shift = 63 := by omega
        subst at63
        omega
      have split : 2 ^ (64 - shift) ≤ 2 ^ (64 - (shift + 7)) * 128 := by
        rw [show (128 : ℕ) = 2 ^ 7 from rfl, ← Nat.pow_add]
        exact Nat.pow_le_pow_right (by decide) (by omega)
      have below' : low + value % 0x80 * 2 ^ shift < 2 ^ (shift + 7) := by
        have bits : value % 0x80 * 2 ^ shift ≤ 127 * 2 ^ shift :=
          Nat.mul_le_mul_right _ (by omega)
        rw [Nat.pow_add]
        omega
      rw [if_neg last, cons_append, readUvarintFrom, byte, if_neg (by omega),
        if_neg (by omega), add_mod_right, mod_mod, or_shiftLeft below,
        ih rest below' (by omega) ?_ (by omega)]
      · rw [shiftRight_eq_div_pow, Nat.pow_add, show (2 : ℕ) ^ 7 = 0x80 from rfl]
        have whole := div_add_mod value 0x80
        have product : value / 0x80 * (2 ^ shift * 0x80) = 0x80 * (value / 0x80) * 2 ^ shift := by
          ring
        rw [product, Nat.add_assoc, ← Nat.add_mul, Nat.add_comm (value % 0x80), whole]
      · rw [shiftRight_eq_div_pow]
        exact Nat.div_lt_of_lt_mul (by omega)

/-- **A reader takes back the varint that was written.** -/
theorem readUvarint_write (fits : value < 2 ^ 64) (rest : Bytes) :
    readUvarint (writeUvarint value ++ rest) = some (value, rest) := by
  rw [readUvarint, writeUvarint, readUvarintFrom_digits 10 rest (by decide) (by decide) fits
    (by decide)]
  simp

/-! ## Readers built from others -/

/-- A reader takes a value off the front of bytes, or refuses them. -/
abbrev Reader (α : Type) := StateT Bytes Option α

def byte : Reader UInt8
  | [] => none
  | byte :: rest => some (byte, rest)

section Reader

variable {α β : Type} {read : Reader α} {next : α → Reader β} {bytes bytes' : Bytes} {a : α} {b : β}

/-- The reader takes these bytes for the value, whatever follows. -/
def Takes (read : Reader α) (bytes : Bytes) (a : α) : Prop :=
  ∀ rest, read (bytes ++ rest) = some (a, rest)

theorem Takes.pure (a : α) : Takes (pure a) [] a := fun _ => rfl

theorem Takes.bind (first : Takes read bytes a) (second : Takes (next a) bytes' b) :
    Takes (read >>= next) (bytes ++ bytes') b := by
  intro rest
  rw [append_assoc]
  exact (congrArg (Option.bind · _) (first _)).trans (second rest)

/-- The last part of what is read. -/
theorem Takes.last (takes : Takes read bytes a) (f : α → β) :
    Takes (read >>= fun a => Pure.pure (f a)) bytes (f a) := by
  rw [← append_nil bytes]
  exact takes.bind (.pure (f a))

end Reader

end Wire
