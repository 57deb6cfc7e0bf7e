import Celld.Wire.Bytes

/-!
# The LTX file format

An LTX file is a header of 100 bytes, page frames, an all-zero page header, the page
index with its length, and a trailer of 16 bytes.  This file has the three fixed parts:
how they are written, read and checked.

Integers are big-endian and of the width the source gives them.  `corrupt` drops its
message, so every failed check is the same error.
-/

namespace Celld.Ltx

open Option Wire

/-- The errors of the LTX code. -/
inductive Error where
  | ltxCorrupted
  | checksumMismatch
  | unexpectedEof
  | txNotAvailable
  | other (message : String)
  deriving DecidableEq

/-- An object in a listing. -/
structure FileInfo where
  level : ℕ
  minTxid : ℕ
  maxTxid : ℕ
  size : ℤ := 0
  createdAt : Option ℕ := none
  deriving DecidableEq

/-- Sixteen hexadecimal digits. -/
def txidText (txid : ℕ) : String :=
  let digits := Nat.toDigits 16 txid
  String.ofList (List.replicate (16 - digits.length) '0' ++ digits)

/-! ## Fields -/

section Fields

variable {α β : Type} {value : α} {read : Option α}

def u16Bytes (value : UInt16) : Bytes := beBytes 2 value.toNat
def u32Bytes (value : UInt32) : Bytes := beBytes 4 value.toNat
def u64Bytes (value : UInt64) : Bytes := beBytes 8 value.toNat
def i64Bytes (value : Int64) : Bytes := u64Bytes value.toUInt64

def readU16 (bytes : Bytes) : Option (UInt16 × Bytes) :=
  (readBe 2 bytes).map (Prod.map UInt16.ofNat id)
def readU32 (bytes : Bytes) : Option (UInt32 × Bytes) :=
  (readBe 4 bytes).map (Prod.map UInt32.ofNat id)
def readU64 (bytes : Bytes) : Option (UInt64 × Bytes) :=
  (readBe 8 bytes).map (Prod.map UInt64.ofNat id)
def readI64 (bytes : Bytes) : Option (Int64 × Bytes) :=
  (readU64 bytes).map (Prod.map UInt64.toInt64 id)

@[simp] theorem length_u16Bytes (value : UInt16) : (u16Bytes value).length = 2 :=
  length_beBytes _ _
@[simp] theorem length_u32Bytes (value : UInt32) : (u32Bytes value).length = 4 :=
  length_beBytes _ _
@[simp] theorem length_u64Bytes (value : UInt64) : (u64Bytes value).length = 8 :=
  length_beBytes _ _
@[simp] theorem length_i64Bytes (value : Int64) : (i64Bytes value).length = 8 :=
  length_beBytes _ _

@[simp] theorem readU16_append (value : UInt16) (rest : Bytes) :
    readU16 (u16Bytes value ++ rest) = some (value, rest) := by
  rw [readU16, u16Bytes, readBe_append value.toNat_lt]
  simp

@[simp] theorem readU32_append (value : UInt32) (rest : Bytes) :
    readU32 (u32Bytes value ++ rest) = some (value, rest) := by
  rw [readU32, u32Bytes, readBe_append value.toNat_lt]
  simp

@[simp] theorem readU64_append (value : UInt64) (rest : Bytes) :
    readU64 (u64Bytes value ++ rest) = some (value, rest) := by
  rw [readU64, u64Bytes, readBe_append value.toNat_lt]
  simp

@[simp] theorem readI64_append (value : Int64) (rest : Bytes) :
    readI64 (i64Bytes value ++ rest) = some (value, rest) := by
  rw [readI64, i64Bytes, readU64_append]
  simp

theorem bind_read (ok : read = some value)
    (next : α → Option β) : (read >>= next) = next value := by
  rw [ok]
  rfl

theorem bind_ok {first : Except Error α} (ok : first = .ok value)
    (next : α → Except Error β) : (first >>= next) = next value := by
  rw [ok]
  rfl

/-- Of a computation that succeeds, every step does. -/
theorem ok_of_bind {first : Except Error α} {next : α → Except Error β} {last : β}
    (ok : (first >>= next) = .ok last) : ∃ value, first = .ok value ∧ next value = .ok last := by
  cases first with
  | error => cases ok
  | ok value => exact ⟨value, rfl, ok⟩

/-- A field the caller has made sure is there. -/
def orCorrupt {α : Type} (read : Option α) : Except Error α :=
  match read with
  | some value => .ok value
  | none => .error .ltxCorrupted

/-- Bytes a reader must have. -/
def orEof {α : Type} (read : Option α) : Except Error α :=
  match read with
  | some value => .ok value
  | none => .error .unexpectedEof

theorem bind_orCorrupt (ok : read = some value)
    (next : α → Except Error β) : (orCorrupt read >>= next) = next value := by
  rw [ok]
  rfl

theorem bind_orEof (ok : read = some value)
    (next : α → Except Error β) : (orEof read >>= next) = next value := by
  rw [ok]
  rfl

/-- A failed check is a corrupt file. -/
def require (holds : Prop) [Decidable holds] : Except Error Unit :=
  if holds then .ok () else .error .ltxCorrupted

theorem require_pos {holds : Prop} [Decidable holds] (proof : holds) :
    require holds = .ok () := if_pos proof

theorem require_eq_ok {holds : Prop} [Decidable holds] {u : Unit} (ok : require holds = .ok u) :
    holds := by
  unfold require at ok
  split at ok
  · assumption
  · cases ok

end Fields

/-! ## Constants -/

def magic : Bytes := [0x4c, 0x54, 0x58, 0x31]
def version : ℤ := 3
def headerSize : ℕ := 100
def pageHeaderSize : ℕ := 6
def trailerSize : ℕ := 16
def checksumSize : ℕ := 8
def checksumFlag : UInt64 := (1 : UInt64) <<< 63
/-- Checksums are not tracked for the file. -/
def headerFlagNoChecksum : UInt32 := (1 : UInt32) <<< 1
def headerFlagMask : UInt32 := headerFlagNoChecksum
/-- A compressed size follows the page header, and the page is a raw LZ4 block. -/
def pageHeaderFlagSize : UInt16 := (1 : UInt16) <<< 0
def pageHeaderFlagMask : UInt16 := pageHeaderFlagSize
/-- The offset of SQLite's lock bytes. -/
def pendingByte : ℕ := 0x40000000

/-- The page that holds the lock bytes; it is never stored. -/
def lockPgno (pageSize : UInt32) : UInt32 :=
  if pageSize = 0 then 0 else UInt32.ofNat (pendingByte / pageSize.toNat) + 1

/-- Powers of two from 512 to 65536. -/
def isValidPageSize (size : UInt32) : Bool :=
  [512, 1024, 2048, 4096, 8192, 16384, 32768, 65536].contains size

theorem isValidPageSize_cases {size : UInt32} (valid : isValidPageSize size = true) :
    size = 512 ∨ size = 1024 ∨ size = 2048 ∨ size = 4096 ∨ size = 8192 ∨ size = 16384 ∨
      size = 32768 ∨ size = 65536 := by
  simpa [isValidPageSize] using valid

theorem toNat_pos_of_isValidPageSize {size : UInt32} (valid : isValidPageSize size = true) :
    0 < size.toNat := by
  rcases isValidPageSize_cases valid with eq | eq | eq | eq | eq | eq | eq | eq
    <;> rw [eq] <;> decide

/-! ## The header -/

structure Header where
  version : ℤ := 0
  flags : UInt32 := 0
  pageSize : UInt32 := 0
  commit : UInt32 := 0
  minTxid : UInt64 := 0
  maxTxid : UInt64 := 0
  timestamp : Int64 := 0
  preApplyChecksum : UInt64 := 0
  walOffset : Int64 := 0
  walSize : Int64 := 0
  walSalt1 : UInt32 := 0
  walSalt2 : UInt32 := 0
  nodeId : UInt64 := 0
  deriving DecidableEq

namespace Header

def isSnapshot (h : Header) : Bool := h.minTxid = 1

def noChecksum (h : Header) : Bool := h.flags &&& headerFlagNoChecksum ≠ 0

def marshal (h : Header) : Bytes :=
  magic ++ (u32Bytes h.flags ++ (u32Bytes h.pageSize ++ (u32Bytes h.commit ++
    (u64Bytes h.minTxid ++ (u64Bytes h.maxTxid ++ (i64Bytes h.timestamp ++
    (u64Bytes h.preApplyChecksum ++ (i64Bytes h.walOffset ++ (i64Bytes h.walSize ++
    (u32Bytes h.walSalt1 ++ (u32Bytes h.walSalt2 ++ (u64Bytes h.nodeId ++
      List.replicate 20 0))))))))))))

/-- The fields behind the magic, one after the other. -/
def fields (b : Bytes) : Option Header := do
  let (flags, b) ← readU32 b
  let (pageSize, b) ← readU32 b
  let (commit, b) ← readU32 b
  let (minTxid, b) ← readU64 b
  let (maxTxid, b) ← readU64 b
  let (timestamp, b) ← readI64 b
  let (preApplyChecksum, b) ← readU64 b
  let (walOffset, b) ← readI64 b
  let (walSize, b) ← readI64 b
  let (walSalt1, b) ← readU32 b
  let (walSalt2, b) ← readU32 b
  let (nodeId, _) ← readU64 b
  return {
    version := Ltx.version, flags, pageSize, commit, minTxid, maxTxid, timestamp,
    preApplyChecksum, walOffset, walSize, walSalt1, walSalt2, nodeId }

def parse (b : Bytes) : Except Error Header := do
  require (headerSize ≤ b.length)
  require (b.take 4 = magic)
  orCorrupt (fields (b.drop 4))

/-- The checks of `validate`, in its order. -/
@[mk_iff]
structure Valid (h : Header) : Prop where
  version : h.version = Ltx.version
  flags : h.flags = h.flags &&& headerFlagMask
  pageSize : isValidPageSize h.pageSize = true
  minTxid : h.minTxid ≠ 0
  maxTxid : h.maxTxid ≠ 0
  ordered : h.minTxid ≤ h.maxTxid
  walOffset : 0 ≤ h.walOffset
  walSize : 0 ≤ h.walSize
  salt : ¬ ((h.walSalt1 ≠ 0 ∨ h.walSalt2 ≠ 0) ∧ h.walOffset = 0)
  wal : ¬ (h.walOffset = 0 ∧ h.walSize ≠ 0)
  preApply :
    if h.isSnapshot || h.noChecksum then h.preApplyChecksum = 0
    else h.preApplyChecksum ≠ 0 ∧ h.preApplyChecksum &&& checksumFlag ≠ 0

instance (h : Header) : Decidable h.Valid := decidable_of_iff _ h.valid_iff.symm

def validate (h : Header) : Except Error Unit := require h.Valid

@[simp] theorem length_marshal (h : Header) : h.marshal.length = headerSize := by
  simp [marshal, magic, headerSize]

theorem fields_marshal (h : Header) (current : h.version = Ltx.version) :
    fields (h.marshal.drop 4) = some h := by
  have body : h.marshal.drop 4 = u32Bytes h.flags ++ (u32Bytes h.pageSize ++
      (u32Bytes h.commit ++ (u64Bytes h.minTxid ++ (u64Bytes h.maxTxid ++ (i64Bytes h.timestamp ++
      (u64Bytes h.preApplyChecksum ++ (i64Bytes h.walOffset ++ (i64Bytes h.walSize ++
      (u32Bytes h.walSalt1 ++ (u32Bytes h.walSalt2 ++ (u64Bytes h.nodeId ++
      List.replicate 20 0))))))))))) := by
    simp only [marshal]
    exact List.drop_left' rfl
  rw [body]
  refine (bind_read (readU32_append h.flags _) _).trans ?_
  refine (bind_read (readU32_append h.pageSize _) _).trans ?_
  refine (bind_read (readU32_append h.commit _) _).trans ?_
  refine (bind_read (readU64_append h.minTxid _) _).trans ?_
  refine (bind_read (readU64_append h.maxTxid _) _).trans ?_
  refine (bind_read (readI64_append h.timestamp _) _).trans ?_
  refine (bind_read (readU64_append h.preApplyChecksum _) _).trans ?_
  refine (bind_read (readI64_append h.walOffset _) _).trans ?_
  refine (bind_read (readI64_append h.walSize _) _).trans ?_
  refine (bind_read (readU32_append h.walSalt1 _) _).trans ?_
  refine (bind_read (readU32_append h.walSalt2 _) _).trans ?_
  refine (bind_read (readU64_append h.nodeId _) _).trans ?_
  rw [← current]
  rfl

/-- **A header is read back as it was written.** -/
theorem parse_marshal {h : Header} (valid : h.Valid) : parse h.marshal = .ok h := by
  have front : h.marshal.take 4 = magic := by simp [marshal, magic]
  rw [parse, require_pos h.length_marshal.ge, require_pos front, fields_marshal h valid.version]
  rfl

end Header

/-! ## Page headers -/

structure PageHeader where
  pgno : UInt32 := 0
  flags : UInt16 := 0
  deriving DecidableEq

namespace PageHeader

variable (p : PageHeader)

def isZero : Bool := p.pgno = 0 ∧ p.flags = 0

def marshal : Bytes := u32Bytes p.pgno ++ u16Bytes p.flags

def parse (b : Bytes) : Except Error PageHeader :=
  orCorrupt do
    let (pgno, b) ← readU32 b
    let (flags, _) ← readU16 b
    return { pgno, flags }

/-- The checks of `validate`. -/
def Valid : Prop := p.pgno ≠ 0 ∧ p.flags = p.flags &&& pageHeaderFlagMask

instance (p : PageHeader) : Decidable p.Valid := inferInstanceAs (Decidable (_ ∧ _))

def validate : Except Error Unit := require p.Valid

@[simp] theorem length_marshal : p.marshal.length = pageHeaderSize := by
  simp [marshal, pageHeaderSize]

@[simp] theorem parse_marshal : parse p.marshal = .ok p := by
  have whole : p.marshal = u32Bytes p.pgno ++ (u16Bytes p.flags ++ []) := by
    rw [List.append_nil, marshal]
  rw [parse, whole]
  simp only [readU32_append, readU16_append, orCorrupt, bind_eq_bind, bind_some,
    pure_def]

end PageHeader

/-! ## The trailer -/

structure Trailer where
  postApplyChecksum : UInt64 := 0
  fileChecksum : UInt64 := 0
  deriving DecidableEq

namespace Trailer

def marshal (t : Trailer) : Bytes := u64Bytes t.postApplyChecksum ++ u64Bytes t.fileChecksum

def parse (b : Bytes) : Except Error Trailer :=
  orCorrupt do
    let (postApplyChecksum, b) ← readU64 b
    let (fileChecksum, _) ← readU64 b
    return { postApplyChecksum, fileChecksum }

/-- The checksum fields fit the checksum mode of the header. -/
def Valid (t : Trailer) (h : Header) : Prop :=
  (if h.noChecksum then t.postApplyChecksum = 0
    else t.postApplyChecksum ≠ 0 ∧ t.postApplyChecksum &&& checksumFlag ≠ 0) ∧
  t.fileChecksum ≠ 0 ∧ t.fileChecksum &&& checksumFlag ≠ 0

instance (t : Trailer) (h : Header) : Decidable (t.Valid h) := inferInstanceAs (Decidable (_ ∧ _))

def validate (t : Trailer) (h : Header) : Except Error Unit := require (t.Valid h)

@[simp] theorem length_marshal (t : Trailer) : t.marshal.length = trailerSize := by
  simp [marshal, trailerSize]

@[simp] theorem parse_marshal (t : Trailer) : parse t.marshal = .ok t := by
  have whole : t.marshal = u64Bytes t.postApplyChecksum ++ (u64Bytes t.fileChecksum ++ []) := by
    rw [List.append_nil, marshal]
  rw [parse, whole]
  simp only [readU64_append, orCorrupt, bind_eq_bind, bind_some, pure_def]

end Trailer

end Celld.Ltx
