import Celld.Ltx.Codec

/-!
# What is encoded is decoded

The encoder either refuses its input or writes the one layout `fileBytes` says, and the
decoder reads that layout back.  `Encodable` is what the encoder accepts: pages that fit
the header, in an order the header allows, and checksums of the header's mode.

The decoder checks more than the encoder does.  It recomputes the rolling checksum of a
snapshot that tracks checksums, where the encoder takes the caller's word, so the round
trip asks for a truthful one (`SumsMatch`).
-/

namespace Celld.Ltx

open List Nat Wire PageHeader Encoder

/-! ## Layout -/

variable {post : UInt64}

section Layout

variable (c : Codec)

/-- The frame of a page in the file. -/
def pageFrame (encoding : PageEncoding) (page : Page) : Bytes :=
  match encoding with
  | .legacyFrame => marshal ⟨page.1, 0⟩ ++ c.frame page.2
  | .sizedBlock => marshal ⟨page.1, pageHeaderFlagSize⟩ ++
      (u32Bytes (UInt32.ofNat (c.block page.2).length) ++ c.block page.2)

/-- The flags of a page header in the file. -/
def PageEncoding.flags : PageEncoding → UInt16
  | .legacyFrame => 0
  | .sizedBlock => pageHeaderFlagSize

/-- The size field of a page in the file. -/
def sizeField (encoding : PageEncoding) (page : Page) : Bytes :=
  match encoding with
  | .legacyFrame => []
  | .sizedBlock => u32Bytes (UInt32.ofNat (c.block page.2).length)

/-- What the checksum covers of a page. -/
def frameHash (encoding : PageEncoding) (page : Page) : Bytes :=
  marshal ⟨page.1, encoding.flags⟩ ++ sizeField c encoding page ++ page.2

def framesBytes (encoding : PageEncoding) (pages : List Page) : Bytes :=
  pages.flatMap (pageFrame c encoding)

def framesHash (encoding : PageEncoding) (pages : List Page) : Bytes :=
  pages.flatMap (frameHash c encoding)

/-- The index of frames that start at an offset. -/
def indexFrom (encoding : PageEncoding) : ℕ → List Page → List IndexEntry
  | _, [] => []
  | offset, page :: pages =>
      (page.1, offset, (pageFrame c encoding page).length) ::
        indexFrom encoding (offset + (pageFrame c encoding page).length) pages

/-- The index of a file. -/
def fileIndex (encoding : PageEncoding) (pages : List Page) : List IndexEntry :=
  indexFrom c encoding headerSize pages

/-- The index bytes and their length. -/
def indexSection (encoding : PageEncoding) (pages : List Page) : Bytes :=
  pageIndexBytes (fileIndex c encoding pages) ++
    u64Bytes (UInt64.ofNat (pageIndexBytes (fileIndex c encoding pages)).length)

/-- All that the file checksum covers. -/
def fileHash (encoding : PageEncoding) (h : Header) (pages : List Page) (post : UInt64) : Bytes :=
  h.marshal ++ framesHash c encoding pages ++ List.replicate pageHeaderSize 0 ++
    indexSection c encoding pages ++ u64Bytes post

def fileTrailer (encoding : PageEncoding) (h : Header) (pages : List Page) (post : UInt64) :
    Trailer :=
  { postApplyChecksum := post,
    fileChecksum := checksumFlag ||| c.crc (fileHash c encoding h pages post) }

/-- **The layout of a file.** -/
def fileBytes (encoding : PageEncoding) (h : Header) (pages : List Page) (post : UInt64) : Bytes :=
  h.marshal ++ framesBytes c encoding pages ++ List.replicate pageHeaderSize 0 ++
    indexSection c encoding pages ++ (fileTrailer c encoding h pages post).marshal

end Layout

theorem framesBytes_cons (c : Codec) (encoding : PageEncoding) (page : Page) (pages : List Page) :
    framesBytes c encoding (page :: pages)
      = pageFrame c encoding page ++ framesBytes c encoding pages := by
  rw [framesBytes, flatMap_cons, framesBytes]

/-! ## What the encoder accepts -/

/-- The page may be stored in a file with the header. -/
structure Fits (h : Header) (page : Page) : Prop where
  pgno : page.1 ≠ 0
  commit : page.1 ≤ h.commit
  lock : page.1 ≠ lockPgno h.pageSize
  length : page.2.length = h.pageSize.toNat

/-- Pages may follow `previous` one after the other. -/
def Ordered (h : Header) : UInt32 → List Page → Prop
  | _, [] => True
  | previous, page :: pages => InOrder h previous page.1 ∧ Ordered h page.1 pages

/-- **What the encoder accepts.** -/
structure Encodable (h : Header) (pages : List Page) (post : UInt64) : Prop where
  valid : h.Valid
  fits : ∀ page ∈ pages, Fits h page
  ordered : Ordered h 0 pages
  checksum : if h.noChecksum then post = 0 else post ≠ 0 ∧ post &&& checksumFlag ≠ 0
  empty : ¬ (h.commit = 0 ∧ post ≠ checksumFlag)

theorem checksumFlag_or (x : UInt64) :
    checksumFlag ||| x ≠ 0 ∧ (checksumFlag ||| x) &&& checksumFlag ≠ 0 := by
  have kept : (checksumFlag ||| x) &&& checksumFlag = checksumFlag := by
    rw [UInt64.and_comm]
    apply UInt64.toBitVec_inj.mp
    simp only [UInt64.toBitVec_and, UInt64.toBitVec_or]
    ext i
    simp only [BitVec.getElem_and, BitVec.getElem_or]
    cases checksumFlag.toBitVec[i] <;> simp
  have flagged : checksumFlag ≠ 0 := by decide
  refine ⟨?_, by rw [kept]; exact flagged⟩
  intro zero
  rw [zero] at kept
  exact flagged (by rw [← kept]; rfl)

section Encoding

variable {c : Codec} {e next : Encoder} {page : Page} {encoding : PageEncoding} {flags : UInt16}

/-- The encoder after a page. -/
def Encoder.push (c : Codec) (e : Encoder) (page : Page) : Encoder :=
  { e with
    writer := e.writer ++ pageFrame c e.pageEncoding page
    hash := e.hash ++ frameHash c e.pageEncoding page
    bytesWritten := e.bytesWritten + (pageFrame c e.pageEncoding page).length
    previousPageNumber := page.1
    index := e.index ++ [(page.1, e.bytesWritten, (pageFrame c e.pageEncoding page).length)] }

/-- Valid page sizes are at most 64 KiB. -/
theorem Header.Valid.pageSize_le {h : Header} (valid : h.Valid) :
    h.pageSize.toNat ≤ maxPageSize := by
  rcases isValidPageSize_cases valid.pageSize with eq | eq | eq | eq | eq | eq | eq | eq <;>
    rw [eq] <;> decide

theorem length_block_lt (lawful : c.Lawful) {data : Bytes} (small : data.length ≤ maxPageSize) :
    (c.block data).length < 2 ^ 32 := by
  have bound := lawful.length_block data small
  unfold maxPageSize at small
  unfold compressBound at bound
  omega

/-- The page header a caller passes: without flags, or as a decoder read it. -/
def PageEncoding.Accepts (encoding : PageEncoding) (flags : UInt16) : Prop :=
  flags = 0 ∨ encoding = .sizedBlock ∧ flags = pageHeaderFlagSize

theorem Encoder.encodeBody_eq (accepted : e.pageEncoding.Accepts flags)
    (small : (c.block page.2).length < 2 ^ 32) :
    e.encodeBody c ⟨page.1, flags⟩ page.2 = .ok { e with
      writer := e.writer ++ pageFrame c e.pageEncoding page
      hash := e.hash ++ (marshal ⟨page.1, e.pageEncoding.flags⟩ ++
        sizeField c e.pageEncoding page)
      bytesWritten := e.bytesWritten + (pageFrame c e.pageEncoding page).length } := by
  unfold encodeBody
  cases encoding : e.pageEncoding with
  | legacyFrame =>
    have plain : flags = 0 := by
      rcases accepted with plain | ⟨sized, _⟩
      · exact plain
      · rw [encoding] at sized
        cases sized
    subst plain
    refine (bind_ok (require_pos rfl) _).trans ?_
    simp [writeHashed, writeBody, pageFrame, PageEncoding.flags, sizeField, append_assoc,
      Nat.add_assoc, pure, Except.pure, encoding]
  | sizedBlock =>
    have sized : flags ||| pageHeaderFlagSize = pageHeaderFlagSize := by
      rcases accepted with plain | ⟨_, sized⟩
      · rw [plain]
        rfl
      · rw [sized]
        rfl
    refine (bind_ok (require_pos small) _).trans ?_
    simp [writeHashed, writeBody, pageFrame, PageEncoding.flags, sizeField, sized,
      append_assoc, Nat.add_assoc, pure, Except.pure, encoding]

/-- The encoder has its header and is open. -/
structure Encoder.Ready (e : Encoder) : Prop where
  headerWritten : e.headerWritten = true
  closed : e.closed = false
  valid : e.header.Valid

theorem Encoder.Ready.small (ready : e.Ready) (lawful : c.Lawful) (fits : Fits e.header page) :
    (c.block page.2).length < 2 ^ 32 := by
  refine length_block_lt lawful ?_
  rw [fits.length]
  exact ready.valid.pageSize_le

theorem Encoder.Ready.push (ready : e.Ready) (page : Page) : (e.push c page).Ready :=
  ⟨ready.headerWritten, ready.closed, ready.valid⟩

theorem PageEncoding.Accepts.valid
    (accepted : encoding.Accepts flags) : flags = flags &&& pageHeaderFlagMask := by
  rcases accepted with rfl | ⟨_, rfl⟩ <;> rfl

theorem Encoder.encodePage_eq (lawful : c.Lawful) (ready : e.Ready) (fits : Fits e.header page)
    (order : InOrder e.header e.previousPageNumber page.1)
    (accepted : e.pageEncoding.Accepts flags) :
    e.encodePage c ⟨page.1, flags⟩ page.2 = .ok (e.push c page) := by
  have still : ¬ e.closed = true := by
    rw [ready.closed]
    exact Bool.false_ne_true
  unfold encodePage
  refine (bind_ok (require_pos ⟨ready.headerWritten, still, fits.commit, fits.length⟩) _).trans ?_
  refine (bind_ok (require_pos ⟨fits.pgno, accepted.valid⟩) _).trans ?_
  refine (bind_ok (require_pos fits.lock) _).trans ?_
  refine (bind_ok (require_pos order) _).trans ?_
  refine (bind_ok (encodeBody_eq accepted (ready.small lawful fits)) _).trans ?_
  simp [push, frameHash, append_assoc, pure, Except.pure]

/-- What the encoder takes it checks. -/
theorem Encoder.of_encodePage (ok : e.encodePage c ⟨page.1, flags⟩ page.2 = .ok next) :
    Fits e.header page ∧ InOrder e.header e.previousPageNumber page.1 := by
  unfold encodePage at ok
  obtain ⟨_, open_, ok⟩ := ok_of_bind ok
  obtain ⟨_, valid, ok⟩ := ok_of_bind ok
  obtain ⟨_, lock, ok⟩ := ok_of_bind ok
  obtain ⟨_, order, ok⟩ := ok_of_bind ok
  obtain ⟨_, _, commit, length⟩ := require_eq_ok open_
  exact ⟨⟨(require_eq_ok valid).1, commit, require_eq_ok lock, length⟩, require_eq_ok order⟩

/-- **Pages are encoded one after the other, or one of them is refused.** -/
theorem Encoder.encodePages_iff (lawful : c.Lawful) (ready : e.Ready) {pages : List Page} :
    e.encodePages c pages = .ok next ↔
      (∀ page ∈ pages, Fits e.header page) ∧ Ordered e.header e.previousPageNumber pages ∧
        next = pages.foldl (push c) e := by
  induction pages generalizing e with
  | nil =>
    constructor
    · intro ok
      cases ok
      exact ⟨by rintro _ ⟨⟩, trivial, rfl⟩
    · rintro ⟨_, _, rfl⟩
      rfl
  | cons page pages ih =>
    have cons : e.encodePages c (page :: pages)
        = (e.encodePage c ⟨page.1, 0⟩ page.2 >>= fun e => e.encodePages c pages) := rfl
    rw [cons]
    constructor
    · intro ok
      obtain ⟨_, encoded, rest⟩ := ok_of_bind ok
      obtain ⟨fits, order⟩ := of_encodePage encoded
      rw [encodePage_eq lawful ready fits order (.inl rfl)] at encoded
      cases encoded
      obtain ⟨allFit, ordered, eq⟩ := (ih (ready.push page)).mp rest
      exact ⟨forall_mem_cons.mpr ⟨fits, allFit⟩, ⟨order, ordered⟩, eq⟩
    · rintro ⟨allFit, ⟨order, ordered⟩, eq⟩
      obtain ⟨fits, rest⟩ := forall_mem_cons.mp allFit
      rw [encodePage_eq lawful ready fits order (.inl rfl)]
      exact (ih (ready.push page)).mpr ⟨rest, ordered, eq⟩

theorem Encoder.foldl_push (e : Encoder) (pages : List Page) :
    pages.foldl (push c) e = { e with
      writer := e.writer ++ framesBytes c e.pageEncoding pages
      hash := e.hash ++ framesHash c e.pageEncoding pages
      bytesWritten := e.bytesWritten + (framesBytes c e.pageEncoding pages).length
      previousPageNumber := pages.foldl (fun _ page => page.1) e.previousPageNumber
      index := e.index ++ indexFrom c e.pageEncoding e.bytesWritten pages } := by
  induction pages generalizing e with
  | nil => simp [framesBytes, framesHash, indexFrom]
  | cons page pages ih =>
    rw [foldl_cons, ih]
    simp [push, framesBytes, framesHash, indexFrom, append_assoc, Nat.add_assoc]

/-- The encoder before its first page. -/
def Encoder.opened (encoding : PageEncoding) (h : Header) : Encoder :=
  { pageEncoding := encoding, header := h, writer := h.marshal, hash := h.marshal,
    bytesWritten := headerSize, headerWritten := true }

theorem Encoder.encodeHeader_iff {h : Header} :
    encodeHeader { pageEncoding := encoding } h = .ok next ↔
      h.Valid ∧ next = opened encoding h := by
  have opens : ¬ (({ pageEncoding := encoding } : Encoder).headerWritten = true ∨
      ({ pageEncoding := encoding } : Encoder).closed = true) := by simp
  unfold encodeHeader
  rw [bind_ok (require_pos opens)]
  constructor
  · intro ok
    obtain ⟨_, valid, eq⟩ := ok_of_bind ok
    refine ⟨require_eq_ok valid, ?_⟩
    cases eq
    simp [opened, writeHashed]
  · rintro ⟨valid, rfl⟩
    refine (bind_ok (require_pos valid) _).trans ?_
    simp [opened, writeHashed, pure, Except.pure]

/-- The encoder with its zero page header, index and trailer written. -/
def Encoder.finish (c : Codec) (e : Encoder) (post : UInt64) : Encoder :=
  let tail := List.replicate pageHeaderSize 0 ++ (pageIndexBytes e.index ++
    u64Bytes (UInt64.ofNat (pageIndexBytes e.index).length))
  let hash := e.hash ++ tail ++ u64Bytes post
  let trailer : Trailer :=
    { postApplyChecksum := post, fileChecksum := checksumFlag ||| c.crc hash }
  { e with
    hash := hash
    trailer := trailer
    writer := e.writer ++ tail ++ trailer.marshal
    bytesWritten := e.bytesWritten + tail.length + trailerSize
    closed := true }

theorem Encoder.close_iff (ready : e.Ready) :
    e.close c post = .ok next ↔
      (if e.header.noChecksum then post = 0 else post ≠ 0 ∧ post &&& checksumFlag ≠ 0) ∧
        ¬ (e.header.commit = 0 ∧ post ≠ checksumFlag) ∧ next = e.finish c post := by
  have open_ : e.headerWritten = true ∧ ¬ e.closed = true := by
    rw [ready.closed]
    exact ⟨ready.headerWritten, Bool.false_ne_true⟩
  have length : e.bytesWritten + pageHeaderSize + (pageIndexBytes e.index).length
      - (e.bytesWritten + pageHeaderSize) = (pageIndexBytes e.index).length := by omega
  unfold close
  rw [bind_ok (require_pos open_)]
  simp only [writeHashed, length_replicate, length]
  constructor
  · intro ok
    obtain ⟨_, valid, ok⟩ := ok_of_bind ok
    obtain ⟨_, nonempty, eq⟩ := ok_of_bind ok
    refine ⟨(require_eq_ok valid).1, require_eq_ok nonempty, ?_⟩
    cases eq
    simp [finish, append_assoc, Nat.add_assoc]
  · rintro ⟨checksum, nonempty, rfl⟩
    refine (bind_ok (require_pos ⟨checksum, checksumFlag_or _⟩) _).trans ?_
    refine (bind_ok (require_pos nonempty) _).trans ?_
    simp [finish, append_assoc, Nat.add_assoc, pure, Except.pure]

theorem Encoder.finish_writer (encoding : PageEncoding) (h : Header) (pages : List Page)
    (post : UInt64) :
    ((pages.foldl (push c) (opened encoding h)).finish c post).writer
      = fileBytes c encoding h pages post := by
  rw [foldl_push]
  simp [finish, opened, fileBytes, fileTrailer, fileHash, indexSection, fileIndex,
    append_assoc]

/-- **The encoder writes one layout, or refuses.** -/
theorem encodeFile_iff (lawful : c.Lawful) {h : Header} {pages : List Page} {bytes : Bytes} :
    encodeFile c encoding h pages post = .ok bytes ↔
      Encodable h pages post ∧ bytes = fileBytes c encoding h pages post := by
  have opened : h.Valid → (opened encoding h).Ready := fun valid => ⟨rfl, rfl, valid⟩
  have header : ∀ e : Encoder, (pages.foldl (push c) e).header = e.header := by
    intro e
    rw [Encoder.foldl_push]
  have pushed : h.Valid → (pages.foldl (Encoder.push c) (Encoder.opened encoding h)).Ready := by
    intro valid
    rw [foldl_push]
    exact ⟨rfl, rfl, valid⟩
  constructor
  · intro ok
    obtain ⟨_, headed, ok⟩ := ok_of_bind ok
    obtain ⟨valid, rfl⟩ := encodeHeader_iff.mp headed
    obtain ⟨_, paged, ok⟩ := ok_of_bind ok
    obtain ⟨fits, ordered, rfl⟩ := (encodePages_iff lawful (opened valid)).mp paged
    obtain ⟨_, closed, ok⟩ := ok_of_bind ok
    obtain ⟨checksum, nonempty, rfl⟩ := (close_iff (pushed valid)).mp closed
    rw [header] at checksum nonempty
    cases ok
    exact ⟨⟨valid, fits, ordered, checksum, nonempty⟩, finish_writer encoding h pages post⟩
  · rintro ⟨encodable, rfl⟩
    have valid := encodable.valid
    refine (bind_ok (encodeHeader_iff.mpr ⟨valid, rfl⟩) _).trans ?_
    refine (bind_ok ((encodePages_iff lawful (opened valid)).mpr
      ⟨encodable.fits, encodable.ordered, rfl⟩) _).trans ?_
    refine (bind_ok ((close_iff (pushed valid)).mpr ⟨?_, ?_, rfl⟩) _).trans ?_
    · rw [header]
      exact encodable.checksum
    · rw [header]
      exact encodable.empty
    · exact congrArg Except.ok (finish_writer encoding h pages post)

end Encoding

/-! ## Page numbers increase -/

section Order

variable {h : Header} {page : Page} {pages : List Page}

/-- The page before the lock page, whatever the page size, is far from the last one. -/
theorem Header.Valid.lockPgno_pred (valid : h.Valid) :
    (lockPgno h.pageSize - 1).toNat ≤ 2 ^ 21 ∧ 0 < (lockPgno h.pageSize - 1).toNat := by
  rcases isValidPageSize_cases valid.pageSize with eq | eq | eq | eq | eq | eq | eq | eq <;>
    rw [eq] <;> decide

theorem InOrder.lt (valid : h.Valid) {previous pgno : UInt32} (order : InOrder h previous pgno)
    (positive : pgno ≠ 0) : previous < pgno := by
  have wrap : ∀ step : ℕ, pgno.toNat = (previous.toNat + step) % 2 ^ 32 → 0 < step →
      previous.toNat + step < 2 ^ 32 → previous < pgno := by
    intro step eq _ small
    rw [mod_eq_of_lt small] at eq
    exact UInt32.lt_iff_toNat_lt.mpr (by omega)
  have nonzero : pgno.toNat ≠ 0 := fun zero => positive (UInt32.toNat_inj.mp zero)
  unfold InOrder at order
  split at order
  · split at order
    · rename_i first
      rw [first, order]
      decide
    · split at order
      · rename_i before
        have small := valid.lockPgno_pred.1
        rw [← before] at small
        refine wrap 2 ?_ (by decide) (by omega)
        rw [order, UInt32.toNat_add]
        rfl
      · have eq : pgno.toNat = (previous.toNat + 1) % 2 ^ 32 := by
          rw [order, UInt32.toNat_add]
          rfl
        refine wrap 1 eq (by decide) ?_
        have below := previous.toNat_lt
        by_contra wide
        have full : previous.toNat + 1 = 2 ^ 32 := by omega
        rw [full, mod_self] at eq
        exact nonzero eq
  · exact order

/-- Pages stand in increasing order. -/
theorem Ordered.increasing (valid : h.Valid) {previous : UInt32}
    (ordered : Ordered h previous pages)
    (fits : ∀ page ∈ pages, Fits h page) :
    (previous :: pages.map Prod.fst).Pairwise (· < ·) := by
  induction pages generalizing previous with
  | nil => exact pairwise_singleton _ _
  | cons page pages ih =>
    obtain ⟨order, ordered⟩ := ordered
    obtain ⟨fit, fits⟩ := forall_mem_cons.mp fits
    have first : previous < page.1 := order.lt valid fit.pgno
    have rest := ih ordered fits
    refine pairwise_cons.mpr ⟨?_, rest⟩
    intro pgno mem
    rcases mem_cons.mp mem with rfl | later
    · exact first
    · exact UInt32.lt_trans first ((pairwise_cons.mp rest).1 pgno later)

theorem Encodable.increasing (encodable : Encodable h pages post) :
    (pages.map Prod.fst).Pairwise (· < ·) :=
  (pairwise_cons.mp (encodable.ordered.increasing encodable.valid encodable.fits)).2

theorem Encodable.length_le (encodable : Encodable h pages post) :
    pages.length ≤ 2 ^ 32 := by
  have nodup : ((pages.map Prod.fst).map UInt32.toNat).Nodup := by
    refine pairwise_map.mpr (encodable.increasing.imp ?_)
    intro _ _ less
    exact (UInt32.lt_iff_toNat_lt.mp less).ne
  have below : ((pages.map Prod.fst).map UInt32.toNat).toFinset ⊆ Finset.range (2 ^ 32) := by
    intro _ mem
    rw [mem_toFinset, mem_map] at mem
    obtain ⟨pgno, _, rfl⟩ := mem
    exact Finset.mem_range.mpr pgno.toNat_lt
  have card := Finset.card_le_card below
  rwa [toFinset_card_of_nodup nodup, length_map, length_map, Finset.card_range]
    at card

end Order

/-! ## The index fits 64 bits -/

section Index

variable {c : Codec} {encoding : PageEncoding} {h : Header} {pages : List Page}

theorem writeUvarint_length_pos (value : ℕ) : 0 < (writeUvarint value).length := by
  rw [writeUvarint, uvarintDigits]
  split <;> simp

theorem length_lt_pageIndexBytes (index : List IndexEntry) :
    index.length < (pageIndexBytes index).length := by
  have entries : index.length * 1 ≤ (index.flatMap indexEntryBytes).length := by
    refine le_length_flatMap fun entry _ => ?_
    have first := writeUvarint_length_pos entry.1.toNat
    rw [indexEntryBytes, length_append]
    omega
  have stop := writeUvarint_length_pos 0
  rw [pageIndexBytes, length_append]
  omega

/-- The entry is one a varint index can hold. -/
structure EntryFits (entry : IndexEntry) : Prop where
  pgno : entry.1 ≠ 0
  offset : entry.2.1 < 2 ^ 64
  size : entry.2.2 < 2 ^ 64

/-- **A page index is read back as it was written.** -/
theorem decodeIndexEntries_bytes {index : List IndexEntry} (fits : ∀ entry ∈ index, EntryFits entry)
    {fuel : ℕ} (enough : index.length < fuel) :
    decodeIndexEntries fuel (pageIndexBytes index) = .ok index := by
  induction index generalizing fuel with
  | nil =>
    obtain ⟨fuel, rfl⟩ := exists_eq_succ_of_ne_zero (Nat.pos_iff_ne_zero.mp enough)
    have zero : readUvarint (pageIndexBytes []) = some (0, []) := by decide
    rw [decodeIndexEntries, zero]
    rfl
  | cons entry index ih =>
    obtain ⟨fuel, rfl⟩ := exists_eq_succ_of_ne_zero (Nat.ne_of_gt (zero_lt_of_lt enough))
    obtain ⟨fit, fits⟩ := forall_mem_cons.mp fits
    have bytes : pageIndexBytes (entry :: index) = writeUvarint entry.1.toNat ++
        (writeUvarint entry.2.1 ++ (writeUvarint entry.2.2 ++ pageIndexBytes index)) := by
      simp [pageIndexBytes, indexEntryBytes, append_assoc]
    have wide : entry.1.toNat < 2 ^ 64 := Nat.lt_trans entry.1.toNat_lt (by decide)
    have nonzero : entry.1.toNat ≠ 0 := fun zero => fit.pgno (UInt32.toNat_inj.mp zero)
    rw [bytes, decodeIndexEntries]
    refine (bind_orCorrupt (readUvarint_write wide _) _).trans ?_
    refine (if_neg nonzero).trans ?_
    refine (bind_orCorrupt (readUvarint_write fit.offset _) _).trans ?_
    refine (bind_orCorrupt (readUvarint_write fit.size _) _).trans ?_
    refine (bind_ok (ih fits (by simpa using enough)) _).trans ?_
    rw [UInt32.ofNat_toNat]
    rfl

/-- The most bytes a frame takes. -/
theorem length_pageFrame_le (lawful : c.Lawful) (valid : h.Valid) {page : Page}
    (fits : Fits h page) :
    (pageFrame c encoding page).length ≤ 65819 := by
  have small := valid.pageSize_le
  rw [← fits.length] at small
  have block := lawful.length_block page.2 small
  have frame := lawful.length_frame page.2 small
  unfold maxPageSize at small
  unfold compressBound at block
  unfold legacyFrameOverhead at frame
  cases encoding <;> simp only [pageFrame, length_append, length_marshal,
    length_u32Bytes, pageHeaderSize] <;> omega

theorem length_pageFrame_pos (page : Page) : 0 < (pageFrame c encoding page).length := by
  cases encoding <;> simp only [pageFrame, length_append, length_marshal,
    pageHeaderSize] <;> omega

theorem length_framesBytes_le (lawful : c.Lawful) (valid : h.Valid)
    (fits : ∀ page ∈ pages, Fits h page) :
    (framesBytes c encoding pages).length ≤ pages.length * 65819 :=
  length_flatMap_le fun page mem => length_pageFrame_le lawful valid (fits page mem)

theorem length_le_framesBytes (pages : List Page) :
    pages.length ≤ (framesBytes c encoding pages).length := by
  have bound : pages.length * 1 ≤ (framesBytes c encoding pages).length :=
    le_length_flatMap fun page _ => length_pageFrame_pos page
  rwa [Nat.mul_one] at bound

/-- An index entry is where a page is. -/
theorem of_mem_indexFrom {offset : ℕ} {entry : IndexEntry}
    (mem : entry ∈ indexFrom c encoding offset pages) :
    ∃ before page after, pages = before ++ page :: after ∧
      entry = (page.1, offset + (framesBytes c encoding before).length,
        (pageFrame c encoding page).length) := by
  induction pages generalizing offset with
  | nil => cases mem
  | cons page pages ih =>
    rcases mem_cons.mp mem with rfl | later
    · exact ⟨[], page, pages, rfl, rfl⟩
    · obtain ⟨before, found, after, rfl, rfl⟩ := ih later
      refine ⟨page :: before, found, after, rfl, ?_⟩
      rw [framesBytes_cons, length_append, Nat.add_assoc]

theorem Encodable.length_frames (encodable : Encodable h pages post)
    (lawful : c.Lawful) : (framesBytes c encoding pages).length < 2 ^ 60 := by
  have bound : (framesBytes c encoding pages).length ≤ pages.length * 65819 :=
    length_framesBytes_le lawful encodable.valid encodable.fits
  have count := encodable.length_le
  omega

theorem Encodable.index_fits (encodable : Encodable h pages post)
    (lawful : c.Lawful) : ∀ entry ∈ fileIndex c encoding pages, EntryFits entry := by
  intro entry mem
  have total : (framesBytes c encoding pages).length < 2 ^ 60 := encodable.length_frames lawful
  obtain ⟨before, page, after, rfl, rfl⟩ := of_mem_indexFrom mem
  have split : framesBytes c encoding (before ++ page :: after) = framesBytes c encoding before ++
      (pageFrame c encoding page ++ framesBytes c encoding after) := by
    simp only [framesBytes, flatMap_append, flatMap_cons]
  rw [split, length_append, length_append] at total
  refine ⟨(encodable.fits page (mem_append_right _ mem_cons_self)).pgno, ?_, ?_⟩ <;>
    simp only [headerSize] <;> omega

theorem Encodable.decodePageIndex (encodable : Encodable h pages post) (lawful : c.Lawful) :
    decodePageIndex (pageIndexBytes (fileIndex c encoding pages))
      = .ok (fileIndex c encoding pages) :=
  decodeIndexEntries_bytes (encodable.index_fits lawful) (length_lt_pageIndexBytes _)

end Index

/-! ## Decoding -/

section Decoding

variable {c : Codec} {encoding : PageEncoding} {h : Header} {page : Page} {pages : List Page}

/-- The body of a page in the file. -/
def bodyBytes (c : Codec) (encoding : PageEncoding) (page : Page) : Bytes :=
  match encoding with
  | .legacyFrame => c.frame page.2
  | .sizedBlock => u32Bytes (UInt32.ofNat (c.block page.2).length) ++ c.block page.2

theorem pageFrame_eq (c : Codec) (encoding : PageEncoding) (page : Page) :
    pageFrame c encoding page
      = marshal ⟨page.1, encoding.flags⟩ ++ bodyBytes c encoding page := by
  cases encoding <;> rfl

theorem decodeBody_frame (lawful : c.Lawful) (valid : h.Valid) (fits : Fits h page) (rest : Bytes) :
    decodeBody c encoding.flags h.pageSize.toNat (bodyBytes c encoding page ++ rest)
      = .ok (page.2, rest, sizeField c encoding page) := by
  have length := fits.length
  have small : page.2.length ≤ maxPageSize := by
    rw [length]
    exact valid.pageSize_le
  cases encoding with
  | legacyFrame =>
    refine (if_neg (by decide)).trans ?_
    refine (bind_orCorrupt (lawful.unframe_frame page.2 rest small) _).trans ?_
    exact (bind_ok (require_pos length) _).trans rfl
  | sizedBlock =>
    have size : beValue (u32Bytes (UInt32.ofNat (c.block page.2).length))
        = (c.block page.2).length := by
      rw [u32Bytes, UInt32.toNat_ofNat', mod_eq_of_lt (length_block_lt lawful small)]
      exact beValue_beBytes_of_lt (length_block_lt lawful small)
    have bound := lawful.length_block page.2 small
    have unblock := lawful.unblock_block page.2 small
    rw [length] at bound unblock
    refine (if_pos (by decide)).trans ?_
    rw [bodyBytes, append_assoc]
    refine (bind_orEof (readExact_append (length_u32Bytes _)) _).trans ?_
    refine (bind_ok (require_pos (by rw [size]; exact bound)) _).trans ?_
    refine (bind_orEof (readExact_append size.symm) _).trans ?_
    refine (bind_orCorrupt unblock _).trans ?_
    exact (bind_ok (require_pos length) _).trans rfl

theorem PageHeader.not_isZero {pgno : UInt32} (positive : pgno ≠ 0) (flags : UInt16) :
    ¬ (isZero ⟨pgno, flags⟩ = true) := by
  simp [isZero, positive]

theorem PageEncoding.flags_valid (encoding : PageEncoding) :
    encoding.flags = encoding.flags &&& pageHeaderFlagMask := by
  cases encoding <;> rfl

namespace Decoder

variable {d : Decoder}

/-- The decoder after a page. -/
def pull (c : Codec) (encoding : PageEncoding) (d : Decoder) (page : Page) (rest : Bytes) :
    Decoder :=
  { d with
    reader := rest
    hash := d.hash ++ frameHash c encoding page
    rollingChecksum := rollPage c d.header d.rollingChecksum page }

/-- **The next page is the one in front.** -/
theorem decodePage_frame (lawful : c.Lawful) (paging : d.state = .pages) (valid : d.header.Valid)
    (fits : Fits d.header page) {rest : Bytes}
    (front : d.reader = pageFrame c encoding page ++ rest) :
    d.decodePage c d.header.pageSize.toNat
      = .ok (some (⟨page.1, encoding.flags⟩, page.2), d.pull c encoding page rest) := by
  have opened : ¬ d.state = .close := by
    rw [paging]
    exact fun same => by cases same
  unfold decodePage
  refine (if_neg opened).trans ?_
  refine (bind_ok (require_pos ⟨paging, rfl⟩) _).trans ?_
  rw [front, pageFrame_eq, append_assoc]
  refine (bind_orEof (readExact_append (length_marshal _)) _).trans ?_
  refine (bind_ok (parse_marshal ⟨page.1, encoding.flags⟩) _).trans ?_
  refine (if_neg (not_isZero fits.pgno encoding.flags)).trans ?_
  refine (bind_ok (require_pos ⟨fits.pgno, encoding.flags_valid⟩) _).trans ?_
  refine (bind_ok (decodeBody_frame lawful valid fits rest) _).trans ?_
  simp [pull, frameHash, append_assoc, pure, Except.pure]

/-- At the zero page header there are no more pages. -/
theorem decodePage_end (paging : d.state = .pages) {rest : Bytes}
    (front : d.reader = List.replicate pageHeaderSize 0 ++ rest) :
    d.decodePage c d.header.pageSize.toNat = .ok (none, { d with
      reader := rest, hash := d.hash ++ List.replicate pageHeaderSize 0, state := .close }) := by
  have opened : ¬ d.state = .close := by
    rw [paging]
    exact fun same => by cases same
  have parsed : parse (List.replicate pageHeaderSize 0) = .ok ⟨0, 0⟩ := by decide
  unfold decodePage
  refine (if_neg opened).trans ?_
  refine (bind_ok (require_pos ⟨paging, rfl⟩) _).trans ?_
  rw [front]
  refine (bind_orEof (readExact_append (length_replicate ..)) _).trans ?_
  refine (bind_ok parsed _).trans ?_
  exact if_pos rfl

theorem decodePages_frames (lawful : c.Lawful) (paging : d.state = .pages) (valid : d.header.Valid)
    (fits : ∀ page ∈ pages, Fits d.header page) {rest : Bytes}
    (front : d.reader = framesBytes c encoding pages ++ (List.replicate pageHeaderSize 0 ++ rest))
    {fuel : ℕ} (enough : pages.length < fuel) :
    d.decodePages c d.header.pageSize.toNat fuel = .ok (pages, { d with
      reader := rest
      hash := d.hash ++ framesHash c encoding pages ++ List.replicate pageHeaderSize 0
      rollingChecksum := pages.foldl (rollPage c d.header) d.rollingChecksum
      state := .close }) := by
  induction pages generalizing d fuel with
  | nil =>
    obtain ⟨fuel, rfl⟩ := exists_eq_succ_of_ne_zero (Nat.ne_of_gt enough)
    have front : d.reader = List.replicate pageHeaderSize 0 ++ rest := front
    unfold decodePages
    refine (bind_ok (decodePage_end paging front) _).trans ?_
    simp [framesHash, pure, Except.pure]
  | cons page pages ih =>
    obtain ⟨fuel, rfl⟩ := exists_eq_succ_of_ne_zero (Nat.ne_of_gt (zero_lt_of_lt enough))
    obtain ⟨fit, fits⟩ := forall_mem_cons.mp fits
    rw [framesBytes_cons, append_assoc] at front
    unfold decodePages
    refine (bind_ok (decodePage_frame lawful paging valid fit front) _).trans ?_
    refine (bind_ok (ih (d := d.pull c encoding page _) paging valid fits rfl
      (by simpa using enough)) _).trans ?_
    simp [pull, framesHash, append_assoc, pure, Except.pure]

theorem decodeHeader_marshal (valid : h.Valid) (rest : Bytes) :
    decodeHeader { reader := h.marshal ++ rest } = .ok
      { reader := rest, state := .pages, header := h, hash := h.marshal,
        rollingChecksum := rollStart h } := by
  unfold decodeHeader
  refine (bind_ok (require_pos rfl) _).trans ?_
  refine (bind_orEof (readExact_append (Header.length_marshal h)) _).trans ?_
  refine (bind_ok (Header.parse_marshal valid) _).trans ?_
  refine (bind_ok (require_pos valid) _).trans ?_
  rfl

end Decoder

theorem length_uvarintDigits_le (fuel value : ℕ) : (uvarintDigits fuel value).length ≤ fuel := by
  induction fuel generalizing value with
  | zero => simp [uvarintDigits]
  | succ fuel ih =>
    rw [uvarintDigits]
    split
    · simp
    · simpa using ih _

theorem length_pageIndexBytes_le (index : List IndexEntry) :
    (pageIndexBytes index).length ≤ 30 * index.length + 10 := by
  have varint : ∀ value, (writeUvarint value).length ≤ 10 := length_uvarintDigits_le 10
  have entries : (index.flatMap indexEntryBytes).length ≤ index.length * 30 := by
    refine length_flatMap_le fun entry _ => ?_
    have first := varint entry.1.toNat
    have second := varint entry.2.1
    have third := varint entry.2.2
    rw [indexEntryBytes, length_append, length_append]
    omega
  have stop := varint 0
  rw [pageIndexBytes, length_append]
  omega

theorem length_indexFrom (c : Codec) (encoding : PageEncoding) (offset : ℕ) (pages : List Page) :
    (indexFrom c encoding offset pages).length = pages.length := by
  induction pages generalizing offset with
  | nil => rfl
  | cons page pages ih => simp [indexFrom, ih]

/-- The length field of the index holds its length. -/
theorem Encodable.indexLength (encodable : Encodable h pages post) :
    beValue (u64Bytes (UInt64.ofNat (pageIndexBytes (fileIndex c encoding pages)).length))
      = (pageIndexBytes (fileIndex c encoding pages)).length := by
  have bound := length_pageIndexBytes_le (fileIndex c encoding pages)
  have count := encodable.length_le
  rw [fileIndex, length_indexFrom] at bound
  have small : (pageIndexBytes (fileIndex c encoding pages)).length < 2 ^ 64 := by
    rw [fileIndex]
    omega
  rw [u64Bytes, UInt64.toNat_ofNat', mod_eq_of_lt small]
  exact beValue_beBytes_of_lt small

/-- The post-apply checksum of a snapshot is that of its pages, where it is checked. -/
def SumsMatch (c : Codec) (h : Header) (pages : List Page) (post : UInt64) : Prop :=
  h.isSnapshot = true → ¬ h.noChecksum = true → pages.foldl (rollPage c h) (rollStart h) = post

instance (c : Codec) (h : Header) (pages : List Page) (post : UInt64) :
    Decidable (SumsMatch c h pages post) := by
  unfold SumsMatch
  infer_instance

/-- The file behind its pages passes every check, if the checksum of a snapshot is right. -/
theorem Decoder.close_file (lawful : c.Lawful) (encodable : Encodable h pages post) {d : Decoder}
    (state : d.state = .close) (header : d.header = h)
    (hash : d.hash = h.marshal ++ framesHash c encoding pages ++ List.replicate pageHeaderSize 0)
    (rolling : d.rollingChecksum = pages.foldl (rollPage c h) (rollStart h))
    (front : d.reader = indexSection c encoding pages ++
      (fileTrailer c encoding h pages post).marshal) :
    d.close c = if SumsMatch c h pages post then
        .ok { d with
          reader := [], trailer := fileTrailer c encoding h pages post,
          hash := fileHash c encoding h pages post, state := .closed }
      else .error .checksumMismatch := by
  let index := pageIndexBytes (fileIndex c encoding pages)
  let size := u64Bytes (UInt64.ofNat index.length)
  let trailer := fileTrailer c encoding h pages post
  have whole : d.reader = index ++ (size ++ trailer.marshal) := by
    rw [front, indexSection, append_assoc]
  have total : d.reader.length = index.length + 8 + trailerSize := by
    rw [whole, length_append, length_append, length_u64Bytes, Trailer.length_marshal]
    omega
  have trailerOffset : d.reader.length - trailerSize = index.length + 8 := by omega
  have sizeOffset : index.length + 8 - 8 = index.length := by omega
  have sizeField : (d.reader.drop index.length).take 8 = size := by
    rw [whole, drop_left, take_left' (length_u64Bytes _)]
  have indexField : d.reader.take index.length = index := by
    rw [whole, take_left]
  have trailerField : d.reader.drop (index.length + 8) = trailer.marshal := by
    rw [whole, ← append_assoc, drop_left']
    rw [length_append, length_u64Bytes]
  have hashed : d.hash ++ d.reader.take (d.reader.length - checksumSize)
      = fileHash c encoding h pages post := by
    have front :
        d.reader.take (d.reader.length - checksumSize) = index ++ size ++ u64Bytes post := by
      have split :
          d.reader = (index ++ size ++ u64Bytes post) ++ u64Bytes trailer.fileChecksum := by
        rw [whole]
        simp only [Trailer.marshal, append_assoc]
        rfl
      have length : (index ++ size ++ u64Bytes post).length = d.reader.length - checksumSize := by
        have both := congrArg List.length split
        rw [length_append, length_u64Bytes] at both
        rw [both]
        exact (Nat.add_sub_cancel _ 8).symm
      rw [← length, split, take_left]
    rw [front, hash]
    simp only [fileHash, indexSection, append_assoc]
    rfl
  unfold Decoder.close
  refine (if_neg (by rw [state]; exact fun same => by cases same)).trans ?_
  refine (bind_ok (require_pos state) _).trans ?_
  refine (bind_ok (require_pos (by rw [total]; omega)) _).trans ?_
  simp only [trailerOffset, sizeOffset]
  refine (bind_ok (require_pos (by rw [sizeField]; exact encodable.indexLength)) _).trans ?_
  rw [indexField, trailerField]
  refine (bind_ok (encodable.decodePageIndex lawful) _).trans ?_
  refine (bind_ok (Trailer.parse_marshal trailer) _).trans ?_
  refine (bind_ok (require_pos ?_) _).trans ?_
  · rw [header]
    exact ⟨encodable.checksum, checksumFlag_or _⟩
  rw [hashed]
  have file :
      ¬ (checksumFlag ||| c.crc (fileHash c encoding h pages post) ≠ trailer.fileChecksum) :=
    fun differ => differ rfl
  have wrong : (d.header.isSnapshot = true ∧ ¬ d.header.noChecksum = true ∧
      d.rollingChecksum ≠ trailer.postApplyChecksum) ↔ ¬ SumsMatch c h pages post := by
    rw [header, rolling, SumsMatch]
    push Not
    rfl
  rw [if_neg file]
  by_cases sums : SumsMatch c h pages post
  · rw [if_pos sums, if_neg (fun differ => wrong.mp differ sums)]
    rfl
  · rw [if_neg sums, if_pos (wrong.mpr sums)]
    rfl

/-- **What is encoded is decoded**, if the checksum of a snapshot is right. -/
theorem decodeFile_fileBytes (lawful : c.Lawful) (encodable : Encodable h pages post) :
    decodeFile c (fileBytes c encoding h pages post)
      = if SumsMatch c h pages post then .ok ⟨h, fileTrailer c encoding h pages post, pages⟩
        else .error .checksumMismatch := by
  let rest := indexSection c encoding pages ++ (fileTrailer c encoding h pages post).marshal
  have whole : fileBytes c encoding h pages post = h.marshal ++ (framesBytes c encoding pages ++
      (List.replicate pageHeaderSize 0 ++ rest)) := by
    simp only [fileBytes, append_assoc]
    rfl
  have enough : pages.length < (framesBytes c encoding pages ++
      (List.replicate pageHeaderSize 0 ++ rest)).length := by
    have frames : pages.length ≤ (framesBytes c encoding pages).length :=
      length_le_framesBytes pages
    rw [length_append, length_append, length_replicate, pageHeaderSize]
    omega
  unfold decodeFile
  rw [whole]
  refine (bind_ok (Decoder.decodeHeader_marshal encodable.valid _) _).trans ?_
  refine (bind_ok (Decoder.decodePages_frames lawful rfl encodable.valid encodable.fits rfl enough)
    _).trans ?_
  dsimp only
  rw [Decoder.close_file lawful encodable rfl rfl rfl rfl rfl]
  split <;> rfl

end Decoding

end Celld.Ltx
