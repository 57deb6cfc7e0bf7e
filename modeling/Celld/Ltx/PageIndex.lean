import Celld.Ltx.Chain

/-!
# A file and its page index

A reader of one page fetches the index from the end of the object, and decodes the frame that
the index points to.  `file_roundTrip` says what an encoded file gives back, read as a whole or a
page at a time.
-/

namespace Celld.Ltx

open Wire
open List hiding lookup

/-- The bytes of an object from an offset on, so many of them. -/
abbrev Client := ℕ → ℕ → ℕ → ℕ → ℕ → Except Error Bytes

/-- The same on the fault path. -/
abbrev RangeReader := FileInfo → ℕ → ℕ → Except Error Bytes

def tailFetchBytes : ℕ := 256 * 1024
def indexLenField : ℕ := 8

def slice (bytes : Bytes) (start length : ℕ) : Bytes := (bytes.drop start).take length

def fetchPageIndex (client : Client) (info : FileInfo) : Except Error (List IndexEntry) := do
  require (0 ≤ info.size)
  let size := info.size.toNat
  let footer := indexLenField + trailerSize
  require (footer ≤ size)
  let tailLen := min tailFetchBytes size
  let tailStart := size - tailLen
  let tail ← client info.level info.minTxid info.maxTxid tailStart tailLen
  require (footer ≤ tail.length)
  let fieldAt := tail.length - trailerSize - indexLenField
  let indexLen := beValue (slice tail fieldAt indexLenField)
  let indexEnd := size - footer
  require (indexLen ≤ indexEnd)
  let indexStart := indexEnd - indexLen
  if tailStart ≤ indexStart then
    decodePageIndex (slice tail (indexStart - tailStart) (indexEnd - indexStart))
  else
    let bytes ← client info.level info.minTxid info.maxTxid indexStart indexLen
    decodePageIndex bytes

/-- Where the frame of a page is. -/
structure PageLocator where
  info : FileInfo
  offset : ℕ
  size : ℕ
  deriving DecidableEq

/-! ## Slices -/

section Slices

theorem slice_slice {bytes : Bytes} {start length inner count : ℕ}
    (within : inner + count ≤ length) :
    slice (slice bytes start length) inner count = slice bytes (start + inner) count := by
  unfold slice
  rw [drop_take, take_take, drop_drop, Nat.min_eq_left (by omega)]

theorem slice_append {front middle rest : Bytes} {start length : ℕ} (begins : front.length = start)
    (long : middle.length = length) : slice (front ++ (middle ++ rest)) start length = middle := by
  rw [slice, drop_left' begins, take_left' long]

theorem length_slice {bytes : Bytes} {start length : ℕ} (within : start + length ≤ bytes.length) :
    (slice bytes start length).length = length := by
  rw [slice, length_take, length_drop]
  omega

/-- One of equally long pieces. -/
theorem slice_flatMap {α : Type} {f : α → Bytes} {length i : ℕ} {list : List α} {a : α}
    (long : ∀ b ∈ list, (f b).length = length) (here : list[i]? = some a) :
    slice (list.flatMap f) (i * length) length = f a := by
  induction list generalizing i with
  | nil => cases here
  | cons b list ih =>
    obtain ⟨first, rest⟩ := forall_mem_cons.mp long
    cases i with
    | zero =>
      cases here
      rw [Nat.zero_mul, flatMap_cons, slice, drop_zero, take_left' first]
    | succ =>
      rw [flatMap_cons, slice, Nat.succ_mul, Nat.add_comm, ← drop_drop,
        drop_left' first]
      exact ih rest here

end Slices

/-! ## The index and the frames -/

/-- The object of a file can be read. -/
structure Stored (c : Codec) (client : Client) (reader : RangeReader) (info : FileInfo)
    (f : LtxFile) : Prop where
  encoded : encodeFile c f.encoding f.header f.pages f.post = .ok (f.bytes c)
  size : info.size = (f.bytes c).length
  reads : ∀ start length, start + length ≤ (f.bytes c).length →
    client info.level info.minTxid info.maxTxid start length = .ok (slice (f.bytes c) start length)
  faults : ∀ start length, start + length ≤ (f.bytes c).length →
    reader info start length = .ok (slice (f.bytes c) start length)

section Frames

variable {c : Codec} {client : Client} {reader : RangeReader} {info : FileInfo} {f : LtxFile}
  {object : FileInfo × LtxFile} {page : Page} {loc : PageLocator}

/-- **The index is read from the end of the object.** -/
theorem fetchPageIndex_eq (lawful : c.Lawful) (stored : Stored c client reader info f) :
    fetchPageIndex client info = .ok (fileIndex c f.encoding f.pages) := by
  have encodable := ((encodeFile_iff lawful).mp stored.encoded).1
  let front :=
    f.header.marshal ++ framesBytes c f.encoding f.pages ++ List.replicate pageHeaderSize 0
  let index := pageIndexBytes (fileIndex c f.encoding f.pages)
  let field := u64Bytes (UInt64.ofNat index.length)
  let trailer := (fileTrailer c f.encoding f.header f.pages f.post).marshal
  have whole : f.bytes c = front ++ (index ++ (field ++ trailer)) := by
    simp only [LtxFile.bytes, fileBytes, indexSection, append_assoc, front, index, field, trailer]
  have length : (f.bytes c).length = front.length + index.length + 24 := by
    simp only [whole, length_append, field, trailer, length_u64Bytes, Trailer.length_marshal,
      trailerSize]
    omega
  have indexAt : slice (f.bytes c) front.length index.length = index := by
    rw [whole]
    exact slice_append rfl rfl
  have fieldAt : slice (f.bytes c) (front.length + index.length) 8 = field := by
    rw [whole, ← append_assoc]
    exact slice_append length_append (length_u64Bytes _)
  have decoded : decodePageIndex index = .ok (fileIndex c f.encoding f.pages) :=
    encodable.decodePageIndex lawful
  have size : info.size.toNat = front.length + index.length + 24 := by
    rw [stored.size, length]
    rfl
  let tailLen := min tailFetchBytes info.size.toNat
  let tailStart := info.size.toNat - tailLen
  have fits : tailStart + tailLen ≤ (f.bytes c).length := by
    simp only [tailStart, tailLen]
    omega
  have tail := stored.reads tailStart tailLen fits
  have tailLength : (slice (f.bytes c) tailStart tailLen).length = tailLen := length_slice fits
  have footer : 24 ≤ tailLen := by
    simp only [tailLen, tailFetchBytes]
    omega
  have lengthField : beValue (slice (slice (f.bytes c) tailStart tailLen) (tailLen - 16 - 8) 8)
      = index.length := by
    have place : tailStart + (tailLen - 16 - 8) = front.length + index.length := by
      simp only [tailStart, tailLen] at footer ⊢
      omega
    rw [slice_slice (by omega), place, fieldAt]
    exact encodable.indexLength
  unfold fetchPageIndex
  refine (bind_ok (require_pos (by rw [stored.size]; omega)) _).trans ?_
  refine (bind_ok (require_pos (by simp only [indexLenField, trailerSize]; omega)) _).trans ?_
  refine (bind_ok tail _).trans ?_
  refine (bind_ok (require_pos (by rw [tailLength]; exact footer)) _).trans ?_
  simp only [tailLength, indexLenField, trailerSize, lengthField]
  refine (bind_ok (require_pos (by omega)) _).trans ?_
  have starts : info.size.toNat - (8 + 16) - index.length = front.length := by omega
  have spans : info.size.toNat - (8 + 16) - front.length = index.length := by omega
  simp only [starts, spans]
  by_cases inTail : tailStart ≤ front.length
  · refine (if_pos inTail).trans ?_
    have inside : front.length - tailStart + index.length ≤ tailLen := by
      simp only [tailStart, tailLen] at inTail ⊢
      omega
    have place : tailStart + (front.length - tailStart) = front.length := by omega
    rw [slice_slice inside, place, indexAt, decoded]
  · refine (if_neg inTail).trans ?_
    refine (bind_ok (stored.reads front.length index.length (by omega)) _).trans ?_
    rw [indexAt, decoded]

/-- The frame of a page in an object. -/
def FrameAt (c : Codec) (object : FileInfo × LtxFile) (page : Page) (loc : PageLocator) : Prop :=
  ∃ before after, object.2.pages = before ++ page :: after ∧
    loc = ⟨object.1, headerSize + (framesBytes c object.2.encoding before).length,
      (pageFrame c object.2.encoding page).length⟩

theorem map_fst_indexFrom (c : Codec) (encoding : PageEncoding) (pages : List Page) (offset : ℕ) :
    (indexFrom c encoding offset pages).map Prod.fst = pages.map Prod.fst := by
  induction pages generalizing offset with
  | nil => rfl
  | cons page pages ih => rw [indexFrom, map_cons, map_cons, ih]

/-- The frame is in the object. -/
theorem FrameAt.slice_eq (frame : FrameAt c object page loc) :
    loc.offset + loc.size ≤ (object.2.bytes c).length ∧
      slice (object.2.bytes c) loc.offset loc.size = pageFrame c object.2.encoding page := by
  obtain ⟨before, after, split, rfl⟩ := frame
  have whole : object.2.bytes c = (object.2.header.marshal ++
      framesBytes c object.2.encoding before) ++ (pageFrame c object.2.encoding page ++
        (framesBytes c object.2.encoding after ++
          (List.replicate pageHeaderSize 0 ++ object.2.tail c))) := by
    rw [object.2.bytes_eq c]
    simp only [split, framesBytes, flatMap_append, flatMap_cons, append_assoc]
  have begins : (object.2.header.marshal ++ framesBytes c object.2.encoding before).length
      = headerSize + (framesBytes c object.2.encoding before).length := by
    rw [length_append, Header.length_marshal]
  constructor
  · rw [whole, length_append, begins, length_append]
    dsimp only
    omega
  · rw [whole]
    exact slice_append begins rfl

theorem FrameAt.info_eq (frame : FrameAt c object page loc) : loc.info = object.1 := by
  obtain ⟨_, _, _, rfl⟩ := frame
  rfl

theorem FrameAt.mem (frame : FrameAt c object page loc) : page ∈ object.2.pages := by
  obtain ⟨_, _, split, _⟩ := frame
  rw [split]
  exact mem_append_right _ mem_cons_self

/-- **A frame on its own is decoded to its page.** -/
theorem decodePageFrameOf_frame (lawful : c.Lawful) {h : Header} (valid : h.Valid)
    (fits : Fits h page) (encoding : PageEncoding) :
    decodePageFrameOf c (pageFrame c encoding page) h.pageSize.toNat page.1 = .ok page.2 := by
  let header : PageHeader := ⟨page.1, encoding.flags⟩
  have whole : pageFrame c encoding page = header.marshal ++ bodyBytes c encoding page :=
    pageFrame_eq c encoding page
  have small : page.2.length ≤ maxPageSize := by
    rw [fits.length]
    exact valid.pageSize_le
  have long : pageHeaderSize ≤ (pageFrame c encoding page).length := by
    rw [whole, length_append, PageHeader.length_marshal]
    omega
  have parsed := PageHeader.parse_marshal header
  have front : (pageFrame c encoding page).take pageHeaderSize = header.marshal := by
    rw [whole, take_left' (PageHeader.length_marshal _)]
  have split : readExact pageHeaderSize (pageFrame c encoding page)
      = some (header.marshal, bodyBytes c encoding page) := by
    rw [whole]
    exact readExact_append (PageHeader.length_marshal _)
  have nonzero : ¬ header.isZero = true := by
    intro zero
    exact fits.pgno (of_decide_eq_true zero).1
  have valid_ : header.Valid := ⟨fits.pgno, encoding.accepts_sized.valid⟩
  unfold decodePageFrameOf
  refine (bind_ok (require_pos long) _).trans ?_
  rw [front]
  refine (bind_ok parsed _).trans ?_
  refine (bind_ok (require_pos rfl) _).trans ?_
  unfold decodePageFrame
  refine (bind_orEof split _).trans ?_
  refine (bind_ok parsed _).trans ?_
  refine (bind_ok (require_pos nonzero) _).trans ?_
  refine (bind_ok (require_pos valid_) _).trans ?_
  cases encoding with
  | sizedBlock =>
    have body : decodeBody c PageEncoding.sizedBlock.flags h.pageSize.toNat
        (bodyBytes c .sizedBlock page ++ []) = _ := decodeBody_frame lawful valid fits []
    rw [append_nil] at body
    have sized : PageEncoding.sizedBlock.flags &&& pageHeaderFlagSize ≠ 0 := by decide
    exact (if_pos sized).trans ((bind_ok body _).trans rfl)
  | legacyFrame =>
    have plain : ¬ PageEncoding.legacyFrame.flags &&& pageHeaderFlagSize ≠ 0 := by decide
    refine (if_neg plain).trans ?_
    have head := lawful.frameHead_frame page.2 small
    rw [fits.length] at head
    show orCorrupt (c.frameHead _ (c.frame page.2)) = _
    rw [head]
    rfl

end Frames

/-! ## A file on its own -/

/-- The pages are those that a file with the header may hold: in order, and in a snapshot,
whether it tracks checksums or not, without a gap. -/
structure Holds (h : Header) (pages : List Page) : Prop where
  fits : ∀ page ∈ pages, Fits h page
  increasing : Increasing pages
  gapless : h.isSnapshot = true → ∀ page ∈ pages, ∀ pgno, 0 < pgno → pgno ≤ page.1 →
    pgno ≠ lockPgno h.pageSize → pgno ∈ pages.map Prod.fst

theorem Holds.ordered {h : Header} {pages : List Page} (holds : Holds h pages) (valid : h.Valid) :
    Ordered h 0 pages := by
  have above : ∀ page ∈ pages, 0 < page.1 := fun page mem =>
    UInt32.pos_iff_ne_zero.mpr (holds.fits page mem).pgno
  by_cases snapshot : h.isSnapshot = true
  · exact ordered_snapshot valid snapshot holds.increasing holds.fits above (holds.gapless snapshot)
  · exact ordered_of_increasing snapshot holds.increasing above

/-- **The round trip of a file.**  It is encoded; it is decoded unless it is a snapshot with
a checksum that is not that of its pages; and each entry of its index leads to a page. -/
theorem file_roundTrip {c : Codec} (lawful : c.Lawful) (encoding : PageEncoding) {h : Header}
    {pages : List Page} {post : UInt64} (valid : h.Valid) (holds : Holds h pages)
    (checksum : if h.noChecksum then post = 0 else post ≠ 0 ∧ post &&& checksumFlag ≠ 0)
    (empty : h.commit = 0 → post = checksumFlag) :
    ∃ bytes trailer index, encodeFile c encoding h pages post = .ok bytes ∧
      (decodeFile c bytes = .ok ⟨h, trailer, pages⟩ ↔ (h.isSnapshot = true → ¬ h.noChecksum = true →
        pages.foldl (rollPage c h) (rollStart h) = post)) ∧
      ((∃ file, decodeFile c bytes = .ok file) → decodeFile c bytes = .ok ⟨h, trailer, pages⟩) ∧
      trailer.postApplyChecksum = post ∧ trailer.marshal <:+ bytes ∧
      (∀ (client : Client) (info : FileInfo), info.size = bytes.length →
        (∀ start length, start + length ≤ bytes.length →
          client info.level info.minTxid info.maxTxid start length = .ok
            (slice bytes start length)) →
        fetchPageIndex client info = .ok index) ∧
      index.map Prod.fst = pages.map Prod.fst ∧
      ∀ pgno offset size, (pgno, offset, size) ∈ index → ∃ data, (pgno, data) ∈ pages ∧
        offset + size ≤ bytes.length ∧
        decodePageFrameOf c (slice bytes offset size) h.pageSize.toNat pgno = .ok data := by
  let f : LtxFile := ⟨encoding, h, pages, post⟩
  have encodable : Encodable h pages post :=
    ⟨valid, holds.fits, holds.ordered valid, checksum, fun wrong => wrong.2 (empty wrong.1)⟩
  have encoded : encodeFile c encoding h pages post = .ok (f.bytes c) :=
    (encodeFile_iff lawful).mpr ⟨encodable, rfl⟩
  have decoded : decodeFile c (f.bytes c) = if SumsMatch c h pages post then
      .ok ⟨h, fileTrailer c encoding h pages post, pages⟩ else .error .checksumMismatch :=
    decodeFile_fileBytes lawful encodable
  refine ⟨f.bytes c, fileTrailer c encoding h pages post, fileIndex c encoding pages, encoded,
    ?_, ?_, rfl, suffix_append _ _, ?_, map_fst_indexFrom c encoding pages headerSize, ?_⟩
  · rw [decoded]
    by_cases sums : SumsMatch c h pages post
    · rw [if_pos sums]
      exact iff_of_true rfl sums
    · rw [if_neg sums]
      exact iff_of_false (fun same => by cases same) sums
  · rintro ⟨file, ok⟩
    rw [decoded] at ok ⊢
    by_cases sums : SumsMatch c h pages post
    · rw [if_pos sums]
    · rw [if_neg sums] at ok
      cases ok
  · intro client info size reads
    have stored :
        Stored c client (fun info => client info.level info.minTxid info.maxTxid) info f :=
      ⟨encoded, size, reads, reads⟩
    exact fetchPageIndex_eq lawful stored
  · intro pgno offset size mem
    obtain ⟨before, page, after, split, same⟩ := of_mem_indexFrom mem
    obtain ⟨rfl, rfl, rfl⟩ : pgno = page.1 ∧ offset = _ ∧ size = _ := by simpa using same
    let info : FileInfo := ⟨0, 0, 0, 0, none⟩
    have frame : FrameAt c (info, f) page ⟨info, _, _⟩ := ⟨before, after, split, rfl⟩
    obtain ⟨within, bytes⟩ := frame.slice_eq
    refine ⟨page.2, frame.mem, within, ?_⟩
    rw [bytes]
    exact decodePageFrameOf_frame lawful valid (holds.fits page frame.mem) encoding

/-- A file that has two of its three pages, and is no snapshot. -/
theorem sparse_roundTrip : ∃ f : LtxFile, f.pages.map Prod.fst = [1, 3] ∧ ∃ bytes,
    encodeFile .stored f.encoding f.header f.pages f.post = .ok bytes ∧
    ∃ file, decodeFile .stored bytes = .ok file ∧ file.pages = f.pages := by
  let f := smallFile headerFlagNoChecksum 2 3 [(1, 7), (3, 8)] 0
  have plain : ¬ f.header.isSnapshot = true := by decide
  have holds : Holds f.header f.pages := by
    refine ⟨?_, ?_, fun snapshot => absurd snapshot plain⟩
    · refine forall_mem_cons.mpr ⟨⟨by decide, by decide, by decide, by decide +kernel⟩, ?_⟩
      exact forall_mem_singleton.mpr ⟨by decide, by decide, by decide, by decide +kernel⟩
    · unfold Increasing
      decide +kernel
  have quiet : if f.header.noChecksum then f.post = 0
      else f.post ≠ 0 ∧ f.post &&& checksumFlag ≠ 0 := by decide
  obtain ⟨bytes, _, _, encoded, decoded, _⟩ :=
    file_roundTrip Codec.stored_lawful f.encoding (by decide) holds quiet (by decide)
  exact ⟨f, rfl, bytes, encoded, _, decoded.mpr fun snapshot => absurd snapshot plain, rfl⟩

/-- A snapshot that tracks no checksums is refused without its first page, and an empty
database without checksums is refused whatever its checksum is said to be. -/
theorem sparse_snapshot_refused : ∃ f g : LtxFile,
    (f.header.Valid ∧ f.header.noChecksum = true ∧ f.pages.map Prod.fst = [2] ∧
      (∀ page ∈ f.pages, Fits f.header page) ∧
      encodeFile .stored f.encoding f.header f.pages f.post = .error .ltxCorrupted) ∧
    g.header.Valid ∧ g.pages = [] ∧
      ∀ post bytes, encodeFile .stored g.encoding g.header [] post ≠ .ok bytes := by
  refine ⟨smallFile headerFlagNoChecksum 1 2 [(2, 7)] 0, smallFile headerFlagNoChecksum 2 0 [] 0,
    ⟨by decide, by decide, rfl, ?_, by decide +kernel⟩, by decide, rfl, ?_⟩
  · exact forall_mem_singleton.mpr ⟨by decide, by decide, by decide, by decide +kernel⟩
  · intro post bytes ok
    have encodable := ((encodeFile_iff Codec.stored_lawful).mp ok).1
    have zero : post = 0 := encodable.checksum
    exact encodable.empty ⟨rfl, by rw [zero]; decide⟩

end Celld.Ltx
