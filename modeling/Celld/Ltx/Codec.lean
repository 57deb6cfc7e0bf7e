import Celld.Ltx.Format

/-!
# Encoder and decoder

The streaming encoder and decoder of LTX files, and the page index in between.  Pages
are stored in one of two encodings: a legacy LZ4 frame, or a raw LZ4 block behind its
size.

The block compressor (`lz4_block.rs`), the LZ4 frames and the CRC are not modelled.  They are
the fields of `Codec`, and what is assumed of LZ4 is `Codec.Lawful`: what was compressed is
decompressed, and the two encodings keep to the bounds the source sizes its buffers by.  The
running checksum hashes a stream, so its state is the list of bytes it has been fed.
-/

namespace Celld.Ltx

open Wire

/-- A page number and the page. -/
abbrev Page := UInt32 × Bytes

/-- The most bytes a block of `n` bytes is compressed to. -/
def compressBound (n : ℕ) : ℕ := n + n / 255 + 16

/-- The bytes a legacy frame adds to its page. -/
def legacyFrameOverhead : ℕ := 19

/-- The compressor and the checksum that the codec calls. -/
structure Codec where
  /-- The raw block of a page. -/
  block : Bytes → Bytes
  /-- Decompress a block into a buffer of the given length. -/
  unblock : ℕ → Bytes → Option Bytes
  /-- The frame of a page. -/
  frame : Bytes → Bytes
  /-- The content of the frame in front, and the bytes behind it. -/
  unframe : Bytes → Option (Bytes × Bytes)
  /-- The first bytes of the content of the frame in front; the end of the frame is not
  looked at. -/
  frameHead : ℕ → Bytes → Option Bytes
  crc : Bytes → UInt64

/-- The greatest page size. -/
def maxPageSize : ℕ := 65536

/-- LZ4 compression and decompression are inverse to each other on pages. -/
structure Codec.Lawful (c : Codec) : Prop where
  unblock_block : ∀ data, data.length ≤ maxPageSize →
    c.unblock data.length (c.block data) = some data
  length_block : ∀ data, data.length ≤ maxPageSize →
    (c.block data).length ≤ compressBound data.length
  unframe_frame : ∀ data rest, data.length ≤ maxPageSize →
    c.unframe (c.frame data ++ rest) = some (data, rest)
  frameHead_frame : ∀ data, data.length ≤ maxPageSize →
    c.frameHead data.length (c.frame data) = some data
  length_frame : ∀ data, data.length ≤ maxPageSize →
    (c.frame data).length ≤ data.length + legacyFrameOverhead

/-- A codec that stores pages as they are, a frame behind its length. -/
def Codec.stored : Codec where
  block data := data
  unblock _ block := some block
  frame data := beBytes 4 data.length ++ data
  unframe bytes := do
    let (length, rest) ← readBe 4 bytes
    readExact length rest
  frameHead length bytes := (readExact length (bytes.drop 4)).map Prod.fst
  crc _ := 0

theorem Codec.stored_lawful : Codec.stored.Lawful where
  unblock_block _ _ := rfl
  length_block data _ := by
    show data.length ≤ data.length + data.length / 255 + 16
    omega
  unframe_frame data rest small := by
    have fits : data.length < 256 ^ 4 := Nat.lt_of_le_of_lt small (by decide)
    show (readBe 4 (beBytes 4 data.length ++ data ++ rest) >>=
      fun read => readExact read.1 read.2) = _
    rw [List.append_assoc, readBe_append fits]
    exact readExact_append rfl
  frameHead_frame data _ := by
    show (readExact data.length ((beBytes 4 data.length ++ data).drop 4)).map Prod.fst = _
    have whole : readExact data.length (data ++ []) = some (data, []) := readExact_append rfl
    rw [List.append_nil] at whole
    rw [List.drop_left' (length_beBytes _ _), whole]
    rfl
  length_frame data _ := by
    show (beBytes 4 data.length ++ data).length ≤ data.length + 19
    rw [List.length_append, length_beBytes]
    omega

/-- The checksum of a page, combined with its number. -/
def checksumPage (c : Codec) (pgno : UInt32) (data : Bytes) : UInt64 :=
  checksumFlag ||| c.crc (u32Bytes pgno ++ data)

/-! ## The page index -/

/-- The page number, and where its frame is in the file. -/
abbrev IndexEntry := UInt32 × ℕ × ℕ

def indexEntryBytes (entry : IndexEntry) : Bytes :=
  writeUvarint entry.1.toNat ++ (writeUvarint entry.2.1 ++ writeUvarint entry.2.2)

/-- The index as `close` writes it, ended by page number 0. -/
def pageIndexBytes (index : List IndexEntry) : Bytes :=
  index.flatMap indexEntryBytes ++ writeUvarint 0

/-- Every entry takes a byte at least, so the length of the bytes is fuel enough. -/
def decodeIndexEntries : ℕ → Bytes → Except Error (List IndexEntry)
  | 0, _ => .error .ltxCorrupted
  | fuel + 1, bytes => do
      let (pgno, bytes) ← orCorrupt (readUvarint bytes)
      if pgno = 0 then
        require (bytes = [])
        return []
      else
        let (offset, bytes) ← orCorrupt (readUvarint bytes)
        let (size, bytes) ← orCorrupt (readUvarint bytes)
        let rest ← decodeIndexEntries fuel bytes
        return (UInt32.ofNat pgno, offset, size) :: rest

def decodePageIndex (bytes : Bytes) : Except Error (List IndexEntry) :=
  decodeIndexEntries bytes.length bytes

/-! ## The encoder -/

inductive PageEncoding where
  | legacyFrame
  | sizedBlock
  deriving DecidableEq

structure Encoder where
  writer : Bytes := []
  header : Header := {}
  trailer : Trailer := {}
  /-- What the running checksum has been fed. -/
  hash : Bytes := []
  /-- Pages come in increasing order, so the sorted map is the list of its insertions. -/
  index : List IndexEntry := []
  pageEncoding : PageEncoding
  bytesWritten : ℕ := 0
  previousPageNumber : UInt32 := 0
  headerWritten : Bool := false
  closed : Bool := false

namespace Encoder

variable (c : Codec)

def writeHashed (e : Encoder) (bytes : Bytes) : Encoder :=
  { e with
    writer := e.writer ++ bytes, hash := e.hash ++ bytes,
    bytesWritten := e.bytesWritten + bytes.length }

/-- The checksum covers the uncompressed page instead of the body. -/
def writeBody (e : Encoder) (bytes : Bytes) : Encoder :=
  { e with writer := e.writer ++ bytes, bytesWritten := e.bytesWritten + bytes.length }

def encodeHeader (e : Encoder) (header : Header) : Except Error Encoder := do
  require (¬ (e.headerWritten ∨ e.closed))
  header.validate
  return { { e with header := header }.writeHashed header.marshal with headerWritten := true }

end Encoder

/-- The page may follow `previous` in a file: a snapshot holds every page from 1 on but
the lock page, and any other file holds pages in increasing order. -/
def InOrder (h : Header) (previous pgno : UInt32) : Prop :=
  if h.isSnapshot then
    if previous = 0 then pgno = 1
    else pgno = if previous = lockPgno h.pageSize - 1 then previous + 2 else previous + 1
  else previous < pgno

instance (h : Header) (previous pgno : UInt32) : Decidable (InOrder h previous pgno) := by
  unfold InOrder
  infer_instance

namespace Encoder

variable (c : Codec) (e : Encoder)

/-- The header and body of a page, in the encoding of the file. -/
def encodeBody (page : PageHeader) (data : Bytes) : Except Error Encoder :=
  match e.pageEncoding with
  | .legacyFrame => do
      require (page.flags = 0)
      return (e.writeHashed page.marshal).writeBody (c.frame data)
  | .sizedBlock => do
      let compressed := c.block data
      let page := { page with flags := page.flags ||| pageHeaderFlagSize }
      require (compressed.length < 2 ^ 32)
      return ((e.writeHashed page.marshal).writeHashed
        (u32Bytes (UInt32.ofNat compressed.length))).writeBody compressed

def encodePage (page : PageHeader) (data : Bytes) : Except Error Encoder := do
  require (e.headerWritten ∧ ¬ e.closed ∧ page.pgno ≤ e.header.commit ∧
    data.length = e.header.pageSize.toNat)
  page.validate
  require (page.pgno ≠ lockPgno e.header.pageSize)
  require (InOrder e.header e.previousPageNumber page.pgno)
  let next ← e.encodeBody c page data
  return { next with
    hash := next.hash ++ data
    previousPageNumber := page.pgno
    index := next.index ++ [(page.pgno, e.bytesWritten, next.bytesWritten - e.bytesWritten)] }

def close (postApplyChecksum : UInt64) : Except Error Encoder := do
  require (e.headerWritten ∧ ¬ e.closed)
  let e := e.writeHashed (List.replicate pageHeaderSize 0)
  let indexOffset := e.bytesWritten
  let e := e.writeHashed (pageIndexBytes e.index)
  let e := e.writeHashed (u64Bytes (UInt64.ofNat (e.bytesWritten - indexOffset)))
  let hash := e.hash ++ u64Bytes postApplyChecksum
  let trailer : Trailer :=
    { postApplyChecksum, fileChecksum := checksumFlag ||| c.crc hash }
  trailer.validate e.header
  require (¬ (e.header.commit = 0 ∧ postApplyChecksum ≠ checksumFlag))
  return { e with
    hash := hash
    trailer := trailer
    writer := e.writer ++ trailer.marshal
    bytesWritten := e.bytesWritten + trailerSize
    closed := true }

/-- Pages, one after the other. -/
def encodePages (pages : List Page) : Except Error Encoder :=
  pages.foldlM (fun e page => e.encodePage c ⟨page.1, 0⟩ page.2) e

end Encoder

/-- `encode_file` and `encode_file_v0_5_2`, which differ in the page encoding. -/
def encodeFile (c : Codec) (encoding : PageEncoding) (header : Header) (pages : List Page)
    (postApplyChecksum : UInt64) : Except Error Bytes := do
  let e ← Encoder.encodeHeader { pageEncoding := encoding } header
  let e ← e.encodePages c pages
  let e ← e.close c postApplyChecksum
  return e.writer

/-! ## The decoder -/

inductive DecoderState where
  | header
  | pages
  | close
  | closed
  deriving DecidableEq

structure Decoder where
  reader : Bytes
  state : DecoderState := .header
  header : Header := {}
  trailer : Trailer := {}
  hash : Bytes := []
  rollingChecksum : UInt64 := 0

/-- The body of a page, what is left behind it, and the size bytes if there are any. -/
def decodeBody (c : Codec) (flags : UInt16) (length : ℕ) (bytes : Bytes) :
    Except Error (Bytes × Bytes × Bytes) :=
  if flags &&& pageHeaderFlagSize ≠ 0 then do
    let (sizeBytes, rest) ← orEof (readExact 4 bytes)
    require (beValue sizeBytes ≤ compressBound length)
    let (compressed, rest) ← orEof (readExact (beValue sizeBytes) rest)
    let data ← orCorrupt (c.unblock length compressed)
    require (data.length = length)
    return (data, rest, sizeBytes)
  else do
    let (data, rest) ← orCorrupt (c.unframe bytes)
    require (data.length = length)
    return (data, rest, [])

/-- The rolling checksum of a snapshot, with one more page. -/
def rollPage (c : Codec) (h : Header) (rolling : UInt64) (page : Page) : UInt64 :=
  if h.isSnapshot ∧ ¬ h.noChecksum ∧ page.1 ≠ lockPgno h.pageSize then
    checksumFlag ||| (rolling ^^^ checksumPage c page.1 page.2)
  else rolling

/-- The rolling checksum before the first page. -/
def rollStart (h : Header) : UInt64 := if h.noChecksum then 0 else checksumFlag

namespace Decoder

variable (c : Codec)

def decodeHeader (d : Decoder) : Except Error Decoder := do
  require (d.state = .header)
  let (bytes, rest) ← orEof (readExact headerSize d.reader)
  let header ← Header.parse bytes
  header.validate
  return { d with
    reader := rest
    header := header
    hash := d.hash ++ bytes
    rollingChecksum := if header.noChecksum then d.rollingChecksum else checksumFlag
    state := .pages }

/-- The next page, into a buffer of the given length; none at the end of the pages. -/
def decodePage (d : Decoder) (length : ℕ) :
    Except Error (Option (PageHeader × Bytes) × Decoder) :=
  if d.state = .close then .ok (none, d)
  else do
    require (d.state = .pages ∧ length = d.header.pageSize.toNat)
    let (bytes, rest) ← orEof (readExact pageHeaderSize d.reader)
    let page ← PageHeader.parse bytes
    if page.isZero then
      return (none, { d with reader := rest, hash := d.hash ++ bytes, state := .close })
    else
      page.validate
      let (data, rest, sizeBytes) ← decodeBody c page.flags length rest
      return (some (page, data), { d with
        reader := rest
        hash := d.hash ++ bytes ++ sizeBytes ++ data
        rollingChecksum := rollPage c d.header d.rollingChecksum (page.pgno, data) })

def close (d : Decoder) : Except Error Decoder :=
  if d.state = .closed then .ok d
  else do
    require (d.state = .close)
    let remaining := d.reader
    require (8 + trailerSize ≤ remaining.length)
    let trailerOffset := remaining.length - trailerSize
    let sizeOffset := trailerOffset - 8
    require (beValue ((remaining.drop sizeOffset).take 8) = sizeOffset)
    let _ ← decodePageIndex (remaining.take sizeOffset)
    let trailer ← Trailer.parse (remaining.drop trailerOffset)
    trailer.validate d.header
    let hash := d.hash ++ remaining.take (remaining.length - checksumSize)
    if checksumFlag ||| c.crc hash ≠ trailer.fileChecksum then throw .checksumMismatch
    if d.header.isSnapshot ∧ ¬ d.header.noChecksum ∧
        d.rollingChecksum ≠ trailer.postApplyChecksum then throw .checksumMismatch
    return { d with reader := [], trailer := trailer, hash := hash, state := .closed }

/-- The pages up to the end.  Every page takes a byte at least: without fuel the reader
is empty. -/
def decodePages (length : ℕ) : ℕ → Decoder → Except Error (List Page × Decoder)
  | 0, _ => .error .unexpectedEof
  | fuel + 1, d => do
      match ← d.decodePage c length with
      | (none, d) => return ([], d)
      | (some (page, data), d) =>
          let (pages, d) ← decodePages length fuel d
          return ((page.pgno, data) :: pages, d)

end Decoder

/-- A decoded file: its header, its trailer and its pages in file order. -/
structure DecodedFile where
  header : Header
  trailer : Trailer
  pages : List Page

/-- `decode_file_with_pages`. -/
def decodeFile (c : Codec) (bytes : Bytes) : Except Error DecodedFile := do
  let d ← Decoder.decodeHeader { reader := bytes }
  let (pages, d) ← d.decodePages c d.header.pageSize.toNat d.reader.length
  let d ← d.close c
  return { header := d.header, trailer := d.trailer, pages }

/-- One page frame on its own, as a page index locates it. -/
def decodePageFrame (c : Codec) (frame : Bytes) (pageSize : ℕ) : Except Error Bytes := do
  let (bytes, rest) ← orEof (readExact pageHeaderSize frame)
  let page ← PageHeader.parse bytes
  require (¬ page.isZero)
  page.validate
  if page.flags &&& pageHeaderFlagSize ≠ 0 then
    let (data, _, _) ← decodeBody c page.flags pageSize rest
    return data
  else
    orCorrupt (c.frameHead pageSize rest)

/-- The frame that a page index says holds the page.  It names its own page, so a wrong
entry is an error. -/
def decodePageFrameOf (c : Codec) (frame : Bytes) (pageSize : ℕ) (pgno : UInt32) :
    Except Error Bytes := do
  require (pageHeaderSize ≤ frame.length)
  let page ← PageHeader.parse (frame.take pageHeaderSize)
  require (page.pgno = pgno)
  decodePageFrame c frame pageSize

end Celld.Ltx
