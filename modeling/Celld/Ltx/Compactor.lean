import Celld.Ltx.RoundTrip
import Celld.Wire.Newest

/-!
# The compactor

The compactor merges ordered LTX files into one, with one decompressed page per input.
Each round fills the buffers, takes the least page number they hold, writes the page of
the newest input that holds it and empties the buffers of that page.
-/

namespace Celld.Ltx

open Wire Encoder
open List hiding lookup

variable {inputs : List CompactorInput}

instance linearOrderUInt32 : LinearOrder UInt32 where
  le_refl := UInt32.le_refl
  le_trans _ _ _ := UInt32.le_trans
  le_antisymm _ _ := UInt32.le_antisymm
  le_total := UInt32.le_total
  lt_iff_le_not_ge _ _ := by
    simp only [UInt32.lt_iff_toNat_lt, UInt32.le_iff_toNat_le]
    omega
  toDecidableLE := inferInstance
  toDecidableEq := inferInstance
  toDecidableLT := inferInstance
  min_def _ _ := rfl
  max_def _ _ := rfl
  compare_eq_compareOfLessAndEq _ _ := rfl

/-- An input: its decoder, and the page it has decoded but not yet given up. -/
structure CompactorInput where
  decoder : Decoder
  page : Option (PageHeader × Bytes) := none

structure CompactorOptions where
  /-- The flags of the output's header. -/
  headerFlags : UInt32 := 0
  /-- Gaps between the inputs' transaction ranges are allowed. -/
  allowNonContiguousTxids : Bool := false

/-- The next file continues the previous one; the successor wraps as the source's does. -/
def isContiguous (previousMax min max : UInt64) : Bool :=
  min ≤ previousMax + 1 ∧ previousMax < max

namespace CompactorInput

variable (c : Codec)

/-- An empty buffer is filled with the next page of its input. -/
def fill (length : ℕ) (i : CompactorInput) : Except Error CompactorInput :=
  match i.page with
  | some _ => .ok i
  | none => do
      let (page, decoder) ← i.decoder.decodePage c length
      return { decoder, page }

def pgno? (i : CompactorInput) : Option UInt32 := i.page.map (·.1.pgno)

end CompactorInput

namespace Compactor

variable (c : Codec)

def fillPageBuffers (length : ℕ) (inputs : List CompactorInput) :
    Except Error (Option UInt32 × List CompactorInput) := do
  let inputs ← inputs.mapM (·.fill c length)
  return (least? (inputs.filterMap (·.pgno?)), inputs)

/-- The newest input that holds the page writes it, unless it lies past the end of the
database; every input that holds it gives it up.  The last input is the newest and comes
first. -/
def writePageBuffer (pageNumber : UInt32) :
    List CompactorInput → Encoder → Except Error (List CompactorInput × Bool × Encoder)
  | [], e => .ok ([], false, e)
  | input :: newer, e => do
      let (newer, written, e) ← writePageBuffer pageNumber newer e
      match input.page with
      | none => return (input :: newer, written, e)
      | some (page, data) =>
          if page.pgno ≠ pageNumber then return (input :: newer, written, e)
          else
            let input := { input with page := none }
            if written ∨ e.header.commit < pageNumber then return (input :: newer, written, e)
            else
              let e ← e.encodePage c page data
              return (input :: newer, true, e)

/-- Round after round.  A round gives up a page at least, and a page takes a byte. -/
def merge (length : ℕ) :
    ℕ → List CompactorInput → Encoder → Except Error (List CompactorInput × Encoder)
  | 0, _, _ => .error .ltxCorrupted
  | fuel + 1, inputs, e => do
      let (least, inputs) ← fillPageBuffers c length inputs
      match least with
      | none => return (inputs, e)
      | some pageNumber =>
          let (inputs, _, e) ← writePageBuffer c pageNumber inputs e
          merge length fuel inputs e

/-- A drained source may reach back over transactions the destination has: its range is
cut, if the source keys are what the caller expects. -/
def checkRange (o : CompactorOptions) (headers : List Header) (first : Header) :
    Option (UInt64 × List (UInt64 × UInt64)) → Except Error Unit
  | none => .ok ()
  | some (min, ranges) =>
      require (¬ (ranges.length ≠ headers.length ∨ min < first.minTxid ∨ first.maxTxid < min ∨
        (min ≠ first.minTxid ∧ o.headerFlags &&& headerFlagNoChecksum = 0) ∨
        (headers.zip ranges).any fun pair => (pair.1.minTxid, pair.1.maxTxid) ≠ pair.2))

/-- The next input has the page size of the previous one and continues it. -/
def follows (o : CompactorOptions) (previous current : Header) : Bool :=
  previous.pageSize = current.pageSize ∧
    (o.allowNonContiguousTxids ∨
      isContiguous previous.maxTxid current.minTxid current.maxTxid)

/-- The header of the output. -/
def outputHeader (o : CompactorOptions) (range : Option (UInt64 × List (UInt64 × UInt64)))
    (first last : Header) : Header :=
  { version := version
    flags := o.headerFlags
    pageSize := first.pageSize
    commit := last.commit
    minTxid := range.elim first.minTxid (·.1)
    maxTxid := last.maxTxid
    timestamp := last.timestamp
    preApplyChecksum := first.preApplyChecksum }

def openInput (reader : Bytes) : Except Error CompactorInput := do
  let decoder ← Decoder.decodeHeader { reader }
  return { decoder }

def closeInput (input : CompactorInput) : Except Error CompactorInput := do
  let decoder ← input.decoder.close c
  return { input with decoder }

def compactInner (o : CompactorOptions) (range : Option (UInt64 × List (UInt64 × UInt64)))
    (readers : List Bytes) : Except Error Bytes := do
  let inputs ← readers.mapM openInput
  match inputs with
  | [] => throw .ltxCorrupted
  | input :: rest =>
      let headers := (input :: rest).map (·.decoder.header)
      let first := input.decoder.header
      let last := ((input :: rest).getLast (cons_ne_nil _ _)).decoder.header
      checkRange o headers first range
      require ((headers.zip headers.tail).all fun pair => follows o pair.1 pair.2)
      let e ← encodeHeader { pageEncoding := .sizedBlock } (outputHeader o range first last)
      let bytes := ((input :: rest).map (·.decoder.reader.length)).sum
      let (inputs, e) ← merge c first.pageSize.toNat (bytes + 1) (input :: rest) e
      let inputs ← inputs.mapM (closeInput c)
      let post := (inputs.getLast?.elim 0 (·.decoder.trailer.postApplyChecksum))
      let e ← e.close c post
      return e.writer

/-- Merge ordered LTX files into one. -/
def compact (o : CompactorOptions) (readers : List Bytes) : Except Error Bytes :=
  compactInner c o none readers

end Compactor

/-! ## Files and cursors -/

/-- A file by its contents. -/
structure LtxFile where
  encoding : PageEncoding
  header : Header
  pages : List Page
  post : UInt64

namespace LtxFile

variable (c : Codec)

def bytes (f : LtxFile) : Bytes := fileBytes c f.encoding f.header f.pages f.post

/-- The encoder writes the file and the decoder takes it back. -/
structure Sound (f : LtxFile) : Prop where
  encodable : Encodable f.header f.pages f.post
  sums : SumsMatch c f.header f.pages f.post

/-- What stands behind the zero page header. -/
def tail (f : LtxFile) : Bytes :=
  indexSection c f.encoding f.pages ++ (fileTrailer c f.encoding f.header f.pages f.post).marshal

theorem bytes_eq (f : LtxFile) : f.bytes c = f.header.marshal ++
    (framesBytes c f.encoding f.pages ++ (List.replicate pageHeaderSize 0 ++ f.tail c)) := by
  simp only [bytes, tail, fileBytes, append_assoc]

theorem Sound.increasing {f : LtxFile} {c : Codec} (sound : f.Sound c) : Increasing f.pages :=
  sound.encodable.increasing

end LtxFile

/-- The decoder of a file stands before its last pages. -/
structure Decoder.At (c : Codec) (f : LtxFile) (left : List Page) (d : Decoder) : Prop where
  state : d.state = .pages
  header : d.header = f.header
  reader : d.reader = framesBytes c f.encoding left ++ (List.replicate pageHeaderSize 0 ++ f.tail c)
  before : ∃ done, f.pages = done ++ left ∧
    d.hash = f.header.marshal ++ framesHash c f.encoding done ∧
    d.rollingChecksum = done.foldl (rollPage c f.header) (rollStart f.header)

/-- The decoder of a file stands behind its pages. -/
structure Decoder.Ended (c : Codec) (f : LtxFile) (d : Decoder) : Prop where
  state : d.state = .close
  header : d.header = f.header
  reader : d.reader = f.tail c
  hash : d.hash = f.header.marshal ++ framesHash c f.encoding f.pages ++
    List.replicate pageHeaderSize 0
  rolling : d.rollingChecksum = f.pages.foldl (rollPage c f.header) (rollStart f.header)

/-- The input has the last pages of a file still to give up. -/
inductive InputAt (c : Codec) (f : LtxFile) : List Page → CompactorInput → Prop
  | fresh {left : List Page} {d : Decoder} (here : d.At c f left) : InputAt c f left ⟨d, none⟩
  | loaded {page : Page} {left : List Page} {d : Decoder} (here : d.At c f left)
      (held : page ∈ f.pages) :
        InputAt c f (page :: left) ⟨d, some (⟨page.1, f.encoding.flags⟩, page.2)⟩
  | ended {d : Decoder} (done : d.Ended c f) : InputAt c f [] ⟨d, none⟩

/-- The input is at its end, or has its next page in the buffer. -/
inductive InputFilled (c : Codec) (f : LtxFile) : List Page → CompactorInput → Prop
  | loaded {page : Page} {left : List Page} {d : Decoder} (here : d.At c f left)
      (held : page ∈ f.pages) :
        InputFilled c f (page :: left) ⟨d, some (⟨page.1, f.encoding.flags⟩, page.2)⟩
  | ended {d : Decoder} (done : d.Ended c f) : InputFilled c f [] ⟨d, none⟩

section Cursors

variable {c : Codec} {f : LtxFile} {left : List Page} {page : Page} {d : Decoder}
  {i : CompactorInput}

theorem Decoder.At.subset (here : d.At c f left) : ∀ page ∈ left, page ∈ f.pages := by
  obtain ⟨_, split, _⟩ := here.before
  intro page mem
  rw [split]
  exact mem_append_right _ mem

/-- The decoder gives up the next page. -/
theorem Decoder.At.next (lawful : c.Lawful) (sound : f.Sound c) (here : d.At c f (page :: left)) :
    ∃ next, d.decodePage c f.header.pageSize.toNat
      = .ok (some (⟨page.1, f.encoding.flags⟩, page.2), next) ∧ next.At c f left := by
  obtain ⟨done, split, hash, rolling⟩ := here.before
  have header := here.header
  have fits : Fits d.header page := by
    rw [header]
    exact sound.encodable.fits page (here.subset page mem_cons_self)
  have front := here.reader
  rw [framesBytes_cons, append_assoc] at front
  have valid : d.header.Valid := by
    rw [header]
    exact sound.encodable.valid
  have decoded := Decoder.decodePage_frame lawful here.state valid fits front
  rw [header] at decoded
  refine ⟨_, decoded, here.state, header, rfl, done ++ [page], ?_, ?_, ?_⟩
  · rw [split, append_assoc, singleton_append]
  · simp [Decoder.pull, hash, framesHash, append_assoc]
  · simp [Decoder.pull, header, rolling]

/-- The decoder finds that there is no page any more. -/
theorem Decoder.At.finish (here : d.At c f []) :
    ∃ next, d.decodePage c f.header.pageSize.toNat = .ok (none, next) ∧ next.Ended c f := by
  obtain ⟨_, split, hash, rolling⟩ := here.before
  rw [append_nil] at split
  have decoded := Decoder.decodePage_end (c := c) here.state here.reader
  rw [here.header] at decoded
  refine ⟨_, decoded, rfl, rfl, rfl, ?_, ?_⟩
  · show d.hash ++ _ = _
    rw [hash, split]
  · show d.rollingChecksum = _
    rw [rolling, split]

theorem InputAt.fill (lawful : c.Lawful) (sound : f.Sound c) (input : InputAt c f left i) :
    ∃ next, i.fill c f.header.pageSize.toNat = .ok next ∧ InputFilled c f left next := by
  cases input with
  | loaded here held => exact ⟨_, rfl, .loaded here held⟩
  | ended done =>
    rename_i d
    have still : d.decodePage c f.header.pageSize.toNat = .ok (none, d) := if_pos done.state
    exact ⟨⟨d, none⟩, bind_ok still _, .ended done⟩
  | fresh here =>
    cases left with
    | nil =>
      obtain ⟨next, decoded, done⟩ := here.finish
      exact ⟨⟨next, none⟩, bind_ok decoded _, .ended done⟩
    | cons page =>
      obtain ⟨next, decoded, rest⟩ := here.next lawful sound
      exact ⟨⟨next, some (⟨page.1, f.encoding.flags⟩, page.2)⟩, bind_ok decoded _,
        .loaded rest (here.subset page mem_cons_self)⟩

theorem InputFilled.pgno? (input : InputFilled c f left i) :
    i.pgno? = left.head?.map Prod.fst := by
  cases input <;> rfl

end Cursors

/-! ## Rounds -/

section Rounds

variable {c : Codec} {p : UInt32} {e : Encoder}

/-- A file and what is left of its pages. -/
abbrev Cursor := LtxFile × List Page

/-- What is left of the pages of every file. -/
def runsOf (cursors : List Cursor) : List (List Page) := cursors.map Prod.snd

/-- Every file, with a page dropped where it is in front. -/
def advanceAll (p : UInt32) (cursors : List Cursor) : List Cursor :=
  cursors.map fun cursor => (cursor.1, advance p cursor.2)

theorem mapM_forall₂ {α β γ : Type} {f : α → Except Error β} {R : γ → α → Prop}
    {S : γ → β → Prop} {cursors : List γ} {inputs : List α}
    (each : ∀ cursor ∈ cursors, ∀ input, R cursor input → ∃ next, f input = .ok next ∧
      S cursor next)
    (all : List.Forall₂ R cursors inputs) :
    ∃ nexts, inputs.mapM f = .ok nexts ∧ List.Forall₂ S cursors nexts := by
  induction all with
  | nil => exact ⟨[], rfl, .nil⟩
  | cons first rest ih =>
    obtain ⟨next, stepped, holds⟩ := each _ mem_cons_self _ first
    obtain ⟨nexts, mapped, hold⟩ := ih fun cursor mem => each cursor (mem_cons_of_mem _ mem)
    refine ⟨next :: nexts, ?_, .cons holds hold⟩
    rw [mapM_cons, bind_ok stepped, bind_ok mapped]
    rfl

variable {cursors : List Cursor}

theorem fronts_filled
    (filled : List.Forall₂ (fun cursor => InputFilled c cursor.1 cursor.2) cursors inputs) :
    inputs.filterMap (·.pgno?) = fronts (runsOf cursors) := by
  induction filled with
  | nil => rfl
  | cons first rest ih =>
    rw [filterMap_cons, first.pgno?, ih]
    exact (filterMap_cons (f := fun run : List Page => run.head?.map Prod.fst)).symm

theorem PageEncoding.accepts_sized (encoding : PageEncoding) :
    PageEncoding.sizedBlock.Accepts encoding.flags := by
  cases encoding
  · exact .inl rfl
  · exact .inr ⟨rfl, rfl⟩

/-- The pages a round writes: the newest that has the number, unless it is past the end
of the database. -/
def emitted (commit p : UInt32) (runs : List (List Page)) : List Page :=
  ((newest p runs).filter fun _ => decide (p ≤ commit)).toList.map (Prod.mk p)

theorem emitted_within {commit : UInt32} (within : p ≤ commit) (runs : List (List Page)) :
    emitted commit p runs = (newest p runs).toList.map (Prod.mk p) := by
  cases found : newest p runs <;> simp [emitted, found, within]

theorem emitted_past {commit : UInt32} (past : ¬p ≤ commit) (runs : List (List Page)) :
    emitted commit p runs = [] := by
  simp [emitted, past]

theorem foldl_push_header (pages : List Page) : (pages.foldl (push c) e).header = e.header := by
  rw [foldl_push]

/-- **One round.**  The newest page is written, and every input gives its page up. -/
theorem writePageBuffer_eq (lawful : c.Lawful) (ready : e.Ready)
    (sized : e.pageEncoding = .sizedBlock)
    (filled : List.Forall₂ (fun cursor => InputFilled c cursor.1 cursor.2) cursors inputs)
    (increasing : ∀ run ∈ runsOf cursors, Increasing run)
    (least : ∀ run ∈ runsOf cursors, ∀ page ∈ run, p ≤ page.1)
    (can : ∀ data, newest p (runsOf cursors) = some data → p ≤ e.header.commit →
      Fits e.header (p, data) ∧ InOrder e.header e.previousPageNumber p) :
    ∃ nexts, Compactor.writePageBuffer c p inputs e
        = .ok (nexts, !(emitted e.header.commit p (runsOf cursors)).isEmpty,
          (emitted e.header.commit p (runsOf cursors)).foldl (push c) e) ∧
      List.Forall₂ (fun cursor => InputAt c cursor.1 cursor.2) (advanceAll p cursors) nexts := by
  induction filled with
  | nil => exact ⟨[], rfl, .nil⟩
  | @cons cursor input cursors inputs first rest ih =>
    obtain ⟨f, left⟩ := cursor
    have here : ∀ run ∈ runsOf cursors, run ∈ runsOf ((f, left) :: cursors) :=
      fun run mem => mem_cons_of_mem _ mem
    have newer : newest p (runsOf ((f, left) :: cursors))
        = (newest p (runsOf cursors)).or (lookup p left) := rfl
    obtain ⟨nexts, wrote, moved⟩ := ih (fun run mem => increasing run (here run mem))
      (fun run mem => least run (here run mem)) (by
        intro data found
        refine can data ?_
        rw [newer, found]
        rfl)
    have own : lookup p left = (left.head?.filter fun page => page.1 = p).map Prod.snd :=
      (increasing left mem_cons_self).lookup_least (least left mem_cons_self)
    -- An input that does not hold the page leaves everything to the newer ones.
    have passes : lookup p left = none →
        emitted e.header.commit p (runsOf ((f, left) :: cursors))
          = emitted e.header.commit p (runsOf cursors) := by
      intro absent
      rw [emitted, newer, absent, Option.or_none]
      rfl
    rw [Compactor.writePageBuffer, bind_ok wrote]
    cases first with
    | ended done =>
      rw [passes rfl]
      exact ⟨_, rfl, .cons (.ended done) moved⟩
    | @loaded page left d at_ held =>
      by_cases same : page.1 = p
      · have mine : lookup p (page :: left) = some page.2 := by
          rw [own]
          simp [Option.filter, same]
        have gone : advance p (page :: left) = left := by
          rw [advance, if_pos same]
        refine ⟨⟨d, none⟩ :: nexts, ?_, .cons ?_ moved⟩
        · refine (if_neg (fun differ => differ same)).trans ?_
          rw [foldl_push_header]
          by_cases within : p ≤ e.header.commit
          · simp only [emitted_within within, newer, mine]
            cases found : newest p (runsOf cursors) with
            | some => exact if_pos (.inl rfl)
            | none =>
              obtain ⟨fits, order⟩ := can page.2 (by rw [newer, found, mine]; rfl) within
              have encoded := encodePage_eq lawful ready fits order
                (sized ▸ f.encoding.accepts_sized)
              refine (if_neg ?_).trans ?_
              · rintro (wrote | past)
                · cases wrote
                · exact absurd within (not_le.mpr past)
              · rw [same]
                exact (bind_ok encoded _).trans rfl
          · simp only [emitted_past within]
            exact if_pos (.inr (lt_of_not_ge within))
        · show InputAt c f (advance p (page :: left)) ⟨d, none⟩
          rw [gone]
          exact .fresh at_
      · have absent : lookup p (page :: left) = none := by
          rw [own]
          simp [Option.filter, same]
        have kept : advance p (page :: left) = page :: left := by
          rw [advance, if_neg same]
        rw [passes absent]
        refine ⟨⟨d, some (⟨page.1, f.encoding.flags⟩, page.2)⟩ :: nexts, if_pos same, ?_⟩
        refine .cons ?_ moved
        show InputAt c f (advance p (page :: left)) _
        rw [kept]
        exact .loaded at_ held

theorem Encoder.Ready.foldl (ready : e.Ready) (pages : List Page) :
    (pages.foldl (Encoder.push c) e).Ready := by
  rw [Encoder.foldl_push]
  exact ⟨ready.headerWritten, ready.closed, ready.valid⟩

theorem Ordered.append {h : Header} {previous : UInt32} {pages more : List Page}
    (ordered : Ordered h previous (pages ++ more)) :
    Ordered h previous pages ∧ Ordered h (pages.foldl (fun _ page => page.1) previous) more := by
  induction pages generalizing previous with
  | nil => exact ⟨trivial, ordered⟩
  | cons page pages ih =>
    obtain ⟨first, rest⟩ := ordered
    exact ⟨⟨first, (ih rest).1⟩, (ih rest).2⟩

/-- Inputs without a page in front are at their end. -/
theorem ended_of_fronts_nil
    (filled : List.Forall₂ (fun cursor => InputFilled c cursor.1 cursor.2) cursors inputs)
    (empty : fronts (runsOf cursors) = []) :
    List.Forall₂ (fun f next => next.decoder.Ended c f) (cursors.map Prod.fst) inputs := by
  induction filled with
  | nil => exact .nil
  | @cons cursor input cursors inputs first rest ih =>
    obtain ⟨f, _⟩ := cursor
    cases first with
    | ended done => exact .cons done (ih empty)
    | loaded => cases empty

/-- The merge of what is left, with the pages past the end of the database left out. -/
def merged (commit : UInt32) (fuel : ℕ) (runs : List (List Page)) : List Page :=
  mergeRuns (fun p => decide (p ≤ commit)) fuel runs

/-- **All rounds.**  The compactor writes the merge of its inputs and drains them. -/
theorem merge_eq (lawful : c.Lawful) {size_ : UInt32} (sound : ∀ cursor ∈ cursors, cursor.1.Sound c)
    (sizes : ∀ cursor ∈ cursors, cursor.1.header.pageSize = size_)
    (at_ : List.Forall₂ (fun cursor => InputAt c cursor.1 cursor.2) cursors inputs)
    (increasing : ∀ run ∈ runsOf cursors, Increasing run) {fuel : ℕ}
    (enough : size (runsOf cursors) < fuel) (ready : e.Ready) (sized : e.pageEncoding = .sizedBlock)
    (ordered : Ordered e.header e.previousPageNumber (merged e.header.commit fuel (runsOf cursors)))
    (fits : ∀ page ∈ merged e.header.commit fuel (runsOf cursors), Fits e.header page) :
    ∃ nexts, Compactor.merge c size_.toNat fuel inputs e
        = .ok (nexts, (merged e.header.commit fuel (runsOf cursors)).foldl (push c) e) ∧
      List.Forall₂ (fun f next => next.decoder.Ended c f) (cursors.map Prod.fst) nexts := by
  induction fuel generalizing cursors inputs e with
  | zero => cases enough
  | succ fuel ih =>
    obtain ⟨filledInputs, mapped, filled⟩ := mapM_forall₂
      (by
        intro cursor mem input here
        have fill := here.fill lawful (sound cursor mem)
        rwa [sizes cursor mem] at fill) at_
    have fill : Compactor.fillPageBuffers c size_.toNat inputs
        = .ok (least? (fronts (runsOf cursors)), filledInputs) := by
      refine (bind_ok mapped _).trans ?_
      rw [fronts_filled filled]
      rfl
    rw [Compactor.merge, bind_ok fill]
    unfold merged at ordered fits ⊢
    rw [mergeRuns] at ordered fits ⊢
    rcases least?_cases (fronts (runsOf cursors)) with
      ⟨empty, front⟩ | ⟨least, front, held, below⟩
    · rw [front]
      exact ⟨filledInputs, rfl, ended_of_fronts_nil filled empty⟩
    · rw [front] at ordered fits ⊢
      dsimp only at ordered fits ⊢
      let now := emitted e.header.commit least (runsOf cursors)
      have first := least_of_fronts increasing below
      have can : ∀ data, newest least (runsOf cursors) = some data → least ≤ e.header.commit →
          Fits e.header (least, data) ∧ InOrder e.header e.previousPageNumber least := by
        intro data found within
        have only : now = [(least, data)] := by
          show emitted _ _ _ = _
          rw [emitted_within within, found]
          rfl
        refine ⟨fits _ (mem_append_left _ ?_), ?_⟩
        · show (least, data) ∈ now
          rw [only]
          exact mem_singleton_self _
        · have here : Ordered e.header e.previousPageNumber now := ordered.append.1
          rw [only] at here
          exact here.1
      obtain ⟨nexts, wrote, moved⟩ :=
        writePageBuffer_eq lawful ready sized filled increasing first can
      rw [bind_ok wrote]
      have rest : ∀ cursor ∈ advanceAll least cursors, ∃ old ∈ cursors, cursor.1 = old.1 := by
        intro cursor mem
        obtain ⟨old, here, rfl⟩ := mem_map.mp mem
        exact ⟨old, here, rfl⟩
      have header : (now.foldl (push c) e).header = e.header := foldl_push_header now
      have previous : (now.foldl (push c) e).previousPageNumber
          = now.foldl (fun _ page => page.1) e.previousPageNumber := by
        rw [foldl_push]
      have runs : runsOf (advanceAll least cursors) = (runsOf cursors).map (advance least) := by
        simp [runsOf, advanceAll]
      have smaller : size (runsOf (advanceAll least cursors)) < fuel := by
        rw [runs]
        exact Nat.lt_of_lt_of_le (size_advance_lt held) (Nat.le_of_lt_succ enough)
      obtain ⟨last, merged_, ended⟩ := ih (e := now.foldl (push c) e)
        (by
          intro cursor mem
          obtain ⟨old, here, eq⟩ := rest cursor mem
          rw [eq]
          exact sound old here)
        (by
          intro cursor mem
          obtain ⟨old, here, eq⟩ := rest cursor mem
          rw [eq]
          exact sizes old here)
        moved (by rw [runs]; exact Increasing.advance_all increasing least) smaller
        (ready.foldl now) (by rw [Encoder.foldl_push]; exact sized)
        (by
          rw [header, previous, runs]
          exact ordered.append.2)
        (by
          rw [header, runs]
          exact fun page mem => fits page (mem_append_right _ mem))
      refine ⟨last, ?_, ?_⟩
      · rw [header, runs] at merged_
        rw [foldl_append]
        exact merged_
      · have files : (advanceAll least cursors).map Prod.fst = cursors.map Prod.fst := by
          rw [advanceAll, map_map]
          rfl
        rwa [files] at ended

end Rounds

/-! ## The output -/

section Output

variable {c : Codec}

theorem openInput_bytes {f : LtxFile} (sound : f.Sound c) :
    ∃ input, Compactor.openInput (f.bytes c) = .ok input ∧ InputAt c f f.pages input ∧
      input.decoder.header = f.header ∧ f.pages.length ≤ input.decoder.reader.length := by
  have opened := Decoder.decodeHeader_marshal sound.encodable.valid
    (framesBytes c f.encoding f.pages ++ (List.replicate pageHeaderSize 0 ++ f.tail c))
  rw [← f.bytes_eq c] at opened
  have frames : f.pages.length ≤ (framesBytes c f.encoding f.pages).length :=
    length_le_framesBytes f.pages
  refine ⟨⟨_, none⟩, bind_ok opened _, .fresh ⟨rfl, rfl, rfl, [], rfl, ?_, rfl⟩, rfl, ?_⟩
  · exact (append_nil _).symm
  · rw [length_append]
    omega

theorem closeInput_ended (lawful : c.Lawful) {f : LtxFile} (sound : f.Sound c)
    {input : CompactorInput} (ended : input.decoder.Ended c f) :
    ∃ next, Compactor.closeInput c input = .ok next ∧
      next.decoder.trailer.postApplyChecksum = f.post := by
  have closed := (Decoder.close_file lawful sound.encodable ended.state ended.header ended.hash
    ended.rolling ended.reader).trans (if_pos sound.sums)
  exact ⟨_, bind_ok closed _, rfl⟩

/-- The pages of the output. -/
def mergedPages (commit : UInt32) (files : List LtxFile) : List Page :=
  merged commit (size (files.map LtxFile.pages) + 1) (files.map LtxFile.pages)

/-- The output for a first and a last input. -/
def foldFiles (o : CompactorOptions) (files : List LtxFile) (first last : LtxFile) : LtxFile where
  encoding := .sizedBlock
  header := Compactor.outputHeader o none first.header last.header
  pages := mergedPages last.header.commit files
  post := last.post

theorem all_zip_tail {α : Type} {f : α → α → Bool} {l : List α} :
    (l.zip l.tail).all (fun pair => f pair.1 pair.2) = true ↔
      l.IsChain (fun a b => f a b = true) := by
  induction l with
  | nil => simp
  | cons a l ih =>
    cases l with
    | nil => simp
    | cons =>
      rw [isChain_cons_cons, ← ih]
      simp

theorem forall₂_map_eq {α β γ : Type} {f : α → γ} {g : β → γ} {l : List α} {m : List β}
    (same : List.Forall₂ (fun a b => g b = f a) l m) : m.map g = l.map f := by
  induction same with
  | nil => rfl
  | cons first _ ih => rw [map_cons, map_cons, first, ih]

/-- The readers hold a byte for every page. -/
theorem size_le_readers {files : List LtxFile}
    (long : List.Forall₂ (fun f input => f.pages.length ≤ input.decoder.reader.length)
      files inputs) :
    size (files.map LtxFile.pages) ≤ (inputs.map (·.decoder.reader.length)).sum := by
  induction long with
  | nil => exact Nat.le_refl _
  | cons first _ ih => exact Nat.add_le_add first ih

/-- **The compactor writes the merge of its inputs**, if that is a file at all. -/
theorem compact_eq (lawful : c.Lawful) {o : CompactorOptions} {files : List LtxFile}
    {first last : LtxFile} (isFirst : files.head? = some first)
    (isLast : files.getLast? = some last)
    (sound : ∀ f ∈ files, f.Sound c)
    (sizes : ∀ f ∈ files, f.header.pageSize = first.header.pageSize)
    (follow : files.IsChain fun f g => Compactor.follows o f.header g.header = true)
    (encodable : Encodable (foldFiles o files first last).header
      (foldFiles o files first last).pages last.post) :
    Compactor.compact c o (files.map (LtxFile.bytes c))
      = .ok ((foldFiles o files first last).bytes c) := by
  obtain ⟨inputs, opened, all⟩ := mapM_forall₂
    (R := fun f reader => reader = LtxFile.bytes c f)
    (fun f mem reader eq => eq ▸ openInput_bytes (sound f mem))
    (forall₂_map_right_iff.mpr (forall₂_same.mpr fun _ _ => rfl))
  have headers : inputs.map (·.decoder.header) = files.map LtxFile.header :=
    forall₂_map_eq (all.imp fun _ _ input => input.2.1)
  have long := size_le_readers (all.imp fun _ _ input => input.2.2)
  have chain : ((files.map LtxFile.header).zip (files.map LtxFile.header).tail).all
      (fun pair => Compactor.follows o pair.1 pair.2) = true :=
    all_zip_tail.mpr ((isChain_map _).mpr follow)
  let cursors : List Cursor := files.map fun f => (f, f.pages)
  have runs : runsOf cursors = files.map LtxFile.pages := by
    rw [runsOf, map_map]
    rfl
  have at_ : List.Forall₂ (fun cursor => InputAt c cursor.1 cursor.2) cursors inputs :=
    forall₂_map_left_iff.mpr (all.imp fun _ _ input => input.1)
  have enough : size (runsOf cursors) < (inputs.map (·.decoder.reader.length)).sum + 1 := by
    rw [runs]
    exact Nat.lt_succ_of_le long
  have pages : merged last.header.commit ((inputs.map (·.decoder.reader.length)).sum + 1)
      (runsOf cursors) = mergedPages last.header.commit files := by
    rw [runs] at enough ⊢
    exact mergeRuns_fuel enough (lt_add_one _)
  let output := foldFiles o files first last
  let start := Encoder.opened .sizedBlock output.header
  have headed : Encoder.encodeHeader { pageEncoding := .sizedBlock } output.header = .ok start :=
    encodeHeader_iff.mpr ⟨encodable.valid, rfl⟩
  have ready : start.Ready := ⟨rfl, rfl, encodable.valid⟩
  obtain ⟨_, drained, ended⟩ := merge_eq lawful (forall_mem_map.mpr sound)
    (forall_mem_map.mpr sizes) at_
    (by
      rw [runs]
      exact forall_mem_map.mpr fun f mem => (sound f mem).increasing)
    enough ready rfl (pages ▸ encodable.ordered) (pages ▸ encodable.fits)
  have all_ : cursors.map Prod.fst = files := by
    rw [map_map]
    exact map_id files
  have here : merged start.header.commit ((inputs.map (·.decoder.reader.length)).sum + 1)
      (runsOf cursors) = output.pages := pages
  rw [all_] at ended
  rw [here] at drained
  obtain ⟨closed, closes, posts⟩ := mapM_forall₂
    (fun f mem input done => closeInput_ended lawful (sound f mem) done) ended
  have post : closed.getLast?.elim 0 (·.decoder.trailer.postApplyChecksum) = last.post := by
    have mapped := congrArg List.getLast? (forall₂_map_eq posts)
    rw [getLast?_map, getLast?_map, isLast] at mapped
    obtain ⟨next, final, eq⟩ := Option.map_eq_some_iff.mp mapped
    rw [final]
    exact eq
  have close : (output.pages.foldl (push c) start).close c last.post
      = .ok ((output.pages.foldl (push c) start).finish c last.post) := by
    refine (close_iff (ready.foldl _)).mpr ?_
    rw [foldl_push_header]
    exact ⟨encodable.checksum, encodable.empty, rfl⟩
  unfold Compactor.compact Compactor.compactInner
  rw [bind_ok opened]
  cases inputs with
  | nil =>
    cases files with
    | nil => cases isFirst
    | cons => cases headers
  | cons input rest =>
    have head : input.decoder.header = first.header := by
      have mapped := congrArg List.head? headers
      rw [head?_map, head?_map, isFirst] at mapped
      exact Option.some.inj mapped
    have final : ((input :: rest).getLast (cons_ne_nil _ _)).decoder.header = last.header := by
      have mapped := congrArg List.getLast? headers
      rw [getLast?_map, getLast?_map, isLast,
        getLast?_eq_getLast_of_ne_nil (cons_ne_nil _ _)] at mapped
      exact Option.some.inj mapped
    dsimp only
    rw [headers, head, final]
    refine (bind_ok (require_pos chain) _).trans ?_
    refine (bind_ok headed _).trans ?_
    refine (bind_ok drained _).trans ?_
    refine (bind_ok closes _).trans ?_
    rw [post]
    refine (bind_ok close _).trans ?_
    exact congrArg Except.ok (finish_writer _ _ _ _)

end Output

end Celld.Ltx
