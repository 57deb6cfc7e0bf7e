import Celld.Ltx.Compactor

/-!
# The database image

A restore decodes the files of its plan, oldest first, and lets the newest file that
holds a page decide it.  A file that grows the database has to bring the new pages, and
the image has every page up to the last commit; the page of the lock bytes is zero.

`buildDatabaseImage_iff` says when a plan of encoded files is restored, and to what.
-/

namespace Celld.Ltx

open Wire
open List hiding lookup

/-- The page numbers above `low` up to `high`. -/
def pageRange (low high : UInt32) : List UInt32 :=
  (List.range (high.toNat - low.toNat)).map fun i => UInt32.ofNat (low.toNat + 1 + i)

/-- What a restore has read. -/
structure ImageState where
  pageSize : Option UInt32 := none
  commit : Option UInt32 := none
  merged : UInt32 → Option Bytes := fun _ => none

namespace ImageState

variable (s : ImageState)

def insert (page : Page) : ImageState :=
  { s with merged := assign s.merged page }

def checkPageSize (h : Header) : Except Error Unit :=
  match s.pageSize with
  | none => .ok ()
  | some expected =>
      let found := h.pageSize
      if found ≠ expected then
        .error (.other s!"input files have mismatched page sizes: {expected} != {found}")
      else .ok ()

/-- The first page that the file should have brought. -/
def missing? (f : DecodedFile) : Option UInt32 :=
  (pageRange (s.commit.getD 0) f.header.commit).find? fun pgno =>
    pgno ≠ lockPgno f.header.pageSize ∧ pgno ∉ f.pages.map Prod.fst ∧ s.merged pgno = none

def checkGrowth (f : DecodedFile) : Except Error Unit :=
  match s.missing? f with
  | none => .ok ()
  | some pgno =>
      let maxTxid := txidText f.header.maxTxid.toNat
      let previousCommit := s.commit.getD 0
      let commit := f.header.commit
      .error (.other (s!"missing newly committed page {pgno} in LTX transaction {maxTxid} " ++
        s!"(database grew from {previousCommit} to {commit} pages)"))

def addFile (f : DecodedFile) : Except Error ImageState := do
  s.checkPageSize f.header
  s.checkGrowth f
  return f.pages.foldl insert
    { s with pageSize := some (s.pageSize.getD f.header.pageSize), commit := some f.header.commit }

end ImageState

def imagePage (pageSize : UInt32) (merged : UInt32 → Option Bytes) (pgno : UInt32) :
    Except Error Bytes :=
  if pgno = lockPgno pageSize then .ok (List.replicate pageSize.toNat 0)
  else match merged pgno with
    | some data => .ok data
    | none => .error (.other s!"missing page {pgno} in restore plan (incomplete backup)")

/-- The pages, one after the other. -/
def imagePages (pageSize : UInt32) (merged : UInt32 → Option Bytes) :
    List UInt32 → Except Error Bytes
  | [] => .ok []
  | pgno :: rest => do
      let page ← imagePage pageSize merged pgno
      let image ← imagePages pageSize merged rest
      return page ++ image

def readFiles (c : Codec) (s : ImageState) (files : List Bytes) : Except Error ImageState :=
  files.foldlM (fun s data => do s.addFile (← decodeFile c data)) s

def buildDatabaseImage (c : Codec) (files : List Bytes) : Except Error Bytes := do
  let s ← readFiles c {} files
  match s.pageSize, s.commit with
  | some pageSize, some commit =>
      let retained := fun pgno => if pgno ≤ commit then s.merged pgno else none
      imagePages pageSize retained (pageRange 0 commit)
  | _, _ => .error (.other "cannot build a database from no LTX files")

/-! ## What a restore reads -/

theorem toNat_pageRange {low high : UInt32} {i : ℕ} (inside : i < high.toNat - low.toNat) :
    (UInt32.ofNat (low.toNat + 1 + i)).toNat = low.toNat + 1 + i := by
  have small := high.toNat_lt
  have fits : low.toNat + 1 + i < 2 ^ 32 := by omega
  exact UInt32.toNat_ofNat_of_lt' fits

theorem mem_pageRange {low high p : UInt32} : p ∈ pageRange low high ↔ low < p ∧ p ≤ high := by
  simp only [pageRange, mem_map, mem_range, UInt32.lt_iff_toNat_lt,
    UInt32.le_iff_toNat_le]
  constructor
  · rintro ⟨_, below, rfl⟩
    rw [toNat_pageRange below]
    omega
  · rintro ⟨_, _⟩
    refine ⟨p.toNat - low.toNat - 1, by omega, ?_⟩
    have same : low.toNat + 1 + (p.toNat - low.toNat - 1) = p.toNat := by omega
    rw [same, UInt32.ofNat_toNat]

theorem increasing_pageRange (low high : UInt32) : (pageRange low high).Pairwise (· < ·) := by
  refine pairwise_map.mpr (pairwise_lt_range.imp_of_mem ?_)
  intro _ _ first second _
  rw [UInt32.lt_iff_toNat_lt, toNat_pageRange (mem_range.mp first),
    toNat_pageRange (mem_range.mp second)]
  omega

section Reading

variable {c : Codec} {s t : ImageState} {f : LtxFile} {files : List LtxFile}

namespace ImageState

/-- What has been read with one more file. -/
def push (s : ImageState) (f : LtxFile) : ImageState where
  pageSize := some (s.pageSize.getD f.header.pageSize)
  commit := some f.header.commit
  merged pgno := (lookup pgno f.pages).or (s.merged pgno)

/-- The file has the page size of the plan and brings the pages it grows by. -/
structure Accepts (s : ImageState) (f : LtxFile) : Prop where
  pageSize : s.pageSize.getD f.header.pageSize = f.header.pageSize
  growth : ∀ pgno, s.commit.getD 0 < pgno → pgno ≤ f.header.commit →
    pgno ≠ lockPgno f.header.pageSize → pgno ∈ f.pages.map Prod.fst ∨ s.merged pgno ≠ none

theorem foldl_insert {pages : List Page} (increasing : Increasing pages) (s : ImageState) :
    pages.foldl insert s
      = { s with merged := fun pgno => (lookup pgno pages).or (s.merged pgno) } := by
  have folded : pages.foldl insert s = { s with merged := pages.foldl assign s.merged } := by
    clear increasing
    induction pages generalizing s with
    | nil => rfl
    | cons page pages ih => rw [foldl_cons, ih]; rfl
  rw [folded, foldl_assign increasing]

theorem checkPageSize_iff {h : Header} :
    s.checkPageSize h = .ok () ↔ s.pageSize.getD h.pageSize = h.pageSize := by
  unfold checkPageSize
  cases s.pageSize with
  | none => simp
  | some expected =>
    by_cases same : h.pageSize = expected
    · simp [same]
    · simp [same, Ne.symm same]

theorem checkGrowth_iff {f : DecodedFile} :
    s.checkGrowth f = .ok () ↔ ∀ pgno, s.commit.getD 0 < pgno → pgno ≤ f.header.commit →
      pgno ≠ lockPgno f.header.pageSize → pgno ∈ f.pages.map Prod.fst ∨ s.merged pgno ≠ none := by
  have none_ : s.missing? f = none ↔ ∀ pgno, s.commit.getD 0 < pgno → pgno ≤ f.header.commit →
      pgno ≠ lockPgno f.header.pageSize → pgno ∈ f.pages.map Prod.fst ∨ s.merged pgno ≠ none := by
    rw [missing?, find?_eq_none]
    constructor
    · intro all pgno above within stored
      have here := all pgno (mem_pageRange.mpr ⟨above, within⟩)
      simp only [decide_eq_true_eq, not_and] at here
      by_cases mem : pgno ∈ f.pages.map Prod.fst
      · exact .inl mem
      · exact .inr (here stored mem)
    · intro all pgno mem
      obtain ⟨above, within⟩ := mem_pageRange.mp mem
      simp only [decide_eq_true_eq, not_and]
      intro stored absent
      rcases all pgno above within stored with held | merged
      · exact absurd held absent
      · exact merged
  unfold checkGrowth
  rw [← none_]
  cases s.missing? f with
  | none => simp
  | some => simp

end ImageState

/-- What the decoder takes from a file. -/
def LtxFile.decoded (c : Codec) (f : LtxFile) : DecodedFile :=
  ⟨f.header, fileTrailer c f.encoding f.header f.pages f.post, f.pages⟩

theorem LtxFile.Sound.decodeFile (sound : f.Sound c) (lawful : c.Lawful) :
    Ltx.decodeFile c (f.bytes c) = .ok (f.decoded c) :=
  (decodeFile_fileBytes lawful sound.encodable).trans (if_pos sound.sums)

/-- **One file.** -/
theorem addFile_iff (lawful : c.Lawful) (sound : f.Sound c) :
    (do s.addFile (← decodeFile c (f.bytes c))) = .ok t ↔ s.Accepts f ∧ t = s.push f := by
  have added := ImageState.foldl_insert sound.increasing
    { s with pageSize := some (s.pageSize.getD f.header.pageSize), commit := some f.header.commit }
  refine (Eq.congr_left (bind_ok (sound.decodeFile lawful) _)).trans ?_
  unfold ImageState.addFile
  rw [LtxFile.decoded, added]
  constructor
  · intro ok
    obtain ⟨_, sized, ok⟩ := ok_of_bind ok
    obtain ⟨_, grown, ok⟩ := ok_of_bind ok
    cases ok
    exact ⟨⟨ImageState.checkPageSize_iff.mp sized, ImageState.checkGrowth_iff.mp grown⟩, rfl⟩
  · rintro ⟨accepts, rfl⟩
    refine (bind_ok (ImageState.checkPageSize_iff.mpr accepts.pageSize) _).trans ?_
    exact (bind_ok (ImageState.checkGrowth_iff.mpr accepts.growth) _).trans rfl

/-- Every file is accepted after the ones before it. -/
def ImageState.AcceptsAll : ImageState → List LtxFile → Prop
  | _, [] => True
  | s, f :: files => s.Accepts f ∧ (s.push f).AcceptsAll files

/-- **All files.** -/
theorem readFiles_iff (lawful : c.Lawful) (sound : ∀ f ∈ files, f.Sound c) :
    readFiles c s (files.map (LtxFile.bytes c)) = .ok t ↔
      s.AcceptsAll files ∧ t = files.foldl ImageState.push s := by
  induction files generalizing s with
  | nil =>
    constructor
    · intro ok
      cases ok
      exact ⟨trivial, rfl⟩
    · rintro ⟨_, rfl⟩
      rfl
  | cons f files ih =>
    obtain ⟨first, rest⟩ := forall_mem_cons.mp sound
    have cons : readFiles c s ((f :: files).map (LtxFile.bytes c))
        = ((do s.addFile (← decodeFile c (f.bytes c))) >>= fun s =>
          readFiles c s (files.map (LtxFile.bytes c))) := rfl
    rw [cons]
    constructor
    · intro ok
      obtain ⟨_, added, read⟩ := ok_of_bind ok
      obtain ⟨accepts, rfl⟩ := (addFile_iff lawful first).mp added
      obtain ⟨all, eq⟩ := (ih rest).mp read
      exact ⟨⟨accepts, all⟩, eq⟩
    · rintro ⟨⟨accepts, all⟩, eq⟩
      rw [bind_ok ((addFile_iff lawful first).mpr ⟨accepts, rfl⟩)]
      exact (ih rest).mpr ⟨all, eq⟩

/-- A restore checks what the encoder takes on trust. -/
theorem sound_of_readFiles (lawful : c.Lawful)
    (encodable : ∀ f ∈ files, Encodable f.header f.pages f.post)
    (read : readFiles c s (files.map (LtxFile.bytes c)) = .ok t) : ∀ f ∈ files, f.Sound c := by
  induction files generalizing s with
  | nil => rintro _ ⟨⟩
  | cons f files ih =>
    obtain ⟨here, rest⟩ := forall_mem_cons.mp encodable
    obtain ⟨_, added, read⟩ := ok_of_bind read
    obtain ⟨_, decodes, _⟩ := ok_of_bind added
    refine forall_mem_cons.mpr ⟨⟨here, ?_⟩, ih rest read⟩
    by_contra wrong
    have refused : decodeFile c (f.bytes c) = _ :=
      (decodeFile_fileBytes lawful here).trans (if_neg wrong)
    rw [refused] at decodes
    cases decodes

theorem ImageState.AcceptsAll.pageSize_eq {size : UInt32} (accepts : s.AcceptsAll files)
    (known : s.pageSize = some size) : ∀ f ∈ files, f.header.pageSize = size := by
  induction files generalizing s with
  | nil => rintro _ ⟨⟩
  | cons f files ih =>
    obtain ⟨here, rest⟩ := accepts
    have same := here.pageSize
    rw [known] at same
    refine forall_mem_cons.mpr ⟨same.symm, ih rest ?_⟩
    show some (s.pageSize.getD f.header.pageSize) = some size
    rw [known]
    rfl

/-- All files of a restored plan have one page size. -/
theorem pageSize_eq_of_acceptsAll (accepts : ImageState.AcceptsAll {} files) {last : LtxFile}
    (isLast : files.getLast? = some last) :
    ∀ f ∈ files, f.header.pageSize = last.header.pageSize := by
  cases files with
  | nil => cases isLast
  | cons first files =>
    have all : ∀ f ∈ first :: files, f.header.pageSize = first.header.pageSize :=
      forall_mem_cons.mpr ⟨rfl, accepts.2.pageSize_eq rfl⟩
    intro f mem
    rw [all f mem, all last (mem_of_getLast? isLast)]

/-- The page the files hold, the newest of them that has it. -/
def held (files : List LtxFile) (pgno : UInt32) : Option Bytes :=
  newest pgno (files.map LtxFile.pages)

theorem held_cons (pgno : UInt32) :
    held (f :: files) pgno = (held files pgno).or (lookup pgno f.pages) := rfl

theorem held_append (older newer : List LtxFile) (pgno : UInt32) :
    held (older ++ newer) pgno = (held newer pgno).or (held older pgno) := by
  rw [held, map_append, newest_append]
  rfl

theorem foldl_push_eq {last : LtxFile} (accepts : s.AcceptsAll files)
    (isLast : files.getLast? = some last) :
    files.foldl ImageState.push s = ⟨some last.header.pageSize, some last.header.commit,
      fun pgno => (held files pgno).or (s.merged pgno)⟩ := by
  induction files generalizing s with
  | nil => cases isLast
  | cons f files ih =>
    obtain ⟨here, rest⟩ := accepts
    cases files with
    | nil =>
      cases isLast
      show s.push f = _
      rw [ImageState.push, here.pageSize]
      rfl
    | cons =>
      rw [getLast?_cons_cons] at isLast
      rw [foldl_cons, ih rest isLast]
      congr 1
      funext pgno
      rw [held_cons (f := f), Option.or_assoc]
      rfl

end Reading

/-! ## What a restore writes -/

section Writing

variable {c : Codec} {pageSize : UInt32} {merged : UInt32 → Option Bytes}

/-- A page of the image. -/
def pageOf (pageSize : UInt32) (merged : UInt32 → Option Bytes) (pgno : UInt32) : Bytes :=
  if pgno = lockPgno pageSize then List.replicate pageSize.toNat 0 else (merged pgno).getD []

theorem imagePage_iff {pgno : UInt32} {page : Bytes} :
    imagePage pageSize merged pgno = .ok page ↔
      (pgno ≠ lockPgno pageSize → merged pgno ≠ none) ∧ page = pageOf pageSize merged pgno := by
  unfold imagePage pageOf
  by_cases lock : pgno = lockPgno pageSize
  · simp [lock, eq_comm]
  · cases found : merged pgno with
    | none => simp [lock]
    | some => simp [lock, eq_comm]

theorem imagePages_iff {numbers : List UInt32} {image : Bytes} :
    imagePages pageSize merged numbers = .ok image ↔
      (∀ pgno ∈ numbers, pgno ≠ lockPgno pageSize → merged pgno ≠ none) ∧
        image = numbers.flatMap (pageOf pageSize merged) := by
  induction numbers generalizing image with
  | nil =>
    constructor
    · intro ok
      cases ok
      exact ⟨by rintro _ ⟨⟩, rfl⟩
    · rintro ⟨_, rfl⟩
      rfl
  | cons pgno numbers ih =>
    constructor
    · intro ok
      obtain ⟨_, first, ok⟩ := ok_of_bind ok
      obtain ⟨_, others, ok⟩ := ok_of_bind ok
      obtain ⟨here, rfl⟩ := imagePage_iff.mp first
      obtain ⟨later, rfl⟩ := ih.mp others
      cases ok
      exact ⟨forall_mem_cons.mpr ⟨here, later⟩, rfl⟩
    · rintro ⟨all, rfl⟩
      obtain ⟨here, later⟩ := forall_mem_cons.mp all
      refine (bind_ok (imagePage_iff.mpr ⟨here, rfl⟩) _).trans ?_
      exact (bind_ok (ih.mpr ⟨later, rfl⟩) _).trans rfl

/-- **A restore that succeeds.**  Every file was accepted, and the image has the newest
page for every number up to the last commit. -/
theorem buildDatabaseImage_iff (lawful : c.Lawful) {files : List LtxFile}
    (sound : ∀ f ∈ files, f.Sound c) {image : Bytes} :
    buildDatabaseImage c (files.map (LtxFile.bytes c)) = .ok image ↔
      ∃ last, files.getLast? = some last ∧ ImageState.AcceptsAll {} files ∧
        (∀ pgno, 0 < pgno → pgno ≤ last.header.commit → pgno ≠ lockPgno last.header.pageSize →
          held files pgno ≠ none) ∧
        image = (pageRange 0 last.header.commit).flatMap
          (pageOf last.header.pageSize (held files)) := by
  have rendered : ∀ last : LtxFile, imagePages last.header.pageSize
      (fun pgno => if pgno ≤ last.header.commit then (held files pgno).or none else none)
      (pageRange 0 last.header.commit) = .ok image ↔
      (∀ pgno, 0 < pgno → pgno ≤ last.header.commit → pgno ≠ lockPgno last.header.pageSize →
          held files pgno ≠ none) ∧
        image = (pageRange 0 last.header.commit).flatMap
          (pageOf last.header.pageSize (held files)) := by
    intro last
    have same : (pageRange 0 last.header.commit).flatMap (pageOf last.header.pageSize
        fun pgno => if pgno ≤ last.header.commit then (held files pgno).or none else none)
        = (pageRange 0 last.header.commit).flatMap (pageOf last.header.pageSize (held files)) := by
      refine flatMap_congr fun pgno mem => ?_
      rw [pageOf, if_pos (mem_pageRange.mp mem).2, Option.or_none]
      rfl
    rw [imagePages_iff, same]
    refine and_congr_left fun _ => ?_
    constructor
    · intro all pgno above within stored
      have here := all pgno (mem_pageRange.mpr ⟨above, within⟩) stored
      rwa [if_pos within, Option.or_none] at here
    · intro all pgno mem stored
      obtain ⟨above, within⟩ := mem_pageRange.mp mem
      rw [if_pos within, Option.or_none]
      exact all pgno above within stored
  constructor
  · intro ok
    obtain ⟨_, read, ok⟩ := ok_of_bind ok
    obtain ⟨accepts, rfl⟩ := (readFiles_iff lawful sound).mp read
    cases isLast : files.getLast? with
    | none =>
      rw [getLast?_eq_none_iff] at isLast
      subst isLast
      cases ok
    | some last =>
      rw [foldl_push_eq accepts isLast] at ok
      exact ⟨last, rfl, accepts, (rendered last).mp ok⟩
  · rintro ⟨last, isLast, accepts, ok⟩
    refine (bind_ok ((readFiles_iff lawful sound).mpr ⟨accepts, rfl⟩) _).trans ?_
    rw [foldl_push_eq accepts isLast]
    exact (rendered last).mpr ok

end Writing

end Celld.Ltx
