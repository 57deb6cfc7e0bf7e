import Celld.Ltx.PageIndex

/-!
# Paged restore

A cold cell serves a page by reading only its frame.  `buildPageMap` reads the page
index at the end of every planned object, and `readPage` and `readRunSync` read frames
where the map says they are.

A ranged read is outside of the repository: `Client` and `RangeReader` are functions, and
`Stored` says that they give the bytes of the object in the range asked for.  Reads that
run concurrently are answered in plan order, so they are modelled one after the other.
-/

namespace Celld.Ltx

open Wire
open List hiding lookup lookup_cons

variable {pgno commit last : UInt32}

structure PageMap where
  pageSize : UInt32
  commit : UInt32
  pages : UInt32 → Option PageLocator

/-- The pages of an index that belong to the cut. -/
def locate (commit : UInt32) (info : FileInfo) (index : List IndexEntry) :
    List (UInt32 × PageLocator) :=
  (index.filter fun entry => entry.1 ≤ commit).map fun entry =>
    (entry.1, ⟨info, entry.2.1, entry.2.2⟩)

def buildPageMap (client : Client) (plan : List FileInfo) : Except Error PageMap :=
  match plan.getLast? with
  | none => .error .txNotAvailable
  | some newest => do
      let headerBytes ← client newest.level newest.minTxid newest.maxTxid 0 headerSize
      let header ← Header.parse headerBytes
      let indexes ← plan.mapM fun info =>
        do return locate header.commit info (← fetchPageIndex client info)
      return {
        pageSize := header.pageSize
        commit := header.commit
        pages := indexes.foldl (fun pages located => located.foldl assign pages) fun _ => none }

namespace PageMap

variable (c : Codec) (m : PageMap)

def readPage (client : Client) (pgno : UInt32) : Except Error (Option Bytes) :=
  match m.pages pgno with
  | none => .ok none
  | some loc => do
      let frame ← client loc.info.level loc.info.minTxid loc.info.maxTxid loc.offset loc.size
      return some (← decodePageFrameOf c frame m.pageSize.toNat pgno)

/-- The last page of a run, and where its frame ends.  The loop stops at `maxPages`, so
that is fuel enough. -/
def runEnd (info : FileInfo) (pgno maxPages : UInt32) : ℕ → UInt32 → ℕ → UInt32 × ℕ
  | 0, last, ends => (last, ends)
  | fuel + 1, last, ends =>
      match m.pages (last + 1) with
      | none => (last, ends)
      | some next =>
          if ¬ (next.info = info ∧ next.offset = ends) ∨ maxPages ≤ last + 1 - pgno
            then (last, ends)
          else runEnd info pgno maxPages fuel (last + 1) (ends + next.size)

/-- The pages of a run, whose frames stand one behind the other. -/
def decodeRun (bytes : Bytes) : ℕ → List UInt32 → Except Error (List Page)
  | _, [] => .ok []
  | start, pgno :: rest => do
      let loc ← orCorrupt (m.pages pgno)
      let page ← decodePageFrameOf c (slice bytes start loc.size) m.pageSize.toNat pgno
      let run ← decodeRun bytes (start + loc.size) rest
      return (pgno, page) :: run

/-- The page numbers from `pgno` to `last`. -/
def runNumbers (pgno last : UInt32) : List UInt32 :=
  (List.range (last.toNat + 1 - pgno.toNat)).map fun i => UInt32.ofNat (pgno.toNat + i)

def readRunSync (reader : RangeReader) (pgno : UInt32) (maxBytes : ℕ) : Except Error (List Page) :=
  match m.pages pgno with
  | none => .ok []
  | some first => do
      let maxPages := UInt32.ofNat (max (maxBytes / m.pageSize.toNat) 1)
      let (last, ends) :=
        m.runEnd first.info pgno maxPages maxPages.toNat pgno (first.offset + first.size)
      let bytes ← reader first.info first.offset (ends - first.offset)
      require (ends - first.offset ≤ bytes.length)
      m.decodeRun c bytes 0 (runNumbers pgno last)

end PageMap

/-! ## The page map -/

section Mapping

variable {c : Codec} {client : Client} {reader : RangeReader} {info : FileInfo} {f : LtxFile}

/-- The index of frames has the page where it is. -/
theorem lookup_indexFrom (c : Codec) (encoding : PageEncoding) (pgno : UInt32) (pages : List Page)
    (offset : ℕ) :
    (lookup pgno pages = none ∧ lookup pgno (indexFrom c encoding offset pages) = none) ∨
    ∃ before data after, pages = before ++ (pgno, data) :: after ∧ lookup pgno pages = some data ∧
      lookup pgno (indexFrom c encoding offset pages)
        = some (offset + (framesBytes c encoding before).length,
          (pageFrame c encoding (pgno, data)).length) := by
  induction pages generalizing offset with
  | nil => exact .inl ⟨rfl, rfl⟩
  | cons page pages ih =>
    simp only [indexFrom, lookup_cons]
    by_cases same : page.1 = pgno
    · subst same
      exact .inr ⟨[], page.2, pages, rfl, if_pos rfl, if_pos rfl⟩
    · rw [if_neg same, if_neg same]
      rcases ih (offset + (pageFrame c encoding page).length) with absent | found
      · exact .inl absent
      · obtain ⟨before, data, after, split, here, entry⟩ := found
        refine .inr ⟨page :: before, data, after, by rw [split]; rfl, here, ?_⟩
        rw [entry, framesBytes_cons, length_append, Nat.add_assoc]

/-- The located pages of an object. -/
def located (c : Codec) (commit : UInt32) (object : FileInfo × LtxFile) :
    List (UInt32 × PageLocator) :=
  locate commit object.1 (fileIndex c object.2.encoding object.2.pages)

theorem lookup_located (c : Codec) (within : pgno ≤ commit) (object : FileInfo × LtxFile) :
    (lookup pgno object.2.pages = none ∧ lookup pgno (located c commit object) = none) ∨
    ∃ data loc, lookup pgno object.2.pages = some data ∧
      lookup pgno (located c commit object) = some loc ∧ FrameAt c object (pgno, data) loc := by
  have found : lookup pgno (located c commit object)
      = (lookup pgno (fileIndex c object.2.encoding object.2.pages)).map
        fun entry => ⟨object.1, entry.1, entry.2⟩ := by
    refine (lookup_filter_map (fun pgno => decide (pgno ≤ commit)) _).trans ?_
    exact if_pos (decide_eq_true within)
  rw [found]
  rcases lookup_indexFrom c object.2.encoding pgno object.2.pages headerSize with
    ⟨absent, entry⟩ | ⟨before, data, after, split, here, entry⟩
  · refine .inl ⟨absent, ?_⟩
    rw [fileIndex, entry]
    rfl
  · refine .inr ⟨data, _, here, ?_, before, after, split, rfl⟩
    rw [fileIndex, entry]
    rfl

theorem lookup_located_above (c : Codec) (above : ¬ pgno ≤ commit)
    (object : FileInfo × LtxFile) : lookup pgno (located c commit object) = none := by
  refine (lookup_filter_map (fun pgno => decide (pgno ≤ commit)) _).trans ?_
  exact if_neg (by simpa using above)

variable {objects : List (FileInfo × LtxFile)}

/-- **The map has the newest frame of every page**, where the objects hold one. -/
theorem newest_located (c : Codec) (within : pgno ≤ commit) (objects : List (FileInfo × LtxFile)) :
    (held (objects.map Prod.snd) pgno = none ∧
      newest pgno (objects.map (located c commit)) = none) ∨
    ∃ object ∈ objects, ∃ data loc, held (objects.map Prod.snd) pgno = some data ∧
      newest pgno (objects.map (located c commit)) = some loc ∧
      FrameAt c object (pgno, data) loc := by
  induction objects with
  | nil => exact .inl ⟨rfl, rfl⟩
  | cons object objects ih =>
    rw [map_cons, map_cons, held_cons, newest]
    rcases ih with ⟨absent, unmapped⟩ | ⟨newer, mem, data, loc, here, mapped, frame⟩
    · rw [absent, unmapped]
      rcases lookup_located c within object with none_ | ⟨data, loc, here, mapped, frame⟩
      · exact .inl none_
      · exact .inr ⟨object, mem_cons_self, data, loc, here, mapped, frame⟩
    · rw [here, mapped]
      exact .inr ⟨newer, mem_cons_of_mem _ mem, data, loc, rfl, rfl, frame⟩

theorem newest_located_above (c : Codec) (above : ¬ pgno ≤ commit)
    (objects : List (FileInfo × LtxFile)) :
    newest pgno (objects.map (located c commit)) = none := by
  rw [newest_eq_none_iff]
  exact forall_mem_map.mpr fun object _ => lookup_located_above c above object

theorem increasing_located (lawful : c.Lawful) {object : FileInfo × LtxFile}
    (stored : Stored c client reader object.1 object.2) : Increasing (located c commit object) := by
  have encodable := ((encodeFile_iff lawful).mp stored.encoded).1
  refine Increasing.filter_map ?_ _ _
  rw [Increasing, fileIndex, map_fst_indexFrom]
  exact encodable.increasing

/-- The map that a plan gives. -/
def mapOf (c : Codec) (objects : List (FileInfo × LtxFile)) (h : Header) : PageMap where
  pageSize := h.pageSize
  commit := h.commit
  pages pgno := newest pgno (objects.map (located c h.commit))

/-- **The page map is built.** -/
theorem buildPageMap_eq (lawful : c.Lawful)
    (stored : ∀ object ∈ objects, Stored c client reader object.1 object.2)
    {last : FileInfo × LtxFile} (isLast : objects.getLast? = some last) :
    buildPageMap client (objects.map Prod.fst) = .ok (mapOf c objects last.2.header) := by
  have held := stored last (mem_of_getLast? isLast)
  have encodable := ((encodeFile_iff lawful).mp held.encoded).1
  let commit := last.2.header.commit
  have fetched : (objects.map Prod.fst).mapM
      (fun info => do return locate commit info (← fetchPageIndex client info))
      = .ok (objects.map (located c commit)) := by
    clear isLast
    induction objects with
    | nil => rfl
    | cons object objects ih =>
      obtain ⟨here, rest⟩ := forall_mem_cons.mp stored
      have first : (do return locate commit object.1 (← fetchPageIndex client object.1))
          = .ok (located c commit object) := (bind_ok (fetchPageIndex_eq lawful here) _).trans rfl
      rw [map_cons, mapM_cons, bind_ok first, bind_ok (ih rest)]
      rfl
  have long : 0 + headerSize ≤ (last.2.bytes c).length := by
    rw [last.2.bytes_eq c, length_append, Header.length_marshal]
    omega
  have header : slice (last.2.bytes c) 0 headerSize = last.2.header.marshal := by
    rw [last.2.bytes_eq c, ← nil_append (last.2.header.marshal ++ _)]
    exact slice_append rfl (Header.length_marshal _)
  have increasing : ∀ run ∈ objects.map (located c commit), Increasing run :=
    forall_mem_map.mpr fun object mem => increasing_located lawful (stored object mem)
  unfold buildPageMap
  rw [getLast?_map, isLast]
  refine (bind_ok (held.reads 0 headerSize long) _).trans ?_
  rw [header]
  refine (bind_ok (Header.parse_marshal encodable.valid) _).trans ?_
  refine (bind_ok fetched _).trans ?_
  rw [foldl_assign_runs increasing]
  simp only [Option.or_none, mapOf]
  rfl

end Mapping

/-! ## Runs -/

/-- The frame of the page can be read where the locator says. -/
def Serves (c : Codec) (client : Client) (reader : RangeReader) (size : UInt32) (page : Page)
    (loc : PageLocator) : Prop :=
  ∃ object : FileInfo × LtxFile, Stored c client reader object.1 object.2 ∧
    FrameAt c object page loc ∧ object.2.header.pageSize = size

/-- The pages stand one behind the other in an object, from `start` to `ends`. -/
def Adjacent (m : PageMap) (info : FileInfo) : ℕ → List UInt32 → ℕ → Prop
  | start, [], ends => start = ends
  | start, pgno :: rest, ends => ∃ loc, m.pages pgno = some loc ∧ loc.info = info ∧
      loc.offset = start ∧ Adjacent m info (start + loc.size) rest ends

section Runs

variable {c : Codec} {client : Client} {reader : RangeReader} {size : UInt32} {m : PageMap}
  {info : FileInfo} {page : Page} {loc : PageLocator} {pages : List UInt32} {start ends : ℕ}

/-- An object that is stored under one name has one content. -/
theorem Stored.bytes_eq {f g : LtxFile} (first : Stored c client reader info f)
    (second : Stored c client reader info g) : f.bytes c = g.bytes c := by
  have length : (f.bytes c).length = (g.bytes c).length := by
    have same := first.size.symm.trans second.size
    exact_mod_cast same
  have whole : ∀ bytes : Bytes, slice bytes 0 bytes.length = bytes := by
    intro bytes
    rw [slice, drop_zero, take_length]
  have here := first.reads 0 (f.bytes c).length (by omega)
  have there := second.reads 0 (f.bytes c).length (by omega)
  rw [here, whole, length, whole] at there
  exact Except.ok.inj there

theorem Serves.decode (lawful : c.Lawful) (serves : Serves c client reader size page loc)
    {f : LtxFile} (stored : Stored c client reader loc.info f) :
    loc.offset + loc.size ≤ (f.bytes c).length ∧
      decodePageFrameOf c (slice (f.bytes c) loc.offset loc.size) size.toNat page.1
        = .ok page.2 := by
  obtain ⟨_, own, frame, rfl⟩ := serves
  have encodable := ((encodeFile_iff lawful).mp own.encoded).1
  rw [frame.info_eq] at stored
  rw [stored.bytes_eq own]
  obtain ⟨within, bytes⟩ := frame.slice_eq
  refine ⟨within, ?_⟩
  rw [bytes]
  exact decodePageFrameOf_frame lawful encodable.valid (encodable.fits page frame.mem) _

theorem Adjacent.append {middle : ℕ} {more : List UInt32}
    (first : Adjacent m info start pages middle) (second : Adjacent m info middle more ends) :
    Adjacent m info start (pages ++ more) ends := by
  induction pages generalizing start with
  | nil =>
    cases first
    exact second
  | cons pgno pages ih =>
    obtain ⟨loc, mapped, same, begins, rest⟩ := first
    exact ⟨loc, mapped, same, begins, ih rest⟩

theorem Adjacent.le (run : Adjacent m info start pages ends) :
    start ≤ ends := by
  induction pages generalizing start with
  | nil => exact Nat.le_of_eq run
  | cons pgno pages ih =>
    obtain ⟨_, _, _, _, rest⟩ := run
    exact (Nat.le_add_right _ _).trans (ih rest)

theorem Adjacent.mapped
    (run : Adjacent m info start pages ends) : ∀ pgno ∈ pages, m.pages pgno ≠ none := by
  induction pages generalizing start with
  | nil => rintro _ ⟨⟩
  | cons pgno pages ih =>
    obtain ⟨loc, mapped, _, _, rest⟩ := run
    refine forall_mem_cons.mpr ⟨?_, ih rest⟩
    rw [mapped]
    exact Option.some_ne_none loc

theorem mem_runNumbers {other : UInt32} :
    other ∈ PageMap.runNumbers pgno last ↔ pgno ≤ other ∧ other ≤ last := by
  have small := last.toNat_lt
  simp only [PageMap.runNumbers, mem_map, mem_range, UInt32.le_iff_toNat_le]
  constructor
  · rintro ⟨i, _, rfl⟩
    have fits : pgno.toNat + i < 2 ^ 32 := by omega
    rw [UInt32.toNat_ofNat_of_lt' fits]
    omega
  · rintro ⟨after, _⟩
    refine ⟨other.toNat - pgno.toNat, by omega, ?_⟩
    rw [Nat.add_sub_cancel' after, UInt32.ofNat_toNat]

theorem runNumbers_self (pgno : UInt32) : PageMap.runNumbers pgno pgno = [pgno] := by
  have one : pgno.toNat + 1 - pgno.toNat = 1 := by omega
  rw [PageMap.runNumbers, one]
  simp

theorem runNumbers_succ (le : pgno ≤ last) (more : last + 1 ≠ 0) :
    (last + 1).toNat = last.toNat + 1 ∧
      PageMap.runNumbers pgno (last + 1) = PageMap.runNumbers pgno last ++ [last + 1] := by
  have small := last.toNat_lt
  rw [UInt32.le_iff_toNat_le] at le
  have next : (last + 1).toNat = last.toNat + 1 := by
    rw [UInt32.toNat_add]
    refine Nat.mod_eq_of_lt (show last.toNat + 1 < 2 ^ 32 from ?_)
    by_contra full
    have top : last.toNat + 1 = 2 ^ 32 := by omega
    refine more (UInt32.toNat_inj.mp ?_)
    rw [UInt32.toNat_add]
    show (last.toNat + 1) % 2 ^ 32 = 0
    rw [top, Nat.mod_self]
  refine ⟨next, ?_⟩
  have count : last.toNat + 1 + 1 - pgno.toNat = (last.toNat + 1 - pgno.toNat) + 1 := by omega
  have place : pgno.toNat + (last.toNat + 1 - pgno.toNat) = last.toNat + 1 := by omega
  have final : UInt32.ofNat (pgno.toNat + (last.toNat + 1 - pgno.toNat)) = last + 1 := by
    rw [place, ← next, UInt32.ofNat_toNat]
  rw [PageMap.runNumbers, next, count, range_succ, map_append, map_singleton, final]
  rfl

/-- **The loop finds adjacent pages.** -/
theorem runEnd_adjacent (positive : m.pages 0 = none) (maxPages : UInt32) (fuel : ℕ)
    (le : pgno ≤ last) (run : Adjacent m info start (PageMap.runNumbers pgno last) ends) :
    pgno ≤ (m.runEnd info pgno maxPages fuel last ends).1 ∧
      Adjacent m info start
        (PageMap.runNumbers pgno (m.runEnd info pgno maxPages fuel last ends).1)
        (m.runEnd info pgno maxPages fuel last ends).2 := by
  induction fuel generalizing last ends with
  | zero => exact ⟨le, run⟩
  | succ fuel ih =>
    rw [PageMap.runEnd]
    cases mapped : m.pages (last + 1) with
    | none => exact ⟨le, run⟩
    | some next =>
      dsimp only
      split
      · exact ⟨le, run⟩
      · rename_i goes
        push Not at goes
        obtain ⟨⟨same, adjacent⟩, _⟩ := goes
        have more : last + 1 ≠ 0 := by
          intro wraps
          rw [wraps, positive] at mapped
          cases mapped
        obtain ⟨succ, numbers⟩ := runNumbers_succ le more
        refine ih ?_ ?_
        · rw [UInt32.le_iff_toNat_le] at le ⊢
          omega
        · rw [numbers]
          exact run.append ⟨next, mapped, same, adjacent, rfl⟩

/-- **A run is decoded page by page.** -/
theorem decodeRun_eq (lawful : c.Lawful) {data : UInt32 → Bytes} {f : LtxFile}
    (stored : Stored c client reader info f) {base : ℕ}
    (serves : ∀ pgno ∈ pages, ∀ loc, m.pages pgno = some loc →
      Serves c client reader m.pageSize (pgno, data pgno) loc)
    (run : Adjacent m info start pages ends) (after : base ≤ start) :
    m.decodeRun c (slice (f.bytes c) base (ends - base)) (start - base) pages
      = .ok (pages.map fun pgno => (pgno, data pgno)) := by
  induction pages generalizing start with
  | nil => rfl
  | cons pgno pages ih =>
    obtain ⟨loc, mapped, rfl, _, rest⟩ := run
    obtain ⟨here, later⟩ := forall_mem_cons.mp serves
    obtain ⟨_, decoded⟩ := (here loc mapped).decode lawful stored
    have upTo := rest.le
    have place : base + (start - base) = loc.offset := by omega
    have frame : decodePageFrameOf c
        (slice (slice (f.bytes c) base (ends - base)) (start - base) loc.size)
        m.pageSize.toNat pgno = .ok (data pgno) := by
      rw [slice_slice (by omega), place]
      exact decoded
    have next := ih later rest (by omega)
    have shift : start + loc.size - base = start - base + loc.size := by omega
    rw [shift] at next
    refine (bind_orCorrupt mapped _).trans ?_
    refine (bind_ok frame _).trans ?_
    exact (bind_ok next _).trans rfl

theorem Adjacent.ends_le {limit : ℕ} (run : Adjacent m info start pages ends)
    (begins : start ≤ limit)
    (inside : ∀ pgno ∈ pages, ∀ loc, m.pages pgno = some loc → loc.info = info →
      loc.offset + loc.size ≤ limit) : ends ≤ limit := by
  induction pages generalizing start with
  | nil =>
    cases run
    exact begins
  | cons pgno pages ih =>
    obtain ⟨loc, mapped, same, here, rest⟩ := run
    obtain ⟨first, later⟩ := forall_mem_cons.mp inside
    refine ih rest ?_ later
    rw [← here]
    exact first loc mapped same

/-- **A run is served**, the demanded page first. -/
theorem readRunSync_eq (lawful : c.Lawful) {data : UInt32 → Bytes}
    (serves : ∀ pgno loc, m.pages pgno = some loc →
      Serves c client reader m.pageSize (pgno, data pgno) loc) (positive : m.pages 0 = none)
    (mapped : m.pages pgno = some loc) (maxBytes : ℕ) :
    ∃ last, pgno ≤ last ∧ (∀ other ∈ PageMap.runNumbers pgno last, m.pages other ≠ none) ∧
      m.readRunSync c reader pgno maxBytes
        = .ok ((PageMap.runNumbers pgno last).map fun pgno => (pgno, data pgno)) := by
  obtain ⟨object, stored, frame, _⟩ := serves pgno loc mapped
  rw [← frame.info_eq] at stored
  let maxPages := UInt32.ofNat (max (maxBytes / m.pageSize.toNat) 1)
  let found := m.runEnd loc.info pgno maxPages maxPages.toNat pgno (loc.offset + loc.size)
  have start :
      Adjacent m loc.info loc.offset (PageMap.runNumbers pgno pgno) (loc.offset + loc.size) := by
    rw [runNumbers_self]
    exact ⟨loc, mapped, rfl, rfl, rfl⟩
  obtain ⟨le, run⟩ := runEnd_adjacent positive maxPages maxPages.toNat (le_refl pgno) start
  have inside : ∀ other ∈ PageMap.runNumbers pgno found.1, ∀ there, m.pages other = some there →
      there.info = loc.info → there.offset + there.size ≤ (object.2.bytes c).length := by
    intro other _ there mapped same
    exact ((serves other there mapped).decode lawful (same ▸ stored)).1
  have begins := ((serves pgno loc mapped).decode lawful stored).1
  have upTo : found.2 ≤ (object.2.bytes c).length := run.ends_le (by omega) inside
  have after : loc.offset ≤ found.2 := run.le
  have fits : loc.offset + (found.2 - loc.offset) ≤ (object.2.bytes c).length := by omega
  have same : loc.offset ≤ loc.offset := le_rfl
  have decoded := decodeRun_eq lawful stored
    (fun other _ there mapped => serves other there mapped) run same
  rw [Nat.sub_self] at decoded
  refine ⟨found.1, le, run.mapped, ?_⟩
  unfold PageMap.readRunSync
  rw [mapped]
  refine (bind_ok (stored.faults loc.offset (found.2 - loc.offset) fits) _).trans ?_
  refine (bind_ok (require_pos (length_slice fits).ge) _).trans ?_
  exact decoded

theorem readPage_eq (lawful : c.Lawful) {data : Bytes}
    (serves : Serves c client reader m.pageSize (pgno, data) loc)
    (mapped : m.pages pgno = some loc) :
    m.readPage c client pgno = .ok (some data) := by
  obtain ⟨object, stored, frame, sized⟩ := serves
  have info_ := frame.info_eq
  obtain ⟨within, decoded⟩ :=
    Serves.decode lawful ⟨object, stored, frame, sized⟩ (info_ ▸ stored)
  have read := stored.reads loc.offset loc.size within
  unfold PageMap.readPage
  rw [mapped]
  rw [← info_] at read
  refine (bind_ok read _).trans ?_
  exact (bind_ok decoded _).trans rfl

end Runs

/-! ## Paged restore is restore -/

/-- A page of a database image. -/
def imagePageAt (image : Bytes) (size pgno : UInt32) : Bytes :=
  slice image ((pgno.toNat - 1) * size.toNat) size.toNat

section Restore

variable {c : Codec} {client : Client} {reader : RangeReader} {objects : List (FileInfo × LtxFile)}

theorem getElem_pageRange (above : 0 < pgno) (within : pgno ≤ commit) :
    (pageRange 0 commit)[pgno.toNat - 1]? = some pgno := by
  rw [UInt32.lt_iff_toNat_lt] at above
  rw [UInt32.le_iff_toNat_le] at within
  have zero : (0 : UInt32).toNat = 0 := rfl
  have inside : pgno.toNat - 1 < commit.toNat - (0 : UInt32).toNat := by omega
  have place : (0 : UInt32).toNat + 1 + (pgno.toNat - 1) = pgno.toNat := by omega
  rw [pageRange, getElem?_map, getElem?_range inside, Option.map_some, place,
    UInt32.ofNat_toNat]

/-- Pages that files of one page size hold have that size. -/
theorem length_of_held {files : List LtxFile} (sound : ∀ f ∈ files, f.Sound c) {size : UInt32}
    (sizes : ∀ f ∈ files, f.header.pageSize = size) {data : Bytes}
    (here : held files pgno = some data) :
    data.length = size.toNat := by
  obtain ⟨_, mem, found⟩ := exists_of_newest here
  obtain ⟨f, inside, rfl⟩ := mem_map.mp mem
  have fits := (sound f inside).encodable.fits _ (mem_of_lookup found)
  rw [← sizes f inside]
  exact fits.length

theorem head_runNumbers (le : pgno ≤ last) :
    (PageMap.runNumbers pgno last).head? = some pgno := by
  rw [UInt32.le_iff_toNat_le] at le
  obtain ⟨n, count⟩ : ∃ n, last.toNat + 1 - pgno.toNat = n + 1 :=
    ⟨last.toNat - pgno.toNat, by omega⟩
  rw [PageMap.runNumbers, count, range_succ_eq_map]
  simp

/-- What the map of a restored plan serves. -/
theorem serves_mapOf (lawful : c.Lawful)
    (stored : ∀ object ∈ objects, Stored c client reader object.1 object.2) {h : Header}
    (sizes : ∀ object ∈ objects, object.2.header.pageSize = h.pageSize) (pgno : UInt32)
    (loc : PageLocator) (mapped : (mapOf c objects h).pages pgno = some loc) :
    (0 < pgno ∧ pgno ≤ h.commit ∧ pgno ≠ lockPgno h.pageSize) ∧
      ∃ data, held (objects.map Prod.snd) pgno = some data ∧
        Serves c client reader h.pageSize (pgno, data) loc := by
  change newest pgno (objects.map (located c h.commit)) = some loc at mapped
  by_cases within : pgno ≤ h.commit
  · rcases newest_located c within objects with ⟨_, absent⟩ | found
    · rw [absent] at mapped
      cases mapped
    · obtain ⟨object, mem, data, _, here, newest_, frame⟩ := found
      rw [newest_] at mapped
      cases mapped
      have own := stored object mem
      have encodable := ((encodeFile_iff lawful).mp own.encoded).1
      have fits := encodable.fits _ frame.mem
      refine ⟨⟨UInt32.pos_iff_ne_zero.mpr fits.pgno, within, ?_⟩, data, here,
        object, own, frame, sizes object mem⟩
      rw [← sizes object mem]
      exact fits.lock
  · rw [newest_located_above c within] at mapped
    cases mapped

/-- The map serves the pages of the image, alone and in runs. -/
structure ServesImage (c : Codec) (client : Client) (reader : RangeReader) (m : PageMap)
    (image : Bytes) : Prop where
  valid : isValidPageSize m.pageSize = true
  length : image.length = m.commit.toNat * m.pageSize.toNat
  lock : lockPgno m.pageSize ≤ m.commit →
    imagePageAt image m.pageSize (lockPgno m.pageSize) = List.replicate m.pageSize.toNat 0
  alone : ∀ pgno, 0 < pgno → pgno ≤ m.commit → pgno ≠ lockPgno m.pageSize →
    m.readPage c client pgno = .ok (some (imagePageAt image m.pageSize pgno))
  absent : ∀ pgno, ¬ (0 < pgno ∧ pgno ≤ m.commit ∧ pgno ≠ lockPgno m.pageSize) →
    m.pages pgno = none
  run : ∀ pgno maxBytes, ∃ run, m.readRunSync c reader pgno maxBytes = .ok run ∧
    (∀ page ∈ run, (0 < page.1 ∧ page.1 ≤ m.commit ∧ page.1 ≠ lockPgno m.pageSize) ∧
      page.2 = imagePageAt image m.pageSize page.1) ∧
    (0 < pgno → pgno ≤ m.commit → pgno ≠ lockPgno m.pageSize →
      run.head? = some (pgno, imagePageAt image m.pageSize pgno))

theorem exists_servesImage (lawful : c.Lawful)
    (stored : ∀ object ∈ objects, Stored c client reader object.1 object.2) {image : Bytes}
    (restored : buildDatabaseImage c (objects.map fun object => object.2.bytes c) = .ok image) :
    ∃ m last, buildPageMap client (objects.map Prod.fst) = .ok m ∧
      objects.getLast? = some last ∧ m.commit = last.2.header.commit ∧
      (∀ object ∈ objects, object.2.header.pageSize = m.pageSize) ∧
      ServesImage c client reader m image := by
  have bytes : (objects.map fun object => object.2.bytes c)
      = (objects.map Prod.snd).map (LtxFile.bytes c) := by
    rw [map_map]
    rfl
  rw [bytes] at restored
  have sound : ∀ f ∈ objects.map Prod.snd, f.Sound c := by
    obtain ⟨_, read, _⟩ := ok_of_bind restored
    refine sound_of_readFiles lawful (forall_mem_map.mpr ?_) read
    exact fun object mem => ((encodeFile_iff lawful).mp (stored object mem).encoded).1
  obtain ⟨final, isFinal, accepts, complete, rfl⟩ :=
    (buildDatabaseImage_iff lawful sound).mp restored
  obtain ⟨last, isLast, rfl⟩ : ∃ last, objects.getLast? = some last ∧ last.2 = final := by
    rw [getLast?_map, Option.map_eq_some_iff] at isFinal
    exact isFinal
  let files := objects.map Prod.snd
  let h := last.2.header
  let m := mapOf c objects h
  have valid := (sound last.2 (mem_of_getLast? isFinal)).encodable.valid
  have sizes : ∀ f ∈ files, f.header.pageSize = h.pageSize :=
    pageSize_eq_of_acceptsAll accepts isFinal
  have sizes_ : ∀ object ∈ objects, object.2.header.pageSize = h.pageSize := forall_mem_map.mp sizes
  let page := pageOf h.pageSize (held files)
  have long : ∀ pgno ∈ pageRange 0 h.commit, (page pgno).length = h.pageSize.toNat := by
    intro pgno mem
    obtain ⟨above, within⟩ := mem_pageRange.mp mem
    by_cases lock : pgno = lockPgno h.pageSize
    · simp only [page, pageOf, if_pos lock, length_replicate]
    · obtain ⟨data, here⟩ := Option.ne_none_iff_exists'.mp (complete pgno above within lock)
      simp only [page, pageOf, if_neg lock, here, Option.getD_some, files]
      exact length_of_held sound sizes here
  have inImage : ∀ pgno, 0 < pgno → pgno ≤ h.commit →
      imagePageAt ((pageRange 0 h.commit).flatMap page) h.pageSize pgno = page pgno :=
    fun pgno above within => slice_flatMap long (getElem_pageRange above within)
  have serves : ∀ pgno loc, m.pages pgno = some loc →
      Serves c client reader h.pageSize (pgno, page pgno) loc := by
    intro pgno loc mapped
    obtain ⟨⟨_, _, lock⟩, data, here, serves⟩ := serves_mapOf lawful stored sizes_ pgno loc mapped
    have same : page pgno = data := by
      simp only [page, pageOf, if_neg lock, files, here, Option.getD_some]
    rw [same]
    exact serves
  have maps : ∀ pgno, 0 < pgno → pgno ≤ h.commit → pgno ≠ lockPgno h.pageSize →
      ∃ loc, m.pages pgno = some loc := by
    intro pgno above within lock
    rcases newest_located c within objects with ⟨absent, _⟩ | ⟨_, _, _, loc, _, mapped, _⟩
    · exact absurd absent (complete pgno above within lock)
    · exact ⟨loc, mapped⟩
  have unmapped : ∀ pgno, ¬ (0 < pgno ∧ pgno ≤ h.commit ∧ pgno ≠ lockPgno h.pageSize) →
      m.pages pgno = none := by
    intro pgno outside
    cases mapped : m.pages pgno with
    | none => rfl
    | some loc =>
      exact absurd (serves_mapOf lawful stored sizes_ pgno loc mapped).1 outside
  have count : (pageRange 0 h.commit).length = h.commit.toNat := by
    rw [pageRange, length_map, length_range]
    rfl
  refine ⟨m, last, buildPageMap_eq lawful stored isLast, isLast, rfl, sizes_,
    valid.pageSize, ?_, ?_, ?_, unmapped, ?_⟩
  · have exact_ := Nat.le_antisymm (length_flatMap_le fun pgno mem => (long pgno mem).le)
      (le_length_flatMap fun pgno mem => (long pgno mem).ge)
    rw [exact_, count]
    rfl
  · intro within
    have positive : 0 < lockPgno h.pageSize :=
      UInt32.lt_iff_toNat_lt.mpr (Nat.lt_trans Nat.one_pos (one_lt_lockPgno valid.pageSize))
    exact (inImage _ positive within).trans (if_pos rfl)
  · intro pgno above within lock
    obtain ⟨loc, mapped⟩ := maps pgno above within lock
    have served := readPage_eq lawful (serves pgno loc mapped) mapped
    rw [← inImage pgno above within] at served
    exact served
  · intro pgno maxBytes
    cases mapped : m.pages pgno with
    | none =>
      refine ⟨[], by rw [PageMap.readRunSync, mapped], by rintro _ ⟨⟩, ?_⟩
      intro above within lock
      obtain ⟨loc, here⟩ := maps pgno above within lock
      rw [mapped] at here
      cases here
    | some =>
      have zero : m.pages 0 = none := unmapped 0 fun inside => lt_irrefl _ inside.1
      obtain ⟨end_, le, all, served⟩ := readRunSync_eq lawful serves zero mapped maxBytes
      have inside : ∀ other ∈ PageMap.runNumbers pgno end_,
          0 < other ∧ other ≤ h.commit ∧ other ≠ lockPgno h.pageSize := by
        intro other mem
        by_contra outside
        exact all other mem (unmapped other outside)
      refine ⟨_, served, forall_mem_map.mpr ?_, ?_⟩
      · intro other mem
        have stored_ := inside other mem
        exact ⟨stored_, (inImage other stored_.1 stored_.2.1).symm⟩
      · intro above within _
        rw [head?_map, head_runNumbers le, Option.map_some]
        exact congrArg (fun data => some (pgno, data)) (inImage pgno above within).symm

/-- **Paged restore is restore.**  If a plan can be restored, its page map is built, for
the page size and the commit of the image; every page but the one of the lock bytes is
served as it stands in the image, alone or in a run, and none above the commit. -/
theorem paged_restore (lawful : c.Lawful)
    (stored : ∀ object ∈ objects, Stored c client reader object.1 object.2) {image : Bytes}
    (restored : buildDatabaseImage c (objects.map fun object => object.2.bytes c) = .ok image) :
    ∃ m last, buildPageMap client (objects.map Prod.fst) = .ok m ∧
      objects.getLast? = some last ∧ m.commit = last.2.header.commit ∧
      (∀ object ∈ objects, object.2.header.pageSize = m.pageSize) ∧
      image.length = m.commit.toNat * m.pageSize.toNat ∧
      (∀ pgno, 0 < pgno → pgno ≤ m.commit → pgno ≠ lockPgno m.pageSize →
        m.readPage c client pgno = .ok (some (imagePageAt image m.pageSize pgno))) ∧
      (∀ pgno, m.commit < pgno → m.readPage c client pgno = .ok none) ∧
      ∀ pgno maxBytes, ∃ run, m.readRunSync c reader pgno maxBytes = .ok run ∧
        (∀ page ∈ run, page.1 ≤ m.commit ∧ page.2 = imagePageAt image m.pageSize page.1) ∧
        (0 < pgno → pgno ≤ m.commit → pgno ≠ lockPgno m.pageSize →
          run.head? = some (pgno, imagePageAt image m.pageSize pgno)) := by
  obtain ⟨m, last, built, isLast, commit, sizes, serves⟩ :=
    exists_servesImage lawful stored restored
  refine ⟨m, last, built, isLast, commit, sizes, serves.length, serves.alone, ?_, ?_⟩
  · intro pgno above
    have absent := serves.absent pgno fun inside => absurd inside.2.1 (not_le.mpr above)
    rw [PageMap.readPage, absent]
  · intro pgno maxBytes
    obtain ⟨run, read, pages, first⟩ := serves.run pgno maxBytes
    exact ⟨run, read, fun page mem => ⟨(pages page mem).1.2.1, (pages page mem).2⟩, first⟩

end Restore

/-- The files of a chain as objects. -/
def objectsOf (files : List LtxFile) : List (FileInfo × LtxFile) :=
  files.map fun f => (⟨0, f.header.minTxid.toNat, f.header.maxTxid.toNat,
    (f.bytes .stored).length, none⟩, f)

/-- A client that has the objects at hand. -/
def clientOf (objects : List (FileInfo × LtxFile)) : Client :=
    fun level minTxid maxTxid start length =>
  match objects.find? fun object => object.1.level = level ∧ object.1.minTxid = minTxid ∧
      object.1.maxTxid = maxTxid with
  | some object => .ok (slice (object.2.bytes .stored) start length)
  | none => .error .txNotAvailable

def readerOf (objects : List (FileInfo × LtxFile)) : RangeReader := fun info =>
  clientOf objects info.level info.minTxid info.maxTxid

theorem shrinkAndGrow_stored : ∀ object ∈ objectsOf shrinkAndGrow,
    Stored .stored (clientOf (objectsOf shrinkAndGrow)) (readerOf (objectsOf shrinkAndGrow))
      object.1 object.2 := by
  have found : ∀ f ∈ shrinkAndGrow, ∀ start length,
      clientOf (objectsOf shrinkAndGrow) 0
        f.header.minTxid.toNat f.header.maxTxid.toNat start length
        = .ok (slice (f.bytes .stored) start length) := by
    refine forall_mem_cons.mpr ⟨fun _ _ => rfl, ?_⟩
    refine forall_mem_cons.mpr ⟨fun _ _ => rfl, ?_⟩
    exact forall_mem_cons.mpr ⟨fun _ _ => rfl, by rintro _ ⟨⟩⟩
  refine forall_mem_map.mpr fun f mem => ⟨shrinkAndGrow_chain.encoded f mem, rfl, ?_, ?_⟩
  · exact fun start length _ => found f mem start length
  · exact fun start length _ => found f mem start length

/-- The page that the database lost and got back is served as it was restored. -/
theorem shrinkAndGrow_paged_restore : ∃ image m,
    buildDatabaseImage .stored (shrinkAndGrow.map (LtxFile.bytes .stored)) = .ok image ∧
    buildPageMap (clientOf (objectsOf shrinkAndGrow)) ((objectsOf shrinkAndGrow).map Prod.fst) =
      .ok m ∧
    m.readPage .stored (clientOf (objectsOf shrinkAndGrow)) 2
      = .ok (some (imagePageAt image m.pageSize 2)) := by
  have restored := shrinkAndGrow_chain.image Codec.stored_lawful
  obtain ⟨m, _, built, isLast, commit, sizes, _, pages, _⟩ :=
    paged_restore Codec.stored_lawful shrinkAndGrow_stored restored
  refine ⟨_, m, restored, built, pages 2 (by decide) ?_ ?_⟩
  · cases isLast
    rw [commit]
    decide
  · rw [← sizes _ mem_cons_self]
    decide

end Celld.Ltx
