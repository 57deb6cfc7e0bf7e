import Celld.Ltx.Image

/-!
# Chains of files under compaction

A `Chain` is a snapshot and files that continue it, each with every page the database
grows by.  The compactor takes every block of a chain, and what it writes can stand in
the chain for the block: the chain is one again, and restores to the same image.
`Folds` does so over and over.

The database may shrink in a block and grow again behind it.  The compactor drops pages
past the end of its last input, and no restore misses them: a later file that grows the
database brings them anew (`held_fold`).
-/

namespace Celld.Ltx

open Wire LtxFile
open List hiding lookup lookup_eq_none_iff

variable {previous : UInt32} {h : Header}

/-- Every file brings the pages by which the database grows beyond `previous`. -/
def Grows (size : UInt32) : UInt32 → List LtxFile → Prop
  | _, [] => True
  | previous, f :: files =>
      (∀ pgno, previous < pgno → pgno ≤ f.header.commit → pgno ≠ lockPgno size →
        pgno ∈ f.pages.map Prod.fst) ∧ Grows size f.header.commit files

/-- The pages of the database that the files leave behind. -/
def databasePages (files : List LtxFile) (h : Header) : List Page :=
  (pageRange 0 h.commit).filterMap fun pgno =>
    if pgno = lockPgno h.pageSize then none else (held files pgno).map (Prod.mk pgno)

/-- The rolling checksum of the database that the files leave behind. -/
def databaseChecksum (c : Codec) (files : List LtxFile) (h : Header) : UInt64 :=
  (databasePages files h).foldl
    (fun sum page => checksumFlag ||| (sum ^^^ checksumPage c page.1 page.2)) checksumFlag

/-- A snapshot and the files that continue it, of one page size and checksum mode. -/
structure Chain (c : Codec) (flags size : UInt32) (files : List LtxFile) : Prop where
  encoded : ∀ f ∈ files, encodeFile c f.encoding f.header f.pages f.post = .ok (f.bytes c)
  flags : ∀ f ∈ files, f.header.flags = flags
  pageSize : ∀ f ∈ files, f.header.pageSize = size
  first : ∃ f, files.head? = some f ∧ f.header.minTxid = 1
  later : ∀ f ∈ files.tail, f.header.minTxid ≠ 1
  contiguous : files.IsChain fun f g =>
    isContiguous f.header.maxTxid g.header.minTxid g.header.maxTxid = true
  grows : Grows size 0 files
  /-- A checksum that is tracked is the one of the database after the file. -/
  checksums : ∀ before f after, files = before ++ f :: after → f.header.noChecksum = false →
    f.post = databaseChecksum c (before ++ [f]) f.header

/-! ## Pages of a chain -/

section Pages

variable {c : Codec} {size p : UInt32} {files : List LtxFile} {pages : List Page}

/-- The last commit of the files. -/
def lastCommit (previous : UInt32) (files : List LtxFile) : UInt32 :=
  files.getLast?.elim previous (·.header.commit)

theorem lastCommit_of_last {last : LtxFile} (isLast : files.getLast? = some last)
    (previous : UInt32) : lastCommit previous files = last.header.commit := by
  rw [lastCommit, isLast]
  rfl

theorem lastCommit_cons (previous : UInt32) (f : LtxFile) (files : List LtxFile) :
    lastCommit previous (f :: files) = lastCommit f.header.commit files := by
  cases files with
  | nil => rfl
  | cons => rw [lastCommit, getLast?_cons_cons, lastCommit, getLast?_cons]; rfl

theorem Grows.append {more : List LtxFile} :
    Grows size previous (files ++ more) ↔
      Grows size previous files ∧ Grows size (lastCommit previous files) more := by
  induction files generalizing previous with
  | nil => exact (and_iff_right trivial).symm
  | cons f files ih =>
    rw [lastCommit_cons, cons_append, Grows, Grows, ih, and_assoc]

/-- The files hold every page by which they grow the database. -/
theorem Grows.held_ne_none (grows : Grows size previous files) (above : previous < p)
    (within : p ≤ lastCommit previous files) (stored : p ≠ lockPgno size) :
    held files p ≠ none := by
  induction files generalizing previous with
  | nil => exact absurd within (not_le.mpr above)
  | cons f files ih =>
    obtain ⟨here, rest⟩ := grows
    rw [lastCommit_cons] at within
    rw [held_cons]
    by_cases inside : p ≤ f.header.commit
    · have mine : lookup p f.pages ≠ none := by
        rw [ne_eq, lookup_eq_none_iff, not_not]
        exact here p above inside stored
      intro absent
      exact mine (Option.or_eq_none_iff.mp absent).2
    · intro absent
      exact ih rest (not_le.mp inside) within (Option.or_eq_none_iff.mp absent).1

theorem mem_databasePages {data : Bytes} :
    (p, data) ∈ databasePages files h ↔ (0 < p ∧ p ≤ h.commit) ∧ p ≠ lockPgno h.pageSize ∧
      held files p = some data := by
  rw [databasePages, mem_filterMap]
  constructor
  · rintro ⟨_, mem, eq⟩
    split at eq
    · cases eq
    · obtain ⟨_, here, same⟩ := Option.map_eq_some_iff.mp eq
      cases same
      exact ⟨mem_pageRange.mp mem, by assumption, here⟩
  · rintro ⟨inside, stored, here⟩
    refine ⟨p, mem_pageRange.mpr inside, ?_⟩
    rw [if_neg stored, here]
    rfl

theorem increasing_databasePages (h : Header) : Increasing (databasePages files h) := by
  refine pairwise_map.mpr (pairwise_filterMap.mpr ?_)
  refine (increasing_pageRange 0 h.commit).imp ?_
  intro _ _ less page fromFirst _ fromSecond
  have own : ∀ {pgno : UInt32} {page : Page}, (if pgno = lockPgno h.pageSize then none
      else (held files pgno).map (Prod.mk pgno)) = some page → page.1 = pgno := by
    intro pgno page eq
    split at eq
    · cases eq
    · obtain ⟨_, _, rfl⟩ := Option.map_eq_some_iff.mp eq
      rfl
  rw [own fromFirst, own fromSecond]
  exact less

/-- An increasing list of exactly the pages of the database is the list of them. -/
theorem eq_databasePages (increasing : Increasing pages)
    (exact_ : ∀ pgno data, (pgno, data) ∈ pages ↔ (0 < pgno ∧ pgno ≤ h.commit) ∧
      pgno ≠ lockPgno h.pageSize ∧ held files pgno = some data) :
    pages = databasePages files h := by
  refine increasing.ext (increasing_databasePages h) ?_
  rintro ⟨pgno, data⟩
  rw [exact_, mem_databasePages]

/-- The rolling checksum of a snapshot is the one of its pages. -/
theorem foldl_rollPage (snapshot : h.isSnapshot = true) (tracked : h.noChecksum = false)
    (fits : ∀ page ∈ pages, Fits h page) (sum : UInt64) :
    pages.foldl (rollPage c h) sum = pages.foldl
      (fun sum page => checksumFlag ||| (sum ^^^ checksumPage c page.1 page.2)) sum := by
  induction pages generalizing sum with
  | nil => rfl
  | cons page pages ih =>
    obtain ⟨here, rest⟩ := forall_mem_cons.mp fits
    have rolled : rollPage c h sum page
        = checksumFlag ||| (sum ^^^ checksumPage c page.1 page.2) := by
      refine if_pos ⟨snapshot, ?_, here.lock⟩
      rw [tracked]
      exact Bool.false_ne_true
    rw [foldl_cons, foldl_cons, rolled, ih rest]

/-- A snapshot of the whole database has the checksum of the database. -/
theorem sumsMatch_snapshot {post : UInt64} (fits : ∀ page ∈ pages, Fits h page)
    (whole : pages = databasePages files h)
    (truthful : h.noChecksum = false → post = databaseChecksum c files h) :
    SumsMatch c h pages post := by
  intro snapshot tracked
  rw [Bool.not_eq_true] at tracked
  have start : rollStart h = checksumFlag := by
    rw [rollStart, tracked]
    rfl
  rw [start, foldl_rollPage snapshot tracked fits, truthful tracked, databaseChecksum, ← whole]

/-- The lock page is never one of the first pages. -/
theorem one_lt_lockPgno {size : UInt32} (valid : isValidPageSize size = true) :
    1 < (lockPgno size).toNat := by
  rcases isValidPageSize_cases valid with eq | eq | eq | eq | eq | eq | eq | eq
    <;> rw [eq] <;> decide

/-- The least stored page above `previous` is the one a snapshot continues with. -/
theorem inOrder_of_least (valid : h.Valid) (snapshot : h.isSnapshot = true) (above : previous < p)
    (stored : p ≠ lockPgno h.pageSize)
    (least : ∀ pgno, previous < pgno → pgno ≤ p → pgno ≠ lockPgno h.pageSize → p = pgno) :
    InOrder h previous p := by
  have lock := one_lt_lockPgno valid.pageSize
  have small := p.toNat_lt
  have one : (previous + 1).toNat = previous.toNat + 1 := by
    rw [UInt32.lt_iff_toNat_lt] at above
    rw [UInt32.toNat_add]
    exact Nat.mod_eq_of_lt (show previous.toNat + 1 < 2 ^ 32 by omega)
  have before : previous = lockPgno h.pageSize - 1 ↔ previous + 1 = lockPgno h.pageSize := by
    constructor
    · rintro rfl
      exact UInt32.sub_add_cancel _ _
    · rintro eq
      rw [← eq]
      exact (UInt32.add_sub_cancel _ _).symm
  simp only [UInt32.lt_iff_toNat_lt, UInt32.le_iff_toNat_le] at above least
  rw [InOrder, if_pos snapshot]
  by_cases skips : previous + 1 = lockPgno h.pageSize
  · have differ : p.toNat ≠ previous.toNat + 1 := by
      intro eq
      exact stored (skips ▸ UInt32.toNat_inj.mp (eq.trans one.symm))
    have two : (previous + 2).toNat = previous.toNat + 2 := by
      rw [UInt32.toNat_add]
      exact Nat.mod_eq_of_lt (show previous.toNat + 2 < 2 ^ 32 by omega)
    have next : p = previous + 2 := by
      refine least _ (by omega) (by omega) fun eq => ?_
      have same := congrArg UInt32.toNat (eq.trans skips.symm)
      omega
    have nonzero : previous ≠ 0 := by
      rintro rfl
      rw [← skips] at lock
      exact absurd lock (by decide)
    rw [if_neg nonzero, if_pos (before.mpr skips)]
    exact next
  · have next : p = previous + 1 := least _ (by omega) (by omega) skips
    rw [if_neg (mt before.mp skips)]
    split
    · rename_i zero
      rw [next, zero]
      rfl
    · exact next

/-- **A snapshot without a gap is in order.** -/
theorem ordered_snapshot (valid : h.Valid) (snapshot : h.isSnapshot = true)
    (increasing : Increasing pages) (fits : ∀ page ∈ pages, Fits h page)
    (above : ∀ page ∈ pages, previous < page.1)
    (gapless : ∀ page ∈ pages, ∀ pgno, previous < pgno → pgno ≤ page.1 →
      pgno ≠ lockPgno h.pageSize → pgno ∈ pages.map Prod.fst) :
    Ordered h previous pages := by
  induction pages generalizing previous with
  | nil => trivial
  | cons page pages ih =>
    obtain ⟨here, rest⟩ := forall_mem_cons.mp fits
    obtain ⟨less, _⟩ := forall_mem_cons.mp above
    obtain ⟨upToHere, upToRest⟩ := forall_mem_cons.mp gapless
    have later := (pairwise_cons.mp increasing).1
    -- The first page is the least one above `previous` that is stored.
    have least : ∀ pgno, previous < pgno → pgno ≤ page.1 → pgno ≠ lockPgno h.pageSize →
        page.1 = pgno := by
      intro pgno after upTo stored
      rcases mem_cons.mp (upToHere pgno after upTo stored) with eq | mem
      · exact eq.symm
      · exact absurd (later pgno mem) (not_lt.mpr upTo)
    refine ⟨?_, ih increasing.tail rest (fun other mem => later _ (mem_map.mpr ⟨_, mem, rfl⟩)) ?_⟩
    · exact inOrder_of_least valid snapshot less here.lock least
    · intro other held pgno after upTo stored
      rcases mem_cons.mp (upToRest other held pgno (less.trans after) upTo stored) with eq | mem
      · exact absurd after (eq ▸ lt_irrefl _)
      · exact mem

/-- Any other file only has to be increasing. -/
theorem ordered_of_increasing (plain : ¬ h.isSnapshot = true) (increasing : Increasing pages)
    (above : ∀ page ∈ pages, previous < page.1) :
    Ordered h previous pages := by
  induction pages generalizing previous with
  | nil => trivial
  | cons page pages ih =>
    have later := (pairwise_cons.mp increasing).1
    refine ⟨?_, ih increasing.tail fun other mem => later _ (mem_map.mpr ⟨_, mem, rfl⟩)⟩
    rw [InOrder, if_neg plain]
    exact above page mem_cons_self

end Pages

/-! ## Folding a block -/

/-- Consecutive files of a chain, from the first to the last. -/
structure Block (c : Codec) (flags size : UInt32) (files : List LtxFile) (first last : LtxFile) :
    Prop where
  isFirst : files.head? = some first
  isLast : files.getLast? = some last
  sound : ∀ f ∈ files, f.Sound c
  flags : ∀ f ∈ files, f.header.flags = flags
  pageSize : ∀ f ∈ files, f.header.pageSize = size
  contiguous : files.IsChain fun f g =>
    isContiguous f.header.maxTxid g.header.minTxid g.header.maxTxid = true
  /-- A block that starts with the snapshot has all its pages. -/
  whole : first.header.minTxid = 1 → Grows size 0 files

section Folding

variable {c : Codec} {o : CompactorOptions} {flags size p : UInt32} {files : List LtxFile}
  {first last : LtxFile}

theorem isContiguous_iff {previous min max : UInt64} :
    isContiguous previous min max = true ↔ min ≤ previous + 1 ∧ previous < max := by
  rw [isContiguous, decide_eq_true_iff]

theorem maxTxid_le (isFirst : files.head? = some first) (isLast : files.getLast? = some last)
    (contiguous : files.IsChain fun f g =>
      isContiguous f.header.maxTxid g.header.minTxid g.header.maxTxid = true) :
    first.header.maxTxid ≤ last.header.maxTxid := by
  induction files generalizing first with
  | nil => cases isFirst
  | cons f files ih =>
    cases isFirst
    cases files with
    | nil =>
      cases isLast
      exact UInt64.le_refl _
    | cons =>
      rw [getLast?_cons_cons] at isLast
      obtain ⟨here, rest⟩ := isChain_cons_cons.mp contiguous
      have less := (isContiguous_iff.mp here).2
      exact UInt64.le_trans (UInt64.le_of_lt less) (ih rfl isLast rest)

namespace Block

variable (block : Block c flags size files first last)

include block

theorem first_mem : first ∈ files := mem_of_mem_head? block.isFirst

theorem last_mem : last ∈ files := mem_of_getLast? block.isLast

theorem runs_increasing : ∀ run ∈ files.map pages, Increasing run :=
  forall_mem_map.mpr fun f mem => (block.sound f mem).increasing

/-- **The output holds the newest page of the inputs**, up to the end of the database. -/
theorem mem_fold {data : Bytes} : (p, data) ∈ (foldFiles o files first last).pages ↔
    p ≤ last.header.commit ∧ held files p = some data := by
  refine (mem_mergeRuns block.runs_increasing (lt_add_one _)).trans ?_
  rw [decide_eq_true_iff]
  rfl

theorem increasing_fold : Increasing (foldFiles o files first last).pages :=
  increasing_mergeRuns block.runs_increasing (lt_add_one _)

theorem lookup_fold : lookup p (foldFiles o files first last).pages
    = if p ≤ last.header.commit then held files p else none := by
  ext data
  rw [block.increasing_fold.lookup_eq_some_iff, block.mem_fold]
  by_cases within : p ≤ last.header.commit <;> simp [within]

theorem noChecksum_fold (mode : o.headerFlags = flags) {f : LtxFile} (mem : f ∈ files) :
    (foldFiles o files first last).header.noChecksum = f.header.noChecksum := by
  unfold Header.noChecksum
  rw [block.flags f mem, ← mode]
  rfl

theorem valid_fold (mode : o.headerFlags = flags) :
    (foldFiles o files first last).header.Valid := by
  have valid := (block.sound first block.first_mem).encodable.valid
  have valid' := (block.sound last block.last_mem).encodable.valid
  have same := block.flags first block.first_mem
  have up := maxTxid_le block.isFirst block.isLast block.contiguous
  refine ⟨rfl, ?_, valid.pageSize, valid.minTxid, valid'.maxTxid,
    UInt64.le_trans valid.ordered up, Int64.le_refl 0, Int64.le_refl 0, ?_, ?_, ?_⟩
  · show o.headerFlags = o.headerFlags &&& headerFlagMask
    rw [mode, ← same]
    exact valid.flags
  · rintro ⟨salt | salt, _⟩ <;> exact salt rfl
  · exact fun wal => wal.2 rfl
  · have preApply := valid.preApply
    rw [block.noChecksum_fold mode block.first_mem]
    exact preApply

theorem fits_fold : ∀ page ∈ (foldFiles o files first last).pages,
    Fits (foldFiles o files first last).header page := by
  rintro ⟨pgno, data⟩ mem
  obtain ⟨within, found⟩ := block.mem_fold.mp mem
  obtain ⟨_, here, eq⟩ := exists_of_newest found
  obtain ⟨f, held, rfl⟩ := mem_map.mp here
  have fits := (block.sound f held).encodable.fits _ (mem_of_lookup eq)
  have sizes : first.header.pageSize = f.header.pageSize := by
    rw [block.pageSize _ block.first_mem, block.pageSize _ held]
  refine ⟨fits.pgno, within, ?_, ?_⟩
  · show pgno ≠ lockPgno first.header.pageSize
    rw [sizes]
    exact fits.lock
  · show data.length = first.header.pageSize.toNat
    rw [sizes]
    exact fits.length

/-- Every page the block grows the database by is in the output. -/
theorem mem_fold_of_grows (grows : Grows size previous files) (above : previous < p)
    (within : p ≤ last.header.commit) (stored : p ≠ lockPgno size) :
    p ∈ (foldFiles o files first last).pages.map Prod.fst := by
  obtain ⟨data, found⟩ := Option.ne_none_iff_exists'.mp
    (grows.held_ne_none above (lastCommit_of_last block.isLast previous ▸ within) stored)
  exact mem_map.mpr ⟨(p, data), block.mem_fold.mpr ⟨within, found⟩, rfl⟩

theorem encodable_fold (mode : o.headerFlags = flags) :
    Encodable (foldFiles o files first last).header (foldFiles o files first last).pages
      last.post := by
  have valid := block.valid_fold mode
  have closed := (block.sound last block.last_mem).encodable
  refine ⟨valid, block.fits_fold, ?_, ?_, closed.empty⟩
  · by_cases snapshot : (foldFiles o files first last).header.isSnapshot = true
    · have grows := block.whole (of_decide_eq_true snapshot)
      have sizes : (foldFiles o files first last).header.pageSize = size :=
        block.pageSize first block.first_mem
      refine ordered_snapshot valid snapshot block.increasing_fold block.fits_fold ?_ ?_
      · intro page mem
        exact UInt32.pos_iff_ne_zero.mpr (block.fits_fold page mem).pgno
      · intro page mem pgno above upTo stored
        exact block.mem_fold_of_grows grows above (upTo.trans (block.fits_fold page mem).commit)
          (sizes ▸ stored)
    · exact ordered_of_increasing snapshot block.increasing_fold fun page mem =>
        UInt32.pos_iff_ne_zero.mpr (block.fits_fold page mem).pgno
  · rw [block.noChecksum_fold mode block.last_mem]
    exact closed.checksum

/-- **The compactor takes the block.** -/
theorem compact (lawful : c.Lawful) (mode : o.headerFlags = flags) :
    Compactor.compact c o (files.map (bytes c))
      = .ok ((foldFiles o files first last).bytes c) := by
  have sizes : ∀ f ∈ files, f.header.pageSize = first.header.pageSize := by
    intro f mem
    rw [block.pageSize f mem, block.pageSize _ block.first_mem]
  refine compact_eq lawful block.isFirst block.isLast block.sound sizes ?_
    (block.encodable_fold mode)
  refine block.contiguous.imp_of_mem_imp ?_
  intro f g inF inG follows
  rw [Compactor.follows, decide_eq_true_iff]
  exact ⟨(sizes f inF).trans (sizes g inG).symm, .inr follows⟩

end Block

end Folding

/-! ## Folding in a chain -/

section Chains

variable {c : Codec} {o : CompactorOptions} {flags size p : UInt32}
  {files before block after : List LtxFile} {first last : LtxFile}

theorem lastCommit_append (previous : UInt32) (older newer : List LtxFile) :
    lastCommit previous (older ++ newer) = lastCommit (lastCommit previous older) newer := by
  rw [lastCommit, getLast?_append]
  unfold lastCommit
  cases newer.getLast? <;> rfl

/-- **What the compactor drops is not missed.** -/
theorem held_fold (o : CompactorOptions) (before : List LtxFile)
    (block_ : Block c flags size block first last)
    (grows : Grows size last.header.commit after)
    (within : p ≤ lastCommit last.header.commit after) (stored : p ≠ lockPgno size) :
    held (before ++ foldFiles o block first last :: after) p =
      held (before ++ (block ++ after)) p := by
  rw [held_append, held_append, held_append, held_cons, block_.lookup_fold]
  by_cases inside : p ≤ last.header.commit
  · rw [if_pos inside]
  · have later := grows.held_ne_none (not_le.mp inside) within stored
    obtain ⟨_, found⟩ := Option.ne_none_iff_exists'.mp later
    rw [found]
    rfl

theorem Chain.sound (chain : Chain c flags size files) (lawful : c.Lawful) :
    ∀ f ∈ files, f.Sound c := by
  intro f mem
  have encodable := ((encodeFile_iff lawful).mp (chain.encoded f mem)).1
  have increasing : Increasing f.pages := encodable.increasing
  refine ⟨encodable, ?_⟩
  intro snapshot
  -- Only the first file is a snapshot.
  obtain ⟨first, _⟩ := chain.first
  cases files with
  | nil => cases mem
  | cons g files =>
    rcases mem_cons.mp mem with rfl | later
    · have whole : f.pages = databasePages [f] f.header := by
        refine eq_databasePages increasing fun pgno data => ?_
        have own : held [f] pgno = lookup pgno f.pages := rfl
        rw [own, increasing.lookup_eq_some_iff]
        constructor
        · intro stored
          have fits := encodable.fits _ stored
          exact ⟨⟨UInt32.pos_iff_ne_zero.mpr fits.pgno, fits.commit⟩, fits.lock, stored⟩
        · exact fun found => found.2.2
      refine sumsMatch_snapshot encodable.fits whole ?_ snapshot
      exact chain.checksums [] f files rfl
    · exact absurd (of_decide_eq_true snapshot) (chain.later f later)

theorem Chain.block_of (chain : Chain c flags size (before ++ (block ++ after))) (lawful : c.Lawful)
    (isFirst : block.head? = some first) (isLast : block.getLast? = some last) :
    Block c flags size block first last := by
  have inside : ∀ f ∈ block, f ∈ before ++ (block ++ after) := fun f mem =>
    mem_append_right _ (mem_append_left _ mem)
  refine ⟨isFirst, isLast, fun f mem => chain.sound lawful f (inside f mem),
    fun f mem => chain.flags f (inside f mem), fun f mem => chain.pageSize f (inside f mem), ?_, ?_⟩
  · exact (chain.contiguous.right_of_append).left_of_append
  · intro snapshot
    cases before with
    | nil =>
      have grows : Grows size 0 (block ++ after) := chain.grows
      exact (Grows.append.mp grows).1
    | cons =>
      refine absurd snapshot (chain.later first ?_)
      exact mem_append_right _ (mem_append_left _ (mem_of_mem_head? isFirst))

/-- The two databases have the same pages, and so the same checksum. -/
theorem databaseChecksum_congr {other : List LtxFile} {h' : Header} (commit : h.commit = h'.commit)
    (sizes : h.pageSize = h'.pageSize)
    (same : ∀ pgno, pgno ≤ h.commit → pgno ≠ lockPgno h.pageSize →
      held files pgno = held other pgno) :
    databaseChecksum c files h = databaseChecksum c other h' := by
  have pages : databasePages files h = databasePages other h' := by
    unfold databasePages
    rw [← commit, ← sizes]
    refine filterMap_congr fun pgno mem => ?_
    by_cases lock : pgno = lockPgno h.pageSize
    · rw [if_pos lock, if_pos lock]
    · rw [if_neg lock, if_neg lock, same pgno (mem_pageRange.mp mem).2 lock]
  rw [databaseChecksum, pages, databaseChecksum]

/-- Contiguous ranges stay contiguous. -/
theorem contiguous_fold (isFirst : block.head? = some first) (isLast : block.getLast? = some last)
    (contiguous : (before ++ (block ++ after)).IsChain fun f g =>
      isContiguous f.header.maxTxid g.header.minTxid g.header.maxTxid = true) :
    (before ++ foldFiles o block first last :: after).IsChain fun f g =>
      isContiguous f.header.maxTxid g.header.minTxid g.header.maxTxid = true := by
  obtain ⟨older, rest, into⟩ := isChain_append.mp contiguous
  obtain ⟨inner, newer, out⟩ := isChain_append.mp rest
  have up := maxTxid_le isFirst isLast inner
  refine isChain_append.mpr ⟨older, isChain_cons.mpr ⟨?_, newer⟩, ?_⟩
  · intro g next
    exact out last isLast g next
  · intro f previous g isFold
    cases isFold
    have enters := isContiguous_iff.mp (into f previous first (by simp [isFirst]))
    refine isContiguous_iff.mpr ⟨enters.1, ?_⟩
    exact UInt64.lt_of_lt_of_le enters.2 up

/-- A tracked checksum stays the one of the database. -/
theorem checksums_fold (chain : Chain c flags size (before ++ (block ++ after)))
    (block_ : Block c flags size block first last) (mode : o.headerFlags = flags)
    (grows : Grows size last.header.commit after) (older : List LtxFile) (f : LtxFile)
    (newer : List LtxFile)
    (split : before ++ foldFiles o block first last :: after = older ++ f :: newer)
    (tracked : f.header.noChecksum = false) :
    f.post = databaseChecksum c (older ++ [f]) f.header := by
  have size_ : first.header.pageSize = size := block_.pageSize first block_.first_mem
  have size' : last.header.pageSize = size := block_.pageSize last block_.last_mem
  have own : (foldFiles o block first last).header.noChecksum = false → last.post
      = databaseChecksum c (before ++ [foldFiles o block first last])
        (foldFiles o block first last).header := by
    intro silent
    obtain ⟨init, ends⟩ := getLast?_eq_some_iff.mp block_.isLast
    have truthful := chain.checksums (before ++ init) last after (by simp [ends])
      ((block_.noChecksum_fold mode block_.last_mem).symm.trans silent)
    refine truthful.trans (databaseChecksum_congr rfl (size'.trans size_.symm) ?_)
    intro pgno within stored
    have none_ : Grows size last.header.commit [] := trivial
    have unchanged := held_fold o before block_ none_ within (size' ▸ stored)
    rw [unchanged, append_nil, ends, append_assoc]
  rcases append_eq_append_iff.mp split with ⟨mid, rfl, eq⟩ | ⟨mid, rfl, eq⟩
  · cases mid with
    | nil =>
      cases eq
      rw [append_nil]
      exact own tracked
    | cons g mid =>
      -- The file is behind the block.
      cases eq
      have grows' : Grows size last.header.commit ((mid ++ [f]) ++ newer) := by
        rwa [append_assoc]
      have size'' : f.header.pageSize = size := chain.pageSize f (by simp)
      have truthful := chain.checksums (before ++ (block ++ mid)) f newer (by simp) tracked
      refine truthful.trans (databaseChecksum_congr rfl rfl ?_)
      intro pgno within stored
      have unchanged := held_fold o before block_ (Grows.append.mp grows').1
        (by simpa [lastCommit] using within) (size'' ▸ stored)
      simp only [append_assoc, cons_append] at unchanged ⊢
      exact unchanged.symm
  · cases mid with
    | nil =>
      cases eq
      rw [append_nil] at own
      exact own tracked
    | cons g mid =>
      -- The file is before the block.
      cases eq
      exact chain.checksums older f (mid ++ (block ++ after)) (by simp) tracked

/-- **The compactor's output can stand for the block.** -/
theorem Chain.fold (chain : Chain c flags size (before ++ (block ++ after))) (lawful : c.Lawful)
    (mode : o.headerFlags = flags) (isFirst : block.head? = some first)
    (isLast : block.getLast? = some last) :
    Chain c flags size (before ++ foldFiles o block first last :: after) := by
  have block_ := chain.block_of lawful isFirst isLast
  obtain ⟨growsBefore, growsRest⟩ := Grows.append.mp chain.grows
  obtain ⟨growsBlock, growsAfter⟩ := Grows.append.mp growsRest
  rw [lastCommit_of_last isLast] at growsAfter
  have all : ∀ {P : LtxFile → Prop}, (∀ f ∈ before ++ (block ++ after), P f) →
      P (foldFiles o block first last) →
          ∀ f ∈ before ++ foldFiles o block first last :: after, P f := by
    intro P old new f mem
    rcases mem_append.mp mem with here | rest
    · exact old f (mem_append_left _ here)
    · rcases mem_cons.mp rest with rfl | here
      · exact new
      · exact old f (mem_append_right _ (mem_append_right _ here))
  have start : first ∈ block := block_.first_mem
  refine ⟨all chain.encoded ?_, all chain.flags mode, all chain.pageSize ?_, ?_, ?_,
    contiguous_fold isFirst isLast chain.contiguous, ?_,
    checksums_fold chain block_ mode growsAfter⟩
  · exact (encodeFile_iff lawful).mpr ⟨block_.encodable_fold mode, rfl⟩
  · exact block_.pageSize first start
  · obtain ⟨f, head, snapshot⟩ := chain.first
    cases before with
    | nil =>
      rw [nil_append, head?_append, isFirst] at head
      cases head
      exact ⟨_, rfl, snapshot⟩
    | cons => exact ⟨f, head, snapshot⟩
  · intro f mem
    cases before with
    | nil =>
      refine chain.later f ?_
      cases block with
      | nil => cases isFirst
      | cons => exact mem_append_right _ mem
    | cons =>
      rcases mem_append.mp mem with here | rest
      · exact chain.later f (mem_append_left _ here)
      · rcases mem_cons.mp rest with rfl | here
        · exact chain.later first (mem_append_right _ (mem_append_left _ start))
        · exact chain.later f (mem_append_right _ (mem_append_right _ here))
  · refine Grows.append.mpr ⟨growsBefore, ?_, growsAfter⟩
    intro _ above within stored
    exact block_.mem_fold_of_grows growsBlock above within stored

/-! ## Images of a chain -/

/-- The image the files leave behind. -/
def imageOf (size : UInt32) (files : List LtxFile) : Bytes :=
  (pageRange 0 (lastCommit 0 files)).flatMap (pageOf size (held files))

theorem acceptsAll_of_grows {s : ImageState} (known : s.pageSize.getD size = size)
    (sizes : ∀ f ∈ files, f.header.pageSize = size) (grows : Grows size (s.commit.getD 0) files) :
    s.AcceptsAll files := by
  induction files generalizing s with
  | nil => trivial
  | cons f files ih =>
    obtain ⟨here, rest⟩ := forall_mem_cons.mp sizes
    obtain ⟨growth, later⟩ := grows
    refine ⟨⟨?_, ?_⟩, ih ?_ rest later⟩
    · rw [here]
      exact known
    · intro pgno above within stored
      exact .inl (growth pgno above within (here ▸ stored))
    · show s.pageSize.getD f.header.pageSize = size
      rw [here]
      exact known

/-- **A plan is restored**, if its files bring what they grow by. -/
theorem buildDatabaseImage_of_grows (lawful : c.Lawful) (some_ : files ≠ [])
    (sound : ∀ f ∈ files, f.Sound c) (sizes : ∀ f ∈ files, f.header.pageSize = size)
    (grows : Grows size 0 files) :
    buildDatabaseImage c (files.map (bytes c)) = .ok (imageOf size files) := by
  obtain ⟨last, isLast⟩ := Option.ne_none_iff_exists'.mp (mt getLast?_eq_none_iff.mp some_)
  have sized : last.header.pageSize = size := sizes last (mem_of_getLast? isLast)
  have commit := lastCommit_of_last isLast 0
  refine (buildDatabaseImage_iff lawful sound).mpr
    ⟨last, isLast, acceptsAll_of_grows rfl sizes grows, ?_, ?_⟩
  · intro _ above within stored
    exact grows.held_ne_none above (commit ▸ within) (sized ▸ stored)
  · rw [imageOf, commit, sized]

theorem Chain.image (chain : Chain c flags size files) (lawful : c.Lawful) :
    buildDatabaseImage c (files.map (bytes c)) = .ok (imageOf size files) := by
  obtain ⟨first, isFirst, _⟩ := chain.first
  have some_ : files ≠ [] := by
    rintro rfl
    cases isFirst
  exact buildDatabaseImage_of_grows lawful some_ (chain.sound lawful) chain.pageSize chain.grows

theorem Chain.imageOf_fold (chain : Chain c flags size (before ++ (block ++ after)))
    (lawful : c.Lawful) (isFirst : block.head? = some first) (isLast : block.getLast? = some last) :
    imageOf size (before ++ foldFiles o block first last :: after)
      = imageOf size (before ++ (block ++ after)) := by
  have block_ := chain.block_of lawful isFirst isLast
  have commit := lastCommit_of_last isLast
  have growsAfter := (Grows.append.mp (Grows.append.mp chain.grows).2).2
  rw [commit] at growsAfter
  unfold imageOf
  rw [lastCommit_append, lastCommit_append, lastCommit_append, commit, lastCommit_cons]
  refine flatMap_congr fun pgno mem => ?_
  have within := (mem_pageRange.mp mem).2
  unfold pageOf
  by_cases lock : pgno = lockPgno size
  · rw [if_pos lock, if_pos lock]
  · rw [if_neg lock, if_neg lock, held_fold o before block_ growsAfter within lock]

end Chains

/-! ## Folding over and over -/

/-- Blocks are replaced by the compactor's output, one after the other. -/
inductive Folds (c : Codec) (o : CompactorOptions) (files : List Bytes) : List Bytes → Prop
  | refl : Folds c o files files
  | fold {before block after : List Bytes} {out : Bytes}
      (earlier : Folds c o files (before ++ block ++ after))
      (folded : Compactor.compact c o block = .ok out) : Folds c o files (before ++ out :: after)

section Folds

variable {c : Codec} {o : CompactorOptions} {size : UInt32} {files : List LtxFile}

/-- A nonempty block has a first and a last file. -/
theorem exists_ends {block : List LtxFile} (nonempty : block ≠ []) :
    ∃ first last, block.head? = some first ∧ block.getLast? = some last := by
  obtain ⟨first, _, rfl⟩ := exists_cons_of_ne_nil nonempty
  exact ⟨first, _, rfl, getLast?_eq_getLast_of_ne_nil nonempty⟩

/-- **A folded chain is a chain with the image of the first one.** -/
theorem Folds.chain (lawful : c.Lawful) (chain : Chain c o.headerFlags size files)
    {replaced : List Bytes} (folds : Folds c o (files.map (bytes c)) replaced) :
    ∃ others, replaced = others.map (bytes c) ∧ Chain c o.headerFlags size others ∧
      imageOf size others = imageOf size files := by
  induction folds with
  | refl => exact ⟨files, rfl, chain, rfl⟩
  | @fold before block after out earlier folded ih =>
    obtain ⟨others, eq, chain', same⟩ := ih
    rw [append_assoc] at eq
    obtain ⟨older, _, rfl, rfl, mapped⟩ := map_eq_append_iff.mp eq.symm
    obtain ⟨mid, newer, rfl, rfl, rfl⟩ := map_eq_append_iff.mp mapped
    have nonempty : mid ≠ [] := by
      rintro rfl
      cases folded
    obtain ⟨first, last, isFirst, isLast⟩ := exists_ends nonempty
    have compacted := (chain'.block_of lawful isFirst isLast).compact lawful rfl
    rw [compacted] at folded
    cases folded
    refine ⟨older ++ foldFiles o mid first last :: newer, by simp,
      chain'.fold lawful rfl isFirst isLast, ?_⟩
    rw [chain'.imageOf_fold lawful isFirst isLast, same]

theorem mapM_decodeFile (lawful : c.Lawful) (sound : ∀ f ∈ files, f.Sound c) :
    (files.map (bytes c)).mapM (decodeFile c) = .ok (files.map (decoded c)) := by
  induction files with
  | nil => rfl
  | cons f files ih =>
    obtain ⟨here, rest⟩ := forall_mem_cons.mp sound
    rw [map_cons, mapM_cons, bind_ok (here.decodeFile lawful), bind_ok (ih rest)]
    rfl

/-- **Compaction is invisible to a restore.**  However blocks of a chain are folded, the
image is the same.  The compactor takes every block of a folded chain; its output holds
the newest page of the inputs, up to the end of the database. -/
theorem Chain.folds_invisible (lawful : c.Lawful) (chain : Chain c o.headerFlags size files)
    {replaced : List Bytes} (folds : Folds c o (files.map (bytes c)) replaced) :
    (∃ image, buildDatabaseImage c (files.map (bytes c)) = .ok image ∧
      buildDatabaseImage c replaced = .ok image) ∧
    ∀ before block after, replaced = before ++ block ++ after → block ≠ [] →
      ∃ inputs last out merged, block.mapM (decodeFile c) = .ok inputs ∧
        inputs.getLast? = some last ∧ Compactor.compact c o block = .ok out ∧
        decodeFile c out = .ok merged ∧
        ∀ pgno data, (pgno, data) ∈ merged.pages ↔ pgno ≤ last.header.commit ∧
          newest pgno (inputs.map DecodedFile.pages) = some data := by
  obtain ⟨_, rfl, chain', same⟩ := folds.chain lawful chain
  refine ⟨⟨imageOf size files, chain.image lawful, same ▸ chain'.image lawful⟩, ?_⟩
  intro before block after split nonempty
  rw [append_assoc] at split
  obtain ⟨_, _, rfl, rfl, mapped⟩ := map_eq_append_iff.mp split
  obtain ⟨mid, _, rfl, rfl, rfl⟩ := map_eq_append_iff.mp mapped
  have nonempty' : mid ≠ [] := fun empty => nonempty (congrArg _ empty)
  obtain ⟨first, last, isFirst, isLast⟩ := exists_ends nonempty'
  have block_ := chain'.block_of lawful isFirst isLast
  have fold := (chain'.fold lawful rfl isFirst isLast).sound lawful
    (foldFiles o mid first last) (mem_append_right _ mem_cons_self)
  refine ⟨mid.map (decoded c), last.decoded c, (foldFiles o mid first last).bytes c,
    (foldFiles o mid first last).decoded c, mapM_decodeFile lawful block_.sound, ?_,
    block_.compact lawful rfl, fold.decodeFile lawful, ?_⟩
  · rw [getLast?_map, isLast]
    rfl
  · intro pgno data
    have pages : (mid.map (decoded c)).map DecodedFile.pages = mid.map pages := by
      rw [map_map]
      rfl
    rw [pages]
    exact block_.mem_fold (o := o)

end Folds

/-! ## A chain that shrinks and grows, and one of two modes -/

/-- A file of one transaction over pages of 512 bytes. -/
def smallFile (flags : UInt32) (txid : UInt64) (commit : UInt32) (pages : List (UInt32 × UInt8))
    (checksum : UInt64) : LtxFile where
  encoding := .legacyFrame
  header :=
    { version := version, flags, pageSize := 512, commit, minTxid := txid, maxTxid := txid
      preApplyChecksum := if txid = 1 then 0 else checksum }
  pages := pages.map fun page => (page.1, List.replicate 512 page.2)
  post := checksum

/-- Two pages, then one, then two again. -/
def shrinkAndGrow : List LtxFile :=
  [smallFile headerFlagNoChecksum 1 2 [(1, 1), (2, 2)] 0,
    smallFile headerFlagNoChecksum 2 1 [(1, 3)] 0,
    smallFile headerFlagNoChecksum 3 2 [(2, 4)] 0]

/-- The file in the middle tracks checksums. -/
def mixedModes : List LtxFile :=
  [smallFile headerFlagNoChecksum 1 1 [(1, 1)] 0, smallFile 0 2 1 [] checksumFlag,
    smallFile headerFlagNoChecksum 3 1 [] 0]

theorem eq_of_next {low high pgno : UInt32} (next : high.toNat = low.toNat + 1) (above : low < pgno)
    (within : pgno ≤ high) : pgno = high := by
  rw [UInt32.lt_iff_toNat_lt] at above
  rw [UInt32.le_iff_toNat_le] at within
  exact UInt32.toNat_inj.mp (by omega)

/-- The compactor has one checksum mode for its output, and refuses a block whose first
file has the one and whose last file has the other. -/
theorem mixedModes_refused :
    (∀ f ∈ mixedModes,
      encodeFile .stored f.encoding f.header f.pages f.post = .ok (f.bytes .stored)) ∧
    (∀ f ∈ mixedModes, f.header.pageSize = 512) ∧
    mixedModes.head?.map (·.header.minTxid) = some 1 ∧
    (mixedModes.IsChain fun f g => g.header.minTxid = f.header.maxTxid + 1) ∧
    Grows 512 0 mixedModes ∧
    buildDatabaseImage .stored (mixedModes.map (bytes .stored))
      = .ok (List.replicate 512 1) ∧
    ∀ o : CompactorOptions, o.headerFlags = 0 ∨ o.headerFlags = headerFlagNoChecksum →
      Compactor.compact .stored o (mixedModes.tail.map (bytes .stored))
        = .error .ltxCorrupted := by
  refine ⟨by decide +kernel, by decide +kernel, rfl, by decide +kernel, ?_, by decide +kernel, ?_⟩
  · refine ⟨?_, ?_, ?_, trivial⟩
    · intro pgno above within _
      rw [eq_of_next rfl above within]
      exact mem_singleton_self _
    · exact fun pgno above within _ => absurd within (not_le.mpr above)
    · exact fun pgno above within _ => absurd within (not_le.mpr above)
  · rintro ⟨_, allow⟩ (rfl | rfl) <;> cases allow <;> decide +kernel

theorem shrinkAndGrow_chain : Chain .stored headerFlagNoChecksum 512 shrinkAndGrow where
  encoded := by decide +kernel
  flags := by decide +kernel
  pageSize := by decide +kernel
  first := ⟨_, rfl, rfl⟩
  later := by decide +kernel
  contiguous := by decide +kernel
  grows := by
    refine ⟨?_, ?_, ?_, trivial⟩
    · intro pgno above within _
      by_cases first : pgno ≤ 1
      · rw [eq_of_next rfl above first]
        exact mem_cons_self
      · rw [eq_of_next rfl (not_le.mp first) within]
        exact mem_cons_of_mem _ (mem_singleton_self _)
    · intro pgno above within _
      exact absurd ((lt_of_lt_of_le above within)) (by decide)
    · intro pgno above within _
      rw [eq_of_next rfl above within]
      exact mem_singleton_self _
  checksums := by
    intro _ f _ split tracked
    have mem : f ∈ shrinkAndGrow := by
      rw [split]
      exact mem_append_right _ mem_cons_self
    have silent : ∀ f ∈ shrinkAndGrow, f.header.noChecksum = true := by decide +kernel
    rw [silent f mem] at tracked
    cases tracked

/-- The first two files are folded, and the page that the fold drops is not missed. -/
theorem shrinkAndGrow_folds_invisible : ∃ replaced : List Bytes, replaced.length = 2 ∧
    ∃ image, buildDatabaseImage .stored (shrinkAndGrow.map (bytes .stored)) = .ok image ∧
      buildDatabaseImage .stored replaced = .ok image := by
  let o : CompactorOptions := ⟨headerFlagNoChecksum, false⟩
  have chain : Chain .stored o.headerFlags 512
    ([] ++ (shrinkAndGrow.take 2 ++ shrinkAndGrow.drop 2)) := shrinkAndGrow_chain
  have folded := (chain.block_of Codec.stored_lawful rfl rfl).compact Codec.stored_lawful rfl
  have start : Folds .stored o (shrinkAndGrow.map (bytes .stored))
    ([] ++ (shrinkAndGrow.take 2).map (bytes .stored) ++
      (shrinkAndGrow.drop 2).map (bytes .stored)) := .refl
  have invisible := Chain.folds_invisible Codec.stored_lawful shrinkAndGrow_chain
    (.fold start folded)
  exact ⟨_, rfl, invisible.1⟩

end Celld.Ltx
