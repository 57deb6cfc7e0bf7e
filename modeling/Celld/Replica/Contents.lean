import Celld.Ltx.Chain
import Celld.Replica.Activations

/-!
# LTX files as contents

What LTX files do to a database, as `Contents`: the pages of the file over those that are
there, cut off at its commit.  What the compactor makes of consecutive transactions of an
owner carries them all (`carries_fold`), and the restore of an epoch chain ends in the database
that `buildDatabaseImage` writes (`image_replay`).
-/

namespace Celld.Replica

open Ltx Option Wire

/-- The number of a page that a database of so many pages stores. -/
abbrev IsPage (size commit p : UInt32) : Prop := 0 < p ∧ p ≤ commit ∧ p ≠ lockPgno size

/-- The pages of a database. -/
@[ext]
structure Database (size : UInt32) where
  commit : UInt32
  page : UInt32 → Option Bytes
  within : ∀ p, page p ≠ none → IsPage size commit p

namespace Database

variable {size : UInt32}

def blank : Database size where
  commit := 0
  page _ := none
  within _ some_ := absurd rfl some_

/-- The file is applied. -/
def applyFile (f : LtxFile) (db : Database size) : Database size where
  commit := f.header.commit
  page p := if IsPage size f.header.commit p then (lookup p f.pages).or (db.page p) else none
  within p some_ := by
    by_contra outside
    exact some_ (if_neg outside)

/-- The zero-page object that a continuation is seeded with. -/
def seedContinuation (txid : ℕ) (db : Database size) : LtxFile where
  encoding := .sizedBlock
  header :=
    { version := version, flags := headerFlagNoChecksum, pageSize := size, commit := db.commit
      minTxid := UInt64.ofNat txid, maxTxid := UInt64.ofNat txid }
  pages := []
  post := 0

/-- The bytes of the database. -/
def image (db : Database size) : Bytes := (pageRange 0 db.commit).flatMap (pageOf size db.page)

end Database

/-- LTX files act on databases. -/
def ltxContents (size : UInt32) : Contents (Database size) LtxFile where
  apply := Database.applyFile
  blank := .blank
  marker := Database.seedContinuation

section Replaying

variable {size p : UInt32} {files older newer : List LtxFile} {db : Database size}

theorem commit_foldl (db : Database size) :
    (files.foldl (fun db f => db.applyFile f) db).commit = lastCommit db.commit files := by
  induction files generalizing db with
  | nil => rfl
  | cons f files ih =>
    rw [List.foldl_cons, ih, lastCommit_cons]
    rfl

/-- **The newest page wins**, and below files that bring what they grow by, an older one
stays. -/
theorem page_foldl (grows : Grows size db.commit files)
    (stored : IsPage size (lastCommit db.commit files) p) :
    (files.foldl (fun db f => db.applyFile f) db).page p = (held files p).or (db.page p) := by
  induction files generalizing db with
  | nil => rfl
  | cons f files ih =>
    rw [lastCommit_cons] at stored
    rw [List.foldl_cons, ih grows.2 stored, held_cons, Option.or_assoc]
    by_cases inside : p ≤ f.header.commit
    · congr 1
      exact if_pos ⟨stored.1, inside, stored.2.2⟩
    · -- A page that was cut off comes back with a later file.
      have later := grows.2.held_ne_none (not_le.mp inside) stored.2.1 stored.2.2
      obtain ⟨_, found⟩ := ne_none_iff_exists'.mp later
      rw [found]
      rfl

/-- What was there before the older files does not matter where the newer ones say nothing. -/
theorem held_append_or (grows : Grows size db.commit (older ++ newer))
    (stored : IsPage size (lastCommit db.commit (older ++ newer)) p) :
    (held (older ++ newer) p).or ((older.foldl (fun db f => db.applyFile f) db).page p)
      = (held (older ++ newer) p).or (db.page p) := by
  cases found : held (older ++ newer) p with
  | some => rfl
  | none =>
    obtain ⟨growsOld, growsNew⟩ := Grows.append.mp grows
    rw [held_append, or_eq_none_iff] at found
    have upTo : p ≤ lastCommit db.commit older := by
      by_contra above
      rw [lastCommit_append] at stored
      exact growsNew.held_ne_none (not_le.mp above) stored.2.1 stored.2.2 found.1
    rw [page_foldl growsOld ⟨stored.1, upTo, stored.2.2⟩, found.2]
    rfl

/-- **What the compactor makes of consecutive transactions carries them.** -/
theorem carries_fold {c : Codec} {flags : UInt32} {h : History (Database size) LtxFile}
    {t count : ℕ}
    {first last : LtxFile} (lawful : c.Lawful) {o : CompactorOptions} (mode : o.headerFlags = flags)
    (after : h.first ≤ t + 1)
    (block : Block c flags size ((List.range' (t + 1) count).map h.txn) first last)
    (grows : Grows size (h.stateAt Database.applyFile t).commit
      ((List.range' (t + 1) count).map h.txn))
    (whole : t = 0 → Grows size 0 ((List.range' (t + 1) count).map h.txn)) :
    ∃ fold, Compactor.compact c o (((List.range' (t + 1) count).map h.txn).map (LtxFile.bytes c))
        = .ok (fold.bytes c) ∧
      Carries Database.applyFile (h.stateAt Database.applyFile) (t + 1) (t + count) fold := by
  let files := (List.range' (t + 1) count).map h.txn
  have ends : h.stateAt Database.applyFile (t + count)
      = files.foldl (fun db f => db.applyFile f) (h.stateAt Database.applyFile t) :=
    h.stateAt_foldl after count
  have lastly : ∀ previous, lastCommit previous files = last.header.commit :=
    lastCommit_of_last block.isLast
  have commit : (h.stateAt Database.applyFile (t + count)).commit = last.header.commit := by
    rw [ends, commit_foldl, lastly]
  -- A page of the fold is the newest one, over what was there.
  have page : ∀ db : Database size, ∀ p, IsPage size last.header.commit p →
      (db.applyFile (foldFiles o files first last)).page p = (held files p).or (db.page p) := by
    intro db p stored
    refine (if_pos stored).trans ?_
    rw [block.lookup_fold, if_pos stored.2.1]
  have outside : ∀ db : Database size, db.commit = last.header.commit → ∀ p,
      ¬ IsPage size last.header.commit p → db.page p = none := by
    intro db same p no
    by_contra some_
    exact no (same ▸ db.within p some_)
  have carried : ∀ db : Database size,
      (∀ p, IsPage size last.header.commit p → (held files p).or (db.page p)
        = (held files p).or ((h.stateAt Database.applyFile t).page p)) →
      db.applyFile (foldFiles o files first last) = h.stateAt Database.applyFile (t + count) := by
    intro db same
    refine Database.ext commit.symm (funext fun p => ?_)
    by_cases stored : IsPage size last.header.commit p
    · rw [page db p stored, ends, page_foldl grows ((lastly _).symm ▸ stored)]
      exact same p stored
    · rw [outside _ rfl p stored, outside _ commit p stored]
  refine ⟨_, block.compact lawful mode, fun s from_ before => carried _ fun p stored => ?_,
    fun one db => carried _ fun p stored => ?_⟩
  · obtain ⟨k, rfl⟩ := Nat.exists_eq_add_of_le (Nat.succ_le_succ_iff.mp from_)
    have split : files = (List.range' (t + 1) k).map h.txn ++
        (List.range' (t + 1 + k) (count - k)).map h.txn := by
      rw [← List.map_append, List.range'_append_1, Nat.add_sub_of_le (by omega)]
    rw [h.stateAt_foldl after k, split]
    refine held_append_or (split ▸ grows) ?_
    rw [← split, lastly]
    exact stored
  · -- A full image has every page.
    have full := (whole (Nat.succ.inj one)).held_ne_none stored.1 ((lastly 0).symm ▸ stored.2.1)
      stored.2.2
    obtain ⟨_, found⟩ := ne_none_iff_exists'.mp full
    rw [found]
    rfl

theorem image_foldl (grows : Grows size 0 files) :
    (files.foldl (fun db f => db.applyFile f) (Database.blank : Database size)).image
      = imageOf size files := by
  unfold Database.image imageOf
  rw [commit_foldl]
  refine List.flatMap_congr fun p mem => ?_
  obtain ⟨above, within⟩ := mem_pageRange.mp mem
  unfold pageOf
  by_cases lock : p = lockPgno size
  · rw [if_pos lock, if_pos lock]
  · rw [if_neg lock, if_neg lock, page_foldl grows ⟨above, within, lock⟩]
    show ((held files p).or none).getD [] = _
    rw [or_none]

/-- **A restore is a replay.**  Over LTX files, the restore of an epoch chain ends in the database
whose bytes `buildDatabaseImage` writes from the objects of the plan. -/
theorem image_replay {c : Codec} (lawful : c.Lawful) {w : World (Database size) LtxFile}
    {chain : EpochChain} {plan : List FileInfo}
    (planned : calcRestorePlan chain.ltxFiles 0 = .ok plan)
    (read : plan.mapM (w.readFile chain) = .ok files) (some_ : files ≠ [])
    (sound : ∀ f ∈ files, f.Sound c) (sizes : ∀ f ∈ files, f.header.pageSize = size)
    (grows : Grows size 0 files) :
    ∃ db, w.restore (ltxContents size) chain = .ok db ∧
      buildDatabaseImage c (files.map (LtxFile.bytes c)) = .ok db.image := by
  refine ⟨_, (bind_ok planned _).trans (bind_ok read _), ?_⟩
  rw [buildDatabaseImage_of_grows lawful some_ sound sizes grows]
  exact congrArg _ (image_foldl grows).symm

end Replaying

/-- The transactions of `shrinkAndGrow`. -/
def shrinking : History (Database 512) LtxFile :=
  ⟨.blank, 1,
    fun t => shrinkAndGrow.getD (t - 1) (Database.seedContinuation t (.blank : Database 512))⟩

theorem shrinking_carried : ∃ fold,
    Carries Database.applyFile (shrinking.stateAt Database.applyFile)
    (0 + 1) (0 + 3) fold := by
  have chain : Chain .stored headerFlagNoChecksum 512
    ([] ++ ((List.range' 1 3).map shrinking.txn ++ [])) := shrinkAndGrow_chain
  exact (carries_fold Codec.stored_lawful (o := ⟨headerFlagNoChecksum, false⟩) rfl le_rfl
    (chain.block_of Codec.stored_lawful rfl rfl) chain.grows fun _ => chain.grows).imp
      fun _ => And.right

/-- `shrinkAndGrow` in one epoch. -/
def shrinkingWorld : World (Database 512) LtxFile :=
  let objects := shrinkAndGrow.map fun f =>
    ⟨⟨0, f.header.minTxid.toNat, f.header.maxTxid.toNat, 0, none⟩, f⟩
  { World.start with store := fun _ => objects, owner := 1 }

theorem shrinkingWorld_replay :
    ∃ chain db, shrinkingWorld.restore (ltxContents 512) chain = .ok db ∧
      buildDatabaseImage .stored (shrinkAndGrow.map (LtxFile.bytes .stored)) = .ok db.image := by
  have planned : calcRestorePlan (EpochChain.ltxFiles [⟨1, 1, listing (shrinkingWorld.store 1)⟩]) 0
      = .ok [⟨0, 1, 1, 0, none⟩, ⟨0, 2, 2, 0, none⟩, ⟨0, 3, 3, 0, none⟩] := by decide +kernel
  have chain := shrinkAndGrow_chain
  exact ⟨_, image_replay Codec.stored_lawful planned rfl (by decide)
    (chain.sound Codec.stored_lawful) chain.pageSize chain.grows⟩

end Celld.Replica
