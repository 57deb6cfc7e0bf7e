import Celld.Ltx.Format
import Celld.Wire.Replay

/-!
# The restore plan

`calcRestorePlan` chooses the objects that a restore reads: the newest snapshot, and then,
from all levels, whichever object reaches furthest among those that go on from what is
reached.  Each level is read once, through a cursor.

Transaction numbers are natural numbers here; the listing of a level is ascending, as the
client promises.  Where every object goes on from another one, the plan reaches the last
transaction of all (`calcRestorePlan_ok`).
-/

namespace Celld.Replica

open Wire Ltx List FileInfo

variable {c : RestoreLevelCursor} {cursors : List RestoreLevelCursor} {files : List FileInfo}
  {f : FileInfo} {i : ℕ}

def snapshotLevel : ℕ := 9

/-- Longer reach first, then more coverage, then a higher level, then an earlier upload. -/
def restoreCandidateBetter (curr next : FileInfo) : Bool :=
  if next.maxTxid ≠ curr.maxTxid then curr.maxTxid < next.maxTxid
  else if next.minTxid ≠ curr.minTxid then next.minTxid < curr.minTxid
  else if next.level ≠ curr.level then curr.level < next.level
  else match next.createdAt, curr.createdAt with
    | some n, some c => n < c
    | _, _ => false

def sliceMaxTxid (infos : List FileInfo) : ℕ := (infos.map maxTxid).foldl max 0

/-- The view of one level.  The first file of `pending` is the one read last, if it has not
been looked at yet. -/
structure RestoreLevelCursor where
  pending : List FileInfo
  candidate : Option FileInfo := none
  done : Bool := false

namespace RestoreLevelCursor

/-- Reads on while files could go on from what is reached. -/
def read (currentMax target : ℕ) : List FileInfo → Option FileInfo → RestoreLevelCursor
  | [], candidate => ⟨[], candidate, true⟩
  | info :: pending, candidate =>
      if currentMax + 1 < info.minTxid then ⟨info :: pending, candidate, false⟩
      else if info.maxTxid ≤ currentMax then read currentMax target pending candidate
      else if target ≠ 0 ∧ target < info.maxTxid then read currentMax target pending candidate
      else read currentMax target pending
        (some (candidate.elim info fun c => if restoreCandidateBetter c info then info else c))

def refresh (currentMax target : ℕ) (c : RestoreLevelCursor) : RestoreLevelCursor :=
  if c.done then c
  else read currentMax target c.pending (c.candidate.filter fun f => currentMax < f.maxTxid)

/-- The candidate is taken. -/
def take (c : RestoreLevelCursor) : RestoreLevelCursor := { c with candidate := none }

end RestoreLevelCursor

/-- The best candidate so far and the cursors from number `i` on. -/
def bestCandidate (best : Option (ℕ × FileInfo)) (i : ℕ) :
    List RestoreLevelCursor → Option (ℕ × FileInfo)
  | [] => best
  | c :: cursors =>
      match c.candidate, best with
      | none, best => bestCandidate best (i + 1) cursors
      | some candidate, none => bestCandidate (some (i, candidate)) (i + 1) cursors
      | some candidate, some (j, other) =>
          bestCandidate (some (if restoreCandidateBetter other candidate then (i, candidate)
            else (j, other))) (i + 1) cursors

/-- Every round takes a candidate, so as many rounds as there are files are enough. -/
def planLoop (target : ℕ) : ℕ → List RestoreLevelCursor → ℕ → List FileInfo →
    List RestoreLevelCursor × ℕ × List FileInfo
  | 0, cursors, currentMax, infos => (cursors, currentMax, infos)
  | fuel + 1, cursors, currentMax, infos =>
      let cursors := cursors.map (·.refresh currentMax target)
      match bestCandidate none 0 cursors with
      | none => (cursors, currentMax, infos)
      | some (i, candidate) =>
          let cursors := cursors.modify i .take
          if candidate.maxTxid ≤ currentMax then planLoop target fuel cursors currentMax infos
          else if target ≠ 0 ∧ target ≤ candidate.maxTxid then
            (cursors, candidate.maxTxid, infos ++ [candidate])
          else planLoop target fuel cursors candidate.maxTxid (infos ++ [candidate])

/-- The file that a plan up to `currentMax` does not reach. -/
def gapAfter (currentMax : ℕ) (cursors : List RestoreLevelCursor) : Option FileInfo :=
  (cursors.filterMap fun c => c.pending.head?).find? fun f => currentMax + 1 < f.minTxid

/-- The plan up to a transaction, or with 0 up to the last one. -/
def calcRestorePlan (ltxFiles : ℕ → List FileInfo) (target : ℕ) : Except Error (List FileInfo) :=
  let snapshots := (ltxFiles snapshotLevel).filter fun f => target = 0 ∨ f.maxTxid ≤ target
  let infos := snapshots.getLast?.toList
  let currentMax := sliceMaxTxid infos
  if target ≠ 0 ∧ target ≤ currentMax then .ok infos
  else
    let levels := (List.range snapshotLevel).reverse.map ltxFiles
    let fuel := (levels.map List.length).sum + 1
    let (cursors, currentMax, infos) :=
      planLoop target fuel (levels.map fun files => ⟨files, none, false⟩)
      currentMax infos
    match if infos ≠ [] ∧ target = 0 then gapAfter currentMax cursors else none with
    | some f => .error (.other (s!"non-contiguous ltx files: have up to {txidText currentMax}" ++
        s!" but next file starts at {txidText f.minTxid}"))
    | none =>
        if infos = [] then .error .txNotAvailable
        else if target ≠ 0 ∧ sliceMaxTxid infos < target then .error .txNotAvailable
        else .ok infos

/-! ## Candidates -/

section Candidates

variable {curr next : FileInfo}

theorem le_of_better (better : restoreCandidateBetter curr next = true) :
    curr.maxTxid ≤ next.maxTxid := by
  unfold restoreCandidateBetter at better
  split at better
  · exact (of_decide_eq_true better).le
  · rename_i same
    exact (not_not.mp same).ge

theorem le_of_not_better (worse : ¬ restoreCandidateBetter curr next = true) :
    next.maxTxid ≤ curr.maxTxid := by
  unfold restoreCandidateBetter at worse
  split at worse
  · exact not_lt.mp fun less => worse (decide_eq_true less)
  · rename_i same
    exact (not_not.mp same).le

/-- What `bestCandidate` finds is a candidate, and none reaches further. -/
theorem bestCandidate_some {best : Option (ℕ × FileInfo)} {j : ℕ}
    (found : bestCandidate best i cursors = some (j, f)) :
    (best = some (j, f) ∨ ∃ k c, cursors[k]? = some c ∧ j = i + k ∧ c.candidate = some f) ∧
      (∀ k g, best = some (k, g) → g.maxTxid ≤ f.maxTxid) ∧
      ∀ c ∈ cursors, ∀ g, c.candidate = some g → g.maxTxid ≤ f.maxTxid := by
  induction cursors generalizing best i with
  | nil =>
    refine ⟨.inl found, fun k g here => ?_, by rintro _ ⟨⟩⟩
    cases found.symm.trans here
    exact le_rfl
  | cons c cursors ih =>
    have later : ∀ {k : ℕ} {d : RestoreLevelCursor}, cursors[k]? = some d →
        (c :: cursors)[k + 1]? = some d := fun at_ => at_
    cases mine : c.candidate with
    | none =>
      simp only [bestCandidate, mine] at found
      obtain ⟨source, above, others⟩ := ih found
      refine ⟨?_, above, ?_⟩
      · rcases source with here | ⟨k, d, at_, eq, cand⟩
        · exact .inl here
        · exact .inr ⟨k + 1, d, later at_, by omega, cand⟩
      · intro d mem g cand
        rcases mem_cons.mp mem with rfl | mem
        · cases mine.symm.trans cand
        · exact others d mem g cand
    | some candidate =>
      -- The new best is this candidate or the old one, whichever reaches further.
      have chosen : ∃ k g, bestCandidate (some (k, g)) (i + 1) cursors = some (j, f) ∧
          ((k, g) = (i, candidate) ∨ best = some (k, g)) ∧ candidate.maxTxid ≤ g.maxTxid ∧
          ∀ k' g', best = some (k', g') → g'.maxTxid ≤ g.maxTxid := by
        cases best with
        | none =>
          simp only [bestCandidate, mine] at found
          exact ⟨i, candidate, found, .inl rfl, le_rfl, by rintro _ _ ⟨⟩⟩
        | some old =>
          simp only [bestCandidate, mine] at found
          split at found
          · rename_i better
            refine ⟨i, candidate, found, .inl rfl, le_rfl, ?_⟩
            rintro k' g' ⟨⟩
            exact le_of_better better
          · rename_i worse
            refine ⟨old.1, old.2, found, .inr rfl, le_of_not_better worse, ?_⟩
            rintro k' g' ⟨⟩
            exact le_rfl
      obtain ⟨k, g, found, source, own, old⟩ := chosen
      obtain ⟨source', above, others⟩ := ih found
      have reach := above k g rfl
      refine ⟨?_, fun k' g' here => (old k' g' here).trans reach, ?_⟩
      · rcases source' with here | ⟨m, d, at_, eq, cand⟩
        · cases here
          rcases source with here | here
          · cases here
            exact .inr ⟨0, c, rfl, rfl, mine⟩
          · exact .inl here
        · exact .inr ⟨m + 1, d, later at_, by omega, cand⟩
      · intro d mem g' cand
        rcases mem_cons.mp mem with rfl | mem
        · cases mine.symm.trans cand
          exact own.trans reach
        · exact others d mem g' cand

theorem bestCandidate_none {best : Option (ℕ × FileInfo)}
    (none_ : bestCandidate best i cursors = none) :
    best = none ∧ ∀ c ∈ cursors, c.candidate = none := by
  induction cursors generalizing best i with
  | nil => exact ⟨none_, by rintro _ ⟨⟩⟩
  | cons c cursors ih =>
    cases mine : c.candidate with
    | none =>
      simp only [bestCandidate, mine] at none_
      obtain ⟨empty, rest⟩ := ih none_
      exact ⟨empty, forall_mem_cons.mpr ⟨mine, rest⟩⟩
    | some =>
      cases best with
      | none =>
        simp only [bestCandidate, mine] at none_
        cases (ih none_).1
      | some =>
        simp only [bestCandidate, mine] at none_
        cases (ih none_).1

end Candidates

/-! ## Cursors -/

/-- The file is not past the target. -/
def Within (target : ℕ) (f : FileInfo) : Prop := target = 0 ∨ f.maxTxid ≤ target

namespace RestoreLevelCursor

variable {files pending : List FileInfo} {target reached : ℕ} {c : RestoreLevelCursor}

/-- The candidate reaches as far as the file. -/
def Outreached (candidate : Option FileInfo) (f : FileInfo) : Prop :=
  ∃ best, candidate = some best ∧ f.maxTxid ≤ best.maxTxid

/-- The file goes on from what is reached. -/
def Eligible (target reached : ℕ) (f : FileInfo) : Prop :=
  f.minTxid ≤ reached + 1 ∧ Within target f

/-- What was read of a level is reached, or the candidate reaches as far. -/
structure Ok (target : ℕ) (files : List FileInfo) (reached : ℕ) (c : RestoreLevelCursor) :
    Prop where
  split : ∃ front, files = front ++ c.pending ∧
    ∀ f ∈ front, Within target f → f.maxTxid ≤ reached ∨ Outreached c.candidate f
  candidate : ∀ f, c.candidate = some f → f ∈ files ∧ Eligible target reached f
  done : c.done = true → c.pending = []

/-- The next file of the level does not go on from what is reached. -/
def Stopped (reached : ℕ) (c : RestoreLevelCursor) : Prop :=
  ∀ f, c.pending.head? = some f → reached + 1 < f.minTxid

/-- The files that are left, the candidate among them. -/
def left (c : RestoreLevelCursor) : ℕ := c.pending.length + c.candidate.toList.length

/-- What reading on does. -/
structure Reads (target reached : ℕ) (pending : List FileInfo) (candidate : Option FileInfo)
    (c : RestoreLevelCursor) : Prop where
  split : ∃ front, pending = front ++ c.pending ∧
    (∀ f ∈ front, Within target f → f.maxTxid ≤ reached ∨ Outreached c.candidate f) ∧
    ∀ f, c.candidate = some f → candidate = some f ∨ f ∈ front ∧ Eligible target reached f
  keeps : ∀ f, Outreached candidate f → Outreached c.candidate f
  stopped : Stopped reached c
  done : c.done = true → c.pending = []
  left : c.left ≤ pending.length + candidate.toList.length

/-- A file is passed over, or taken as the candidate in place of one that reaches less. -/
theorem Reads.cons {info : FileInfo} {candidate other : Option FileInfo}
    (reads : Reads target reached pending other c)
    (passed : Within target info → info.maxTxid ≤ reached ∨ Outreached other info)
    (keeps : ∀ f, Outreached candidate f → Outreached other f)
    (source : other = candidate ∨ other = some info ∧ Eligible target reached info) :
    Reads target reached (info :: pending) candidate c := by
  obtain ⟨front, eq, behind, origin⟩ := reads.split
  refine ⟨⟨info :: front, by rw [eq, cons_append], ?_, ?_⟩,
    fun f out => reads.keeps f (keeps f out), reads.stopped, reads.done, ?_⟩
  · exact forall_mem_cons.mpr
      ⟨fun within => (passed within).imp_right (reads.keeps info), behind⟩
  · intro f cand
    rcases origin f cand with here | ⟨mem, eligible⟩
    · rcases source with rfl | ⟨rfl, eligible⟩
      · exact .inl here
      · cases here
        exact .inr ⟨mem_cons_self, eligible⟩
    · exact .inr ⟨mem_cons_of_mem _ mem, eligible⟩
  · refine reads.left.trans ?_
    rcases source with rfl | ⟨rfl, _⟩
    · simp
    · cases candidate <;> simp

theorem outreached_better {best info : FileInfo} :
    Outreached (some (if restoreCandidateBetter best info then info else best)) info ∧
      ∀ f, Outreached (some best) f →
        Outreached (some (if restoreCandidateBetter best info then info else best)) f := by
  by_cases better : restoreCandidateBetter best info = true
  · rw [if_pos better]
    refine ⟨⟨info, rfl, le_rfl⟩, ?_⟩
    rintro f ⟨_, ⟨⟩, less⟩
    exact ⟨info, rfl, less.trans (le_of_better better)⟩
  · rw [if_neg better]
    exact ⟨⟨best, rfl, le_of_not_better better⟩, fun f out => out⟩

theorem reads_read (target reached : ℕ) (pending : List FileInfo) (candidate : Option FileInfo) :
    Reads target reached pending candidate (read reached target pending candidate) := by
  induction pending generalizing candidate with
  | nil =>
    refine ⟨⟨[], rfl, by rintro _ ⟨⟩, fun f here => .inl here⟩, fun f out => out, ?_,
      fun _ => rfl, le_rfl⟩
    rintro f ⟨⟩
  | cons info pending ih =>
    by_cases far : reached + 1 < info.minTxid
    · rw [read, if_pos far]
      refine ⟨⟨[], rfl, by rintro _ ⟨⟩, fun f here => .inl here⟩, fun f out => out, ?_,
        by rintro ⟨⟩, le_rfl⟩
      rintro f ⟨⟩
      exact far
    · rw [read, if_neg far]
      by_cases old : info.maxTxid ≤ reached
      · rw [if_pos old]
        exact (ih candidate).cons (fun _ => .inl old) (fun f out => out) (.inl rfl)
      · rw [if_neg old]
        by_cases past : target ≠ 0 ∧ target < info.maxTxid
        · rw [if_pos past]
          refine (ih candidate).cons (fun within => ?_) (fun f out => out) (.inl rfl)
          rcases within with zero | upTo
          · exact absurd zero past.1
          · exact absurd past.2 (not_lt.mpr upTo)
        · rw [if_neg past]
          have within : Within target info := by
            by_contra outside
            obtain ⟨some_, less⟩ := not_or.mp outside
            exact past ⟨some_, not_le.mp less⟩
          have eligible : Eligible target reached info := ⟨not_lt.mp far, within⟩
          cases candidate with
          | none =>
            refine (ih (some info)).cons (fun _ => .inr ⟨info, rfl, le_rfl⟩) ?_
              (.inr ⟨rfl, eligible⟩)
            rintro f ⟨_, ⟨⟩, _⟩
          | some best =>
            refine (ih _).cons (fun _ => .inr outreached_better.1) outreached_better.2 ?_
            by_cases better : restoreCandidateBetter best info = true
            · exact .inr ⟨congrArg some (if_pos better), eligible⟩
            · exact .inl (congrArg some (if_neg better))

/-- A cursor is refreshed. -/
theorem Ok.refresh (ok : Ok target files reached c) :
    Ok target files reached (c.refresh reached target) ∧
    Stopped reached (c.refresh reached target) ∧ (c.refresh reached target).left ≤ c.left := by
  by_cases finished : c.done = true
  · rw [RestoreLevelCursor.refresh, if_pos finished]
    refine ⟨ok, fun f head => ?_, le_rfl⟩
    rw [ok.done finished] at head
    cases head
  · rw [RestoreLevelCursor.refresh, if_neg finished]
    have reads :=
      reads_read target reached c.pending (c.candidate.filter fun f => reached < f.maxTxid)
    obtain ⟨front, eq, behind⟩ := ok.split
    obtain ⟨more, eq', behind', origin⟩ := reads.split
    -- A candidate that is dropped is reached, and so is what it reaches as far as.
    have kept : ∀ f, Outreached c.candidate f → f.maxTxid ≤ reached ∨
        Outreached (c.candidate.filter fun f => reached < f.maxTxid) f := by
      rintro f ⟨best, here, less⟩
      by_cases stale : reached < best.maxTxid
      · exact .inr ⟨best, by rw [here, Option.filter_some_pos (by simpa using stale)], less⟩
      · exact .inl (less.trans (not_lt.mp stale))
    refine ⟨⟨⟨front ++ more, ?_, ?_⟩, ?_, reads.done⟩, reads.stopped, reads.left.trans ?_⟩
    · rw [append_assoc, ← eq']
      exact eq
    · intro f mem within
      rcases mem_append.mp mem with mem | mem
      · rcases behind f mem within with old | out
        · exact .inl old
        · exact (kept f out).imp_right (reads.keeps f)
      · exact behind' f mem within
    · intro f cand
      rcases origin f cand with here | ⟨mem, eligible⟩
      · exact ok.candidate f (Option.filter_eq_some_iff.mp here).1
      · refine ⟨?_, eligible⟩
        rw [eq]
        exact mem_append_right _ (eq' ▸ mem_append_left _ mem)
    · refine Nat.add_le_add_left ?_ _
      cases c.candidate with
      | none => exact le_rfl
      | some f => by_cases stale : reached < f.maxTxid <;> simp [Option.filter, stale]

/-- What is reached grows. -/
theorem Ok.mono {more : ℕ} (ok : Ok target files reached c) (le : reached ≤ more) :
    Ok target files more c := by
  obtain ⟨front, eq, behind⟩ := ok.split
  refine ⟨⟨front, eq, fun f mem within => (behind f mem within).imp_left (·.trans le)⟩,
    fun f cand => ?_, ok.done⟩
  obtain ⟨mem, near, within⟩ := ok.candidate f cand
  exact ⟨mem, near.trans (Nat.succ_le_succ le), within⟩

/-- The candidate is taken once it is reached. -/
theorem Ok.take (ok : Ok target files reached c)
    (taken : ∀ f, c.candidate = some f → f.maxTxid ≤ reached) : Ok target files reached c.take := by
  obtain ⟨front, eq, behind⟩ := ok.split
  refine ⟨⟨front, eq, fun f mem within => .inl ?_⟩, by rintro f ⟨⟩, ok.done⟩
  rcases behind f mem within with old | ⟨best, here, less⟩
  · exact old
  · exact less.trans (taken best here)

end RestoreLevelCursor

/-! ## The loop -/

section Loop

open RestoreLevelCursor

variable {levels : List (List FileInfo)} {cursors : List RestoreLevelCursor} {target reached : ℕ}

/-- The level is read as far as it goes. -/
structure Finished (target reached : ℕ) (files : List FileInfo) (c : RestoreLevelCursor) :
    Prop where
  split : ∃ front, files = front ++ c.pending ∧ ∀ f ∈ front, Within target f → f.maxTxid ≤ reached
  stopped : Stopped reached c

def leftAll (cursors : List RestoreLevelCursor) : ℕ := (cursors.map left).sum

theorem left_take (cand : c.candidate = some f) :
    c.take.left + 1 = c.left := by
  simp [left, RestoreLevelCursor.take, cand]

theorem leftAll_modify (at_ : cursors[i]? = some c)
    (cand : c.candidate = some f) : leftAll (cursors.modify i take) + 1 = leftAll cursors := by
  induction cursors generalizing i with
  | nil => cases at_
  | cons d cursors ih =>
    cases i with
    | zero =>
      cases at_
      have one := left_take cand
      show c.take.left + leftAll cursors + 1 = c.left + leftAll cursors
      omega
    | succ i =>
      have rest := ih at_
      show d.left + leftAll (cursors.modify i take) + 1 = d.left + leftAll cursors
      omega

theorem refresh_all (ok : List.Forall₂ (fun files c => Ok target files reached c) levels cursors) :
    List.Forall₂ (fun files c => Ok target files reached c ∧ Stopped reached c) levels
        (cursors.map (·.refresh reached target)) ∧
      leftAll (cursors.map (·.refresh reached target)) ≤ leftAll cursors := by
  induction ok with
  | nil => exact ⟨.nil, le_rfl⟩
  | cons here _ ih =>
    obtain ⟨ok, stopped, less⟩ := here.refresh
    exact ⟨.cons ⟨ok, stopped⟩ ih.1, Nat.add_le_add less ih.2⟩

/-- One candidate is taken; the others stay. -/
theorem take_all {more : ℕ}
    (ok : List.Forall₂ (fun files c => Ok target files reached c) levels cursors)
    (at_ : cursors[i]? = some c) (cand : c.candidate = some f) (le : reached ≤ more)
    (taken : f.maxTxid ≤ more) :
    List.Forall₂ (fun files c => Ok target files more c) levels (cursors.modify i take) := by
  induction ok generalizing i with
  | nil => cases at_
  | cons here rest ih =>
    cases i with
    | zero =>
      cases at_
      refine .cons ((here.mono le).take fun g eq => ?_) (rest.imp fun _ _ ok => ok.mono le)
      cases cand.symm.trans eq
      exact taken
    | succ => exact .cons (here.mono le) (ih at_)

theorem mem_of_forall₂ {R : List FileInfo → RestoreLevelCursor → Prop}
    (all : List.Forall₂ R levels cursors)
    (at_ : cursors[i]? = some c) : ∃ files ∈ levels, R files c := by
  induction all generalizing i with
  | nil => cases at_
  | cons here _ ih =>
    cases i with
    | zero =>
      cases at_
      exact ⟨_, mem_cons_self, here⟩
    | succ =>
      obtain ⟨files, mem, holds⟩ := ih at_
      exact ⟨files, mem_cons_of_mem _ mem, holds⟩

theorem exists_of_forall₂ {R : List FileInfo → RestoreLevelCursor → Prop}
    (all : List.Forall₂ R levels cursors) (mem : files ∈ levels) : ∃ c, R files c := by
  induction all with
  | nil => cases mem
  | cons here _ ih =>
    rcases mem_cons.mp mem with rfl | later
    · exact ⟨_, here⟩
    · exact ih later

/-- Without candidates everything that was read is reached. -/
theorem finished_of_none
    (ready : List.Forall₂ (fun files c => Ok target files reached c ∧
      Stopped reached c) levels cursors)
    (none_ : ∀ c ∈ cursors, c.candidate = none) :
    List.Forall₂ (Finished target reached) levels cursors := by
  induction ready with
  | nil => exact .nil
  | cons here _ ih =>
    obtain ⟨mine, others⟩ := forall_mem_cons.mp none_
    refine .cons ?_ (ih others)
    obtain ⟨front, eq, behind⟩ := here.1.split
    refine ⟨⟨front, eq, fun f mem within => ?_⟩, here.2⟩
    rcases behind f mem within with old | ⟨_, cand, _⟩
    · exact old
    · cases mine.symm.trans cand

/-- **The loop takes candidates until the target is reached or none is left.** -/
theorem planLoop_spec {fuel : ℕ} (infos : List FileInfo)
    (ok : List.Forall₂ (fun files c => Ok target files reached c) levels cursors)
    (enough : leftAll cursors < fuel) :
    ∃ cursors' last more,
      planLoop target fuel cursors reached infos = (cursors', last, infos ++ more) ∧
      Extends minTxid maxTxid reached more last ∧
      (∀ f ∈ more, Within target f ∧ ∃ files ∈ levels, f ∈ files) ∧
      (target ≠ 0 ∧ target ≤ last ∨ List.Forall₂ (Finished target last) levels cursors') := by
  induction fuel generalizing cursors reached infos with
  | zero => cases enough
  | succ fuel ih =>
    obtain ⟨ready, less⟩ := refresh_all ok
    generalize refreshed : cursors.map (·.refresh reached target) = cursors' at ready less
    cases found : bestCandidate none 0 cursors' with
    | none =>
      refine ⟨cursors', reached, [], ?_, rfl, by rintro _ ⟨⟩, .inr ?_⟩
      · simp only [planLoop, refreshed, found, append_nil]
      · exact finished_of_none ready (bestCandidate_none found).2
    | some best =>
      obtain ⟨i, f⟩ := best
      obtain ⟨source, _⟩ := bestCandidate_some found
      obtain ⟨_, c, at_, eq, cand⟩ := source.resolve_left (by rintro ⟨⟩)
      rw [Nat.zero_add] at eq
      subst eq
      have oks := ready.imp fun _ _ both => both.1
      have fewer := leftAll_modify at_ cand
      by_cases stale : f.maxTxid ≤ reached
      · have next := take_all oks at_ cand le_rfl stale
        obtain ⟨cursors'', last, more, run, rest⟩ := ih infos next (by omega)
        refine ⟨cursors'', last, more, ?_, rest⟩
        simp only [planLoop, refreshed, found, if_pos stale, run]
      · obtain ⟨files, mem, okC⟩ := mem_of_forall₂ oks at_
        obtain ⟨inside, near, within⟩ := okC.candidate f cand
        by_cases there : target ≠ 0 ∧ target ≤ f.maxTxid
        · refine ⟨cursors'.modify i take, f.maxTxid, [f], ?_, ⟨near, not_le.mp stale, rfl⟩,
            forall_mem_singleton.mpr ⟨within, files, mem, inside⟩, .inl there⟩
          simp only [planLoop, refreshed, found, if_neg stale, if_pos there]
        · have next := take_all oks at_ cand (not_le.mp stale).le le_rfl
          obtain ⟨cursors'', last, more, run, reach, members, finished⟩ :=
            ih (infos ++ [f]) next (by omega)
          refine ⟨cursors'', last, f :: more, ?_, ⟨near, not_le.mp stale, reach⟩,
            forall_mem_cons.mpr ⟨⟨within, files, mem, inside⟩, members⟩, finished⟩
          simp only [planLoop, refreshed, found, if_neg stale, if_neg there, run]
          rw [append_assoc, singleton_append]

end Loop

/-! ## The plan -/

/-- The files of all levels. -/
def allFiles (ltxFiles : ℕ → List FileInfo) : List FileInfo :=
  (List.range (snapshotLevel + 1)).flatMap ltxFiles

/-- Listings in the order of the client, with whole snapshots. -/
structure Ascending (ltxFiles : ℕ → List FileInfo) : Prop where
  ascending : ∀ level < snapshotLevel, (ltxFiles level).Pairwise fun f g => f.minTxid ≤ g.minTxid
  snapshots : (ltxFiles snapshotLevel).Pairwise fun f g => f.maxTxid ≤ g.maxTxid
  whole : ∀ f ∈ ltxFiles snapshotLevel, f.minTxid = 1
  valid : ∀ f ∈ allFiles ltxFiles, 0 < f.minTxid ∧ f.minTxid ≤ f.maxTxid

/-- Listings that a plan can be made from: ascending, with whole snapshots, and every object
goes on from the first transaction, from an object that ends earlier, or from a full image. -/
structure Grounded (ltxFiles : ℕ → List FileInfo) : Prop extends Ascending ltxFiles where
  grounded : ∀ f ∈ allFiles ltxFiles, f.minTxid = 1 ∨ ∃ g ∈ allFiles ltxFiles,
    f.minTxid ≤ g.maxTxid + 1 ∧ (g.maxTxid < f.maxTxid ∨ g.minTxid = 1)

section Planning

open RestoreLevelCursor

variable {ltxFiles : ℕ → List FileInfo} {target reached : ℕ} {f : FileInfo}

theorem mem_allFiles : f ∈ allFiles ltxFiles ↔
    f ∈ ltxFiles snapshotLevel ∨ ∃ level < snapshotLevel, f ∈ ltxFiles level := by
  rw [allFiles, range_succ, flatMap_append, mem_append, flatMap_singleton,
    mem_flatMap, or_comm]
  refine or_congr_right (exists_congr fun level => ?_)
  rw [mem_range]

/-- Nothing is left that a finished plan could go on with, so nothing is behind it at all:
an object there would be grounded on another. -/
theorem Grounded.all_le (listing : Grounded ltxFiles)
    (done : ∀ f ∈ allFiles ltxFiles, f.maxTxid ≤ reached ∨ reached + 1 < f.minTxid) :
    ∀ f ∈ allFiles ltxFiles, f.maxTxid ≤ reached := by
  intro f mem
  induction last : f.maxTxid using Nat.strong_induction_on generalizing f with
  | _ last_ ih =>
    subst last
    rcases done f mem with here | _
    · exact here
    · rcases listing.grounded f mem with _ | ⟨g, inside, _, earlier | _⟩
      · omega
      · have before := ih g.maxTxid earlier g inside rfl
        omega
      · have before := done g inside
        omega

/-- A level has a gap unless it is read to its end. -/
theorem gapAfter_eq_none {levels : List (List FileInfo)}
    (finished : List.Forall₂ (Finished 0 reached) levels cursors)
    (valid : ∀ files ∈ levels, ∀ f ∈ files, f.minTxid ≤ f.maxTxid) :
    gapAfter reached cursors = none ↔ ∀ files ∈ levels, ∀ f ∈ files, f.minTxid ≤ reached + 1 := by
  induction finished with
  | nil => exact iff_of_true rfl (by rintro _ ⟨⟩)
  | @cons files c levels cursors here rest ih =>
    obtain ⟨own, others⟩ := forall_mem_cons.mp valid
    rw [forall_mem_cons, ← ih others]
    obtain ⟨_, eq, behind⟩ := here.split
    cases pending : c.pending with
    | nil =>
      have level : ∀ f ∈ files, f.minTxid ≤ reached + 1 := by
        intro f mem
        have upTo := own f mem
        rw [eq, pending, append_nil] at mem
        have before := behind f mem (.inl rfl)
        omega
      rw [gapAfter, filterMap_cons_none (by rw [pending]; rfl)]
      exact (and_iff_right level).symm
    | cons next =>
      have far : reached + 1 < next.minTxid := here.stopped next (by rw [pending]; rfl)
      rw [gapAfter, filterMap_cons_some (by rw [pending]; rfl),
        find?_cons_of_pos (by simpa using far)]
      refine iff_of_false (by rintro ⟨⟩) fun both => ?_
      have listed : next ∈ files := by
        rw [eq, pending]
        exact mem_append_right _ mem_cons_self
      exact absurd (both.1 next listed) (not_le.mpr far)

/-- What a finished level still has is too far. -/
theorem Finished.cases (finished : Finished target reached files c)
    (ascending : files.Pairwise fun f g => f.minTxid ≤ g.minTxid) (mem : f ∈ files)
    (within : Within target f) : f.maxTxid ≤ reached ∨ reached + 1 < f.minTxid := by
  obtain ⟨_, eq, behind⟩ := finished.split
  rw [eq] at mem ascending
  rcases mem_append.mp mem with old | new
  · exact .inl (behind f old within)
  · right
    cases pending : c.pending with
    | nil =>
      rw [pending] at new
      cases new
    | cons head =>
      have far := finished.stopped head (by rw [pending]; rfl)
      rw [pending] at new ascending
      rcases mem_cons.mp new with rfl | later
      · exact far
      · have order := (pairwise_cons.mp (pairwise_append.mp ascending).2.1).1 f later
        omega

theorem foldl_max_of_extends {plan : List FileInfo} {last : ℕ}
    (reach : Extends minTxid maxTxid reached plan last) :
    (plan.map maxTxid).foldl max reached = last := by
  induction plan generalizing reached with
  | nil => exact reach
  | cons f plan ih =>
    rw [map_cons, foldl_cons, max_eq_right reach.2.1.le]
    exact ih reach.2.2

/-- The last snapshot is the newest one. -/
theorem le_newest (ascending : files.Pairwise fun f g => f.maxTxid ≤ g.maxTxid)
    (mem : f ∈ files) : f.maxTxid ≤ files.getLast?.elim 0 maxTxid := by
  cases last : files.getLast? with
  | none =>
    rw [getLast?_eq_none_iff.mp last] at mem
    cases mem
  | some newest =>
    obtain ⟨_, eq⟩ := getLast?_eq_some_iff.mp last
    rw [eq] at mem ascending
    rcases mem_append.mp mem with older | here
    · exact (pairwise_append.mp ascending).2.2 f older newest mem_cons_self
    · rw [mem_singleton.mp here]
      exact le_rfl

/-- The plan starts with the newest snapshot up to the target. -/
theorem Ascending.snapshot (listing : Ascending ltxFiles) (target : ℕ) :
    ∃ newest : Option FileInfo, ∃ start,
      ((ltxFiles snapshotLevel).filter fun f => target = 0 ∨ f.maxTxid ≤ target).getLast? = newest ∧
      Extends minTxid maxTxid 0 newest.toList start ∧
      (∀ f ∈ newest.toList, f ∈ ltxFiles snapshotLevel ∧ Within target f) ∧
      ∀ f ∈ ltxFiles snapshotLevel, Within target f → f.maxTxid ≤ start := by
  let files := (ltxFiles snapshotLevel).filter fun f => target = 0 ∨ f.maxTxid ≤ target
  have mem_files : ∀ {f}, f ∈ files ↔ f ∈ ltxFiles snapshotLevel ∧ Within target f := by
    intro f
    simp only [files, mem_filter, decide_eq_true_eq, Within]
  refine ⟨files.getLast?, files.getLast?.elim 0 maxTxid, rfl, ?_, ?_, ?_⟩
  · cases last : files.getLast? with
    | none => exact rfl
    | some f =>
      have mem := (mem_files.mp (mem_of_getLast? last)).1
      have one := listing.whole f mem
      have up := (listing.valid f (mem_allFiles.mpr (.inl mem))).2
      exact ⟨by omega, by omega, rfl⟩
  · exact fun f mem => mem_files.mp (mem_of_getLast? (Option.mem_toList.mp mem))
  · exact fun f mem within => le_newest (listing.snapshots.filter _) (mem_files.mpr ⟨mem, within⟩)

/-- **What the plan is, and when it is one.**  It goes on until nothing up to the target
goes on from it; it is refused if it is empty or short of its target and, without a target,
if a level has objects beyond it. -/
theorem Ascending.plan (listing : Ascending ltxFiles) (target : ℕ) :
    ∃ plan last, Extends minTxid maxTxid 0 plan last ∧
      (∀ f ∈ plan, f ∈ allFiles ltxFiles ∧ Within target f) ∧
      (target ≠ 0 ∧ target ≤ last ∨ ∀ f ∈ allFiles ltxFiles, Within target f →
        f.maxTxid ≤ last ∨ last + 1 < f.minTxid) ∧
      ∀ result, calcRestorePlan ltxFiles target = .ok result ↔
        result = plan ∧ plan ≠ [] ∧ target ≤ last ∧
          (target = 0 → ∀ level < snapshotLevel, ∀ f ∈ ltxFiles level, f.minTxid ≤ last + 1) := by
  obtain ⟨newest, start, chosen, front, snapshot, above⟩ := listing.snapshot target
  have first : sliceMaxTxid newest.toList = start := foldl_max_of_extends front
  have whole : ∀ f ∈ newest.toList, f ∈ allFiles ltxFiles ∧ Within target f := fun f mem =>
    ⟨mem_allFiles.mpr (.inl (snapshot f mem).1), (snapshot f mem).2⟩
  by_cases there : target ≠ 0 ∧ target ≤ start
  · refine ⟨newest.toList, start, front, whole, .inl there, fun result => ?_⟩
    have nonempty : newest.toList ≠ [] := by
      intro none_
      rw [none_] at front
      have zero : 0 = start := front
      omega
    simp only [calcRestorePlan, chosen, first, if_pos there, Except.ok.injEq]
    exact ⟨fun same => ⟨same.symm, nonempty, there.2, fun zero => absurd zero there.1⟩,
      fun all => all.1.symm⟩
  · let levels := (List.range snapshotLevel).reverse.map ltxFiles
    have mem_levels : ∀ {P : List FileInfo → Prop}, (∀ files ∈ levels, P files) ↔
        ∀ level < snapshotLevel, P (ltxFiles level) := by
      intro P
      simp only [levels, forall_mem_map, mem_reverse, mem_range]
    have ok : List.Forall₂ (fun files c => Ok target files start c) levels
        (levels.map fun files => ⟨files, none, false⟩) := by
      refine forall₂_map_right_iff.mpr (forall₂_same.mpr fun files _ => ?_)
      exact ⟨⟨[], rfl, by rintro _ ⟨⟩⟩, by rintro _ ⟨⟩, by rintro ⟨⟩⟩
    have enough : leftAll (levels.map fun files => ⟨files, none, false⟩)
        < (levels.map List.length).sum + 1 := by
      rw [leftAll, map_map]
      exact lt_add_one _
    obtain ⟨cursors, last, more, run, reach, members, ended⟩ :=
      planLoop_spec newest.toList ok enough
    have inside : ∀ files ∈ levels, ∀ f ∈ files, f ∈ allFiles ltxFiles :=
      mem_levels.mpr fun level low f here => mem_allFiles.mpr (.inr ⟨level, low, here⟩)
    have total := front.append reach
    refine ⟨newest.toList ++ more, last, total, ?_, ?_, fun result => ?_⟩
    · intro f mem
      rcases mem_append.mp mem with snapshot_ | later
      · exact whole f snapshot_
      · obtain ⟨within, files, mem, here⟩ := members f later
        exact ⟨inside files mem f here, within⟩
    · refine ended.imp_right fun finished f mem within => ?_
      rcases mem_allFiles.mp mem with snapshot_ | ⟨level, low, here⟩
      · exact .inl ((above f snapshot_ within).trans reach.le)
      · have listed : ltxFiles level ∈ levels :=
          mem_map.mpr ⟨level, mem_reverse.mpr (mem_range.mpr low), rfl⟩
        obtain ⟨c, done⟩ := exists_of_forall₂ finished listed
        exact done.cases (listing.ascending level low) here within
    · have gap : target = 0 → (gapAfter last cursors = none ↔
          ∀ level < snapshotLevel, ∀ f ∈ ltxFiles level, f.minTxid ≤ last + 1) := by
        rintro rfl
        have finished := ended.resolve_left fun targeted => targeted.1 rfl
        rw [gapAfter_eq_none finished
          fun files mem f here => (listing.valid f (inside files mem f here)).2]
        exact mem_levels
      have slice : sliceMaxTxid (newest.toList ++ more) = last := foldl_max_of_extends total
      simp only [calcRestorePlan, chosen, first, if_neg there]
      rw [run]
      dsimp only
      rw [slice]
      generalize newest.toList ++ more = plan at total
      by_cases none_ : plan = []
      · rw [if_neg fun both => both.1 none_, if_pos none_]
        exact iff_of_false (by rintro ⟨⟩) fun all => all.2.1 none_
      · by_cases zero : target = 0
        · rw [if_pos ⟨none_, zero⟩]
          cases gap_ : gapAfter last cursors with
          | some =>
            refine iff_of_false (by rintro ⟨⟩) fun all => ?_
            cases gap_.symm.trans ((gap zero).mpr (all.2.2.2 zero))
          | none =>
            simp only [if_neg none_, if_neg fun short : target ≠ 0 ∧ last < target => short.1 zero]
            have closed := (gap zero).mp gap_
            refine ⟨?_, fun all => congrArg _ all.1.symm⟩
            rintro ⟨⟩
            exact ⟨rfl, none_, by omega, fun _ => closed⟩
        · rw [if_neg fun both => zero both.2]
          simp only [if_neg none_]
          by_cases short : last < target
          · rw [if_pos ⟨zero, short⟩]
            exact iff_of_false (by rintro ⟨⟩) fun all => absurd all.2.2.1 (not_le.mpr short)
          · rw [if_neg fun both => short both.2]
            refine ⟨?_, fun all => congrArg _ all.1.symm⟩
            rintro ⟨⟩
            exact ⟨rfl, none_, not_lt.mp short, fun zero_ => absurd zero_ zero⟩

/-- **The plan reaches the last transaction.** -/
theorem calcRestorePlan_ok (listing : Grounded ltxFiles) (some_ : allFiles ltxFiles ≠ []) :
    ∃ plan last, calcRestorePlan ltxFiles 0 = .ok plan ∧ plan ≠ [] ∧
      Extends minTxid maxTxid 0 plan last ∧
      (∀ f ∈ plan, f ∈ allFiles ltxFiles) ∧ ∀ f ∈ allFiles ltxFiles, f.maxTxid ≤ last := by
  obtain ⟨plan, last, reach, members, ended, ok_iff⟩ := listing.plan 0
  have all := listing.all_le fun f mem =>
    ended.resolve_left (fun targeted => targeted.1 rfl) f mem (.inl rfl)
  have nonempty : plan ≠ [] := by
    rintro rfl
    obtain ⟨f, mem⟩ := exists_mem_of_ne_nil _ some_
    have bounds := listing.valid f mem
    have upTo := all f mem
    have zero : 0 = last := reach
    omega
  refine ⟨plan, last, (ok_iff plan).mpr ⟨rfl, nonempty, Nat.zero_le _, ?_⟩, nonempty, reach,
    fun f mem => (members f mem).1, all⟩
  intro _ level low f mem
  have listed := mem_allFiles.mpr (.inr ⟨level, low, mem⟩)
  have upTo := all f listed
  have up := (listing.valid f listed).2
  omega

end Planning

end Celld.Replica
