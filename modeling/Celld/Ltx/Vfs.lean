import Celld.Lib.Trail
import Celld.Ltx.Paged
import Celld.Wire.File

/-!
# The fault-in VFS

The main database of a paged activation is a local file that starts sparse, of the size
of the pinned cut.  A read fetches the pages that the file does not hold yet, with the
pages stored next to them, and a set of page numbers says what the file holds
(`hydrated`).

`VfsState` is the file with its set and the calls in flight, beside the plain file that the
VFS stands for.  A step is what happens under the VFS's lock, or one call of the VFS
below: the check of the set, the fetch, the write-back of a run, the read of the local
file; a truncation first drops marks and then truncates, and an open first asks for the size
and then sizes an empty file.  So anything may happen between a fetch and its write-back.  A
step of the background hydration is a read of its own connection.

The VFS is a plain file as long as no run brings back a page that was written or truncated,
no write covers only a part of a page that is still to be fetched and no open resizes the file
(`VfsState.Reachable.plain_file`).  It is none beyond that: see `VfsState.no_plain_file`.  The
page map of a restored plan is a store to fetch from (`VfsState.paged_reads`).
-/

namespace Celld.Ltx

open Wire List

/-- The pinned cut. -/
structure Cut where
  pageSize : UInt32
  commit : UInt32
  image : Bytes
  valid : isValidPageSize pageSize = true
  length : image.length = commit.toNat * pageSize.toNat
  /-- The page of the lock bytes is zero. -/
  lock : ∀ i, i / pageSize.toNat + 1 = (lockPgno pageSize).toNat → image.getD i 0 = 0

namespace Cut

variable (cut : Cut)

/-- The bytes of a page. -/
abbrev size : ℕ := cut.pageSize.toNat

/-- The page is stored in the cut. -/
def Has (pgno : UInt32) : Prop := 0 < pgno ∧ pgno ≤ cut.commit ∧ pgno ≠ lockPgno cut.pageSize

instance (pgno : UInt32) : Decidable (cut.Has pgno) := inferInstanceAs (Decidable (_ ∧ _ ∧ _))

def page (pgno : UInt32) : Bytes := imagePageAt cut.image cut.pageSize pgno

/-- What a fetch of a page may bring: the page and other pages of the cut, or nothing for
a page that the cut does not have. -/
structure Answers (pgno : UInt32) (run : List Page) : Prop where
  pages : ∀ page ∈ run, cut.Has page.1 ∧ page.2 = cut.page page.1
  first : cut.Has pgno → pgno ∈ run.map Prod.fst
  empty : ¬ cut.Has pgno → run = []

/-- The page numbers that bytes of the file fall on. -/
def pagesOf (start amount : ℕ) : List UInt32 :=
  PageMap.runNumbers (UInt32.ofNat (start / cut.size) + 1)
    (UInt32.ofNat ((start + amount - 1) / cut.size) + 1)

end Cut

/-- A call in flight. -/
inductive Call where
  | idle
  /-- The pages from here on are still to be looked at. -/
  | reading (start amount : ℕ) (pending : List UInt32)
  | fetching (start amount : ℕ) (pgno : UInt32) (pending : List UInt32)
  | fetched (start amount : ℕ) (pgno : UInt32) (pending : List UInt32)
      (result : Except Error (List Page))
  /-- Marks are dropped, and the file still has to be truncated. -/
  | truncating (size : ℕ)
  /-- An open found the file empty, and still has to size it. -/
  | sizing
  deriving DecidableEq

structure VfsState where
  file : File
  hydrated : UInt32 → Bool := fun _ => false
  calls : ℕ → Call := fun _ => .idle
  /-- The file that the VFS stands for. -/
  plain : File
  /-- The lowest size that the file was truncated to. -/
  floor : ℕ
  /-- The pages that a write has touched. -/
  written : UInt32 → Bool := fun _ => false

/-- A call, or a step of one, by the number of its connection. -/
inductive VfsAction where
  | read (call start amount : ℕ)
  | check (call : ℕ)
  | fetch (call : ℕ) (result : Except Error (List Page))
  | writeBack (call : ℕ)
  | finish (call : ℕ)
  | write (call start : ℕ) (data : Bytes)
  | dropMarks (call size : ℕ)
  | truncate (call : ℕ)
  | openFile (call : ℕ)
  | sizeFile (call : ℕ)

/-- What a read answers. -/
inductive VfsAnswer where
  | bytes (data : Bytes)
  | ioerrRead
  deriving DecidableEq

namespace VfsState

variable (cut : Cut)

def setCall (w : VfsState) (call : ℕ) (next : Call) : VfsState :=
  { w with calls := Function.update w.calls call next }

def mark (w : VfsState) (pgno : UInt32) : VfsState :=
  { w with hydrated := fun other => if other = pgno then true else w.hydrated other }

/-- Pages behind the new end of the file are forgotten. -/
def retain (w : VfsState) (keep : UInt32) : VfsState :=
  { w with hydrated := fun pgno => w.hydrated pgno && pgno ≤ keep }

/-- A run goes into the file, except for pages that it holds already. -/
def fill (w : VfsState) (pgno : UInt32) (run : List Page) : VfsState :=
  run.foldl (fun w page =>
    if page.1 ≠ pgno ∧ w.hydrated page.1 then w
    else { w with file := w.file.write ((page.1.toNat - 1) * cut.size) page.2 }.mark page.1) w

/-- The fetched run under the lock. -/
def writeBack (w : VfsState) (call start amount : ℕ) (pgno : UInt32) (pending : List UInt32) :
    Except Error (List Page) → VfsState × Option VfsAnswer
  | .error _ =>
      if w.hydrated pgno then (w.setCall call (.reading start amount pending), none)
      else (w.setCall call .idle, some .ioerrRead)
  | .ok run =>
      if w.hydrated pgno then (w.setCall call (.reading start amount pending), none)
      else if run = [] then
        if pgno ≤ cut.commit ∧ pgno ≠ lockPgno cut.pageSize then
          (w.setCall call .idle, some .ioerrRead)
        else ((w.mark pgno).setCall call (.reading start amount pending), none)
      else ((w.fill cut pgno run).setCall call (.reading start amount pending), none)

def step (w : VfsState) : VfsAction → VfsState × Option VfsAnswer
  | .read call start amount =>
      match w.calls call with
      | .idle => (w.setCall call (.reading start amount (cut.pagesOf start amount)), none)
      | _ => (w, none)
  | .check call =>
      match w.calls call with
      | .reading start amount (pgno :: pending) =>
          if w.hydrated pgno then (w.setCall call (.reading start amount pending), none)
          else (w.setCall call (.fetching start amount pgno pending), none)
      | _ => (w, none)
  | .fetch call result =>
      match w.calls call with
      | .fetching start amount pgno pending =>
          (w.setCall call (.fetched start amount pgno pending result), none)
      | _ => (w, none)
  | .writeBack call =>
      match w.calls call with
      | .fetched start amount pgno pending result =>
          w.writeBack cut call start amount pgno pending result
      | _ => (w, none)
  | .finish call =>
      match w.calls call with
      | .reading start amount [] => (w.setCall call .idle, some (.bytes (w.file.read start amount)))
      | _ => (w, none)
  | .write call start data =>
      match w.calls call with
      | .idle =>
          let pages := cut.pagesOf start data.length
          ({ w with
            file := w.file.write start data
            hydrated := fun pgno => w.hydrated pgno || pages.contains pgno
            plain := w.plain.write start data
            written := fun pgno => w.written pgno || pages.contains pgno }, none)
      | _ => (w, none)
  | .dropMarks call size =>
      match w.calls call with
      | .idle =>
          let keep := UInt32.ofNat ((size + cut.size - 1) / cut.size)
          ((w.retain keep).setCall call (.truncating size), none)
      | _ => (w, none)
  | .truncate call =>
      match w.calls call with
      | .truncating size =>
          ({ w with
            file := w.file.truncate size
            plain := w.plain.truncate size
            floor := min w.floor size }.setCall call .idle, none)
      | _ => (w, none)
  | .openFile call =>
      match w.calls call with
      | .idle => if w.file.size = 0 then (w.setCall call .sizing, none) else (w, none)
      | _ => (w, none)
  | .sizeFile call =>
      match w.calls call with
      | .sizing =>
          ({ w with file := w.file.truncate (cut.commit.toNat * cut.size) }.setCall call .idle,
            none)
      | _ => (w, none)

/-- The state after a step. -/
abbrev next (w : VfsState) (action : VfsAction) : VfsState := (w.step cut action).1

/-- The file that the first open leaves behind. -/
def start : VfsState where
  file := .sparse (cut.commit.toNat * cut.size)
  plain := .ofBytes cut.image
  floor := cut.commit.toNat * cut.size

end VfsState

/-! ## Pages and bytes -/

theorem div_bounds {i size number : ℕ} (positive : 0 < size) (on : i / size + 1 = number) :
    (number - 1) * size ≤ i ∧ i < (number - 1) * size + size := by
  rw [← on, Nat.add_sub_cancel]
  have parts := Nat.div_add_mod i size
  have below := Nat.mod_lt i positive
  rw [Nat.mul_comm] at parts
  omega

theorem getD_slice {bytes : Bytes} {start length j : ℕ} (inside : j < length) :
    (slice bytes start length).getD j 0 = bytes.getD (start + j) 0 := by
  simp only [slice, getD_eq_getElem?_getD, getElem?_take, getElem?_drop, if_pos inside]

namespace Cut

variable {cut : Cut} {pgno : UInt32} {start amount i : ℕ}

/-- The greatest size of a file whose page numbers are of 32 bits. -/
def limit (cut : Cut) : ℕ := (2 ^ 32 - 1) * cut.size

theorem size_pos (cut : Cut) : 0 < cut.size := toNat_pos_of_isValidPageSize cut.valid

/-- The byte is on the page. -/
def On (cut : Cut) (i : ℕ) (pgno : UInt32) : Prop := i / cut.size + 1 = pgno.toNat

theorem On.bounds (on : cut.On i pgno) :
    (pgno.toNat - 1) * cut.size ≤ i ∧ i < (pgno.toNat - 1) * cut.size + cut.size := by
  exact div_bounds cut.size_pos on

theorem on_of_bounds (positive : 0 < pgno) (after : (pgno.toNat - 1) * cut.size ≤ i)
    (before : i < (pgno.toNat - 1) * cut.size + cut.size) : cut.On i pgno := by
  rw [UInt32.lt_iff_toNat_lt] at positive
  have zero : (0 : UInt32).toNat = 0 := rfl
  have index : i / cut.size = pgno.toNat - 1 := by
    refine Nat.div_eq_of_lt_le after ?_
    rw [Nat.succ_mul]
    exact before
  unfold On
  omega

theorem toNat_succ_index (within : i < cut.limit) :
    (UInt32.ofNat (i / cut.size) + 1).toNat = i / cut.size + 1 := by
  have below : i / cut.size < 2 ^ 32 - 1 := (Nat.div_lt_iff_lt_mul cut.size_pos).mpr within
  rw [UInt32.toNat_add, UInt32.toNat_ofNat_of_lt' (show i / cut.size < 2 ^ 32 from by omega)]
  exact Nat.mod_eq_of_lt (show i / cut.size + 1 < 2 ^ 32 by omega)

/-- A byte of the range is on one of its pages. -/
theorem mem_pagesOf (within : start + amount ≤ cut.limit) (on : cut.On i pgno) (after : start ≤ i)
    (before : i < start + amount) : pgno ∈ cut.pagesOf start amount := by
  refine mem_runNumbers.mpr ⟨?_, ?_⟩
  · rw [UInt32.le_iff_toNat_le, toNat_succ_index (by omega), ← on]
    exact Nat.succ_le_succ (Nat.div_le_div_right after)
  · rw [UInt32.le_iff_toNat_le, toNat_succ_index (by omega), ← on]
    exact Nat.succ_le_succ (Nat.div_le_div_right (by omega))

theorem pos_of_mem_pagesOf (within : start < cut.limit) (mem : pgno ∈ cut.pagesOf start amount) :
    0 < pgno := by
  have first := (mem_runNumbers.mp mem).1
  rw [UInt32.le_iff_toNat_le, toNat_succ_index within] at first
  rw [UInt32.lt_iff_toNat_lt]
  exact lt_of_lt_of_le (Nat.succ_pos _) first

theorem Has.page_le (has : cut.Has pgno) :
    (pgno.toNat - 1) * cut.size + cut.size ≤ cut.commit.toNat * cut.size := by
  have above : 0 < pgno.toNat := UInt32.lt_iff_toNat_lt.mp has.1
  have within := UInt32.le_iff_toNat_le.mp has.2.1
  have index : pgno.toNat - 1 + 1 ≤ cut.commit.toNat := by omega
  rw [← Nat.succ_mul]
  exact Nat.mul_le_mul_right _ index

theorem Has.length_page (has : cut.Has pgno) : (cut.page pgno).length = cut.size := by
  refine length_slice ?_
  rw [cut.length]
  exact has.page_le

theorem On.getD_page (on : cut.On i pgno) :
    (cut.page pgno).getD (i - (pgno.toNat - 1) * cut.size) 0 = cut.image.getD i 0 := by
  obtain ⟨after, _⟩ := on.bounds
  have inside : i - (pgno.toNat - 1) * cut.size < cut.size := by omega
  refine (getD_slice inside).trans ?_
  congr 1
  exact Nat.add_sub_cancel' after

end Cut

/-! ## The invariant -/

namespace VfsState

variable (cut : Cut)

/-- The page was neither truncated nor written. -/
def Intact (w : VfsState) (pgno : UInt32) : Prop :=
  pgno.toNat * cut.size ≤ w.floor ∧ w.written pgno = false

/-- What the environment keeps to.  Fetches bring pages of the cut; page numbers have 32
bits; no run is written back that holds a page which the file does not hold and which was
truncated or written, no write covers a part of a page that is still to be fetched, and no open
changes the size of the file. -/
def Legal (w : VfsState) : VfsAction → Prop
  | .read _ start amount => start < cut.limit ∧ start + amount ≤ cut.limit
  | .fetch call result => ∀ start amount pgno pending run,
      w.calls call = .fetching start amount pgno pending → result = .ok run → cut.Answers pgno run
  | .writeBack call => ∀ start amount pgno pending run,
      w.calls call = .fetched start amount pgno pending (.ok run) → w.hydrated pgno = false →
        ∀ page ∈ run, w.hydrated page.1 = false → w.Intact cut page.1
  | .write _ start data => start + data.length ≤ cut.limit ∧
      ∀ pgno ∈ cut.pagesOf start data.length, cut.Has pgno → w.hydrated pgno = false →
        start ≤ (pgno.toNat - 1) * cut.size ∧
          (pgno.toNat - 1) * cut.size + cut.size ≤ start + data.length
  | .sizeFile call => w.calls call = .sizing → w.file.size = cut.commit.toNat * cut.size
  | _ => True

/-- What the VFS can get to. -/
inductive Reachable : VfsState → Prop
  | start : Reachable (start cut)
  | step {w : VfsState} {action : VfsAction} (earlier : Reachable w) (legal : w.Legal cut action) :
      Reachable (w.next cut action)

/-- The file has the size of the plain one, a read that finishes answers what the plain file has,
and no read fails over a run that was fetched. -/
structure IsPlain (w : VfsState) : Prop where
  size : w.file.size = w.plain.size
  reads : ∀ call start amount, w.calls call = .reading start amount [] →
    (w.step cut (.finish call)).2 = some (.bytes (w.plain.read start amount))
  fetched : ∀ call start amount pgno pending run,
    w.calls call = .fetched start amount pgno pending (.ok run) →
      (w.step cut (.writeBack call)).2 = none

/-- The file is the plain one, except for pages of the cut that it does not hold; where they were
neither written nor truncated the plain file still has the cut. -/
structure Faithful (w : VfsState) : Prop where
  size : w.file.size = w.plain.size
  room : w.floor ≤ w.plain.size
  same : ∀ i, (∀ pgno, cut.On i pgno → cut.Has pgno → w.hydrated pgno = true) →
    w.file.byte i = w.plain.byte i
  fresh : ∀ pgno i, cut.Has pgno → w.Intact cut pgno → cut.On i pgno →
    w.plain.byte i = cut.image.getD i 0

/-- The file has the page as the plain one has it. -/
def Current (w : VfsState) (pgno : UInt32) : Prop :=
  ∀ i, cut.On i pgno → w.file.byte i = w.plain.byte i

/-- The pages of a range that are not pending are current. -/
structure Holds (w : VfsState) (start amount : ℕ) (pending : List UInt32) : Prop where
  within : start + amount ≤ cut.limit
  positive : ∀ pgno ∈ pending, 0 < pgno
  done : ∀ pgno ∈ cut.pagesOf start amount, pgno ∉ pending → w.Current cut pgno

/-- What a call in flight relies on. -/
def CallOk (w : VfsState) : Call → Prop
  | .idle | .truncating _ | .sizing => True
  | .reading start amount pending => Holds cut w start amount pending
  | .fetching start amount pgno pending => Holds cut w start amount (pgno :: pending)
  | .fetched start amount pgno pending result => Holds cut w start amount (pgno :: pending) ∧
      ∀ run, result = .ok run → cut.Answers pgno run

structure Inv (w : VfsState) : Prop extends Faithful cut w where
  calls : ∀ call, CallOk cut w (w.calls call)

/-- Pages stay current. -/
def Keeps (w v : VfsState) : Prop := ∀ pgno, w.Current cut pgno → v.Current cut pgno

variable {cut} {w v : VfsState} {pgno : UInt32} {pending : List UInt32}

/-- A page that is held is current, and so is one that the cut does not have. -/
theorem Faithful.current (faithful : Faithful cut w)
    (held : cut.Has pgno → w.hydrated pgno = true) :
    w.Current cut pgno := by
  intro i on
  refine faithful.same i fun other on_ has => ?_
  have eq : other = pgno := UInt32.toNat_inj.mp (on_.symm.trans on)
  subst eq
  exact held has

theorem Holds.mono (keeps : Keeps cut w v) {start amount : ℕ}
    (holds : Holds cut w start amount pending) : Holds cut v start amount pending :=
  ⟨holds.within, holds.positive, fun pgno mem done => keeps pgno (holds.done pgno mem done)⟩

theorem CallOk.mono (keeps : Keeps cut w v) {call : Call} (ok : CallOk cut w call) :
    CallOk cut v call := by
  cases call with
  | reading => exact Holds.mono keeps ok
  | fetching => exact Holds.mono keeps ok
  | fetched => exact ⟨Holds.mono keeps ok.1, ok.2⟩
  | _ => trivial

/-- A page that is current is done. -/
theorem Holds.next {start amount : ℕ} (holds : Holds cut w start amount (pgno :: pending))
    (current : w.Current cut pgno) :
    Holds cut w start amount pending := by
  refine ⟨holds.within, fun other mem => holds.positive other (mem_cons_of_mem _ mem), ?_⟩
  intro other mem done
  by_cases same : other = pgno
  · subst same
    exact current
  · refine holds.done other mem fun pending => ?_
    rcases mem_cons.mp pending with eq | later
    · exact same eq
    · exact done later

theorem Faithful.setCall (faithful : Faithful cut w) (call : ℕ) (next : Call) :
    Faithful cut (w.setCall call next) :=
      ⟨faithful.size, faithful.room, faithful.same, faithful.fresh⟩

theorem Keeps.refl (w : VfsState) : Keeps cut w w := fun _ current => current

theorem Keeps.trans {u : VfsState} (before : Keeps cut w v) (after : Keeps cut v u) :
    Keeps cut w u :=
  fun pgno current => after pgno (before pgno current)

/-- A step that changes the files and one call. -/
theorem Inv.setCall (inv : Inv cut w) (faithful : Faithful cut v) (calls : v.calls = w.calls)
    (keeps : Keeps cut w v) {call : ℕ} {next : Call} (ok : CallOk cut v next) :
    Inv cut (v.setCall call next) := by
  refine ⟨faithful.setCall call next,
    fun other => CallOk.mono (v := v.setCall call next) (Keeps.refl v) ?_⟩
  show CallOk cut v (Function.update v.calls call next other)
  by_cases same : other = call
  · subst same
    rw [Function.update_self]
    exact ok
  · rw [Function.update_of_ne same, calls]
    exact (inv.calls other).mono keeps

/-! ## Steps -/

theorem mark_self (w : VfsState) (pgno : UInt32) : (w.mark pgno).hydrated pgno = true := if_pos rfl

theorem mark_of_ne {other : UInt32} (differ : other ≠ pgno) :
    (w.mark pgno).hydrated other = w.hydrated other := if_neg differ

theorem keeps_mark (w : VfsState) (pgno : UInt32) : Keeps cut w (w.mark pgno) :=
  fun _ current => current

theorem hydrated_mark (w : VfsState) (pgno : UInt32) {other : UInt32}
    (held : w.hydrated other = true) : (w.mark pgno).hydrated other = true := by
  by_cases same : other = pgno
  · rw [same]
    exact mark_self w pgno
  · rw [mark_of_ne same]
    exact held

/-- A page of the cut goes into the file. -/
def put (cut : Cut) (w : VfsState) (pgno : UInt32) : VfsState :=
  { w with file := w.file.write ((pgno.toNat - 1) * cut.size) (cut.page pgno) }.mark pgno

theorem byte_put_of_on (has : cut.Has pgno) {i : ℕ} (on : cut.On i pgno) :
    (w.put cut pgno).file.byte i = cut.image.getD i 0 := by
  obtain ⟨after, before⟩ := on.bounds
  exact (File.byte_write_of_mem after (has.length_page.symm ▸ before)).trans on.getD_page

theorem byte_put_of_not_on (has : cut.Has pgno) {i : ℕ} (off : ¬ cut.On i pgno) :
    (w.put cut pgno).file.byte i = w.file.byte i := by
  refine File.byte_write_of_not_mem fun inside => ?_
  have before := inside.2
  rw [has.length_page] at before
  exact off (Cut.on_of_bounds has.1 inside.1 before)

/-- The page goes into the file: the plain file has it, so the two agree there. -/
theorem Faithful.put (faithful : Faithful cut w) (has : cut.Has pgno) (intact : w.Intact cut pgno) :
    Faithful cut (w.put cut pgno) ∧ Keeps cut w (w.put cut pgno) := by
  have within : (pgno.toNat - 1) * cut.size + (cut.page pgno).length ≤ w.file.size := by
    have number : pgno.toNat - 1 + 1 = pgno.toNat :=
      Nat.sub_add_cancel (UInt32.lt_iff_toNat_lt.mp has.1)
    rw [has.length_page, ← Nat.succ_mul, Nat.succ_eq_add_one, number, faithful.size]
    exact intact.1.trans faithful.room
  have fresh := fun i => faithful.fresh pgno i has intact
  refine ⟨⟨(File.size_write_of_le within).trans faithful.size, faithful.room,
    ?_, faithful.fresh⟩, ?_⟩
  · intro i held
    by_cases on : cut.On i pgno
    · exact (byte_put_of_on has on).trans (fresh i on).symm
    · refine (byte_put_of_not_on has on).trans (faithful.same i fun other on_ has_ => ?_)
      have differ : other ≠ pgno := by
        rintro rfl
        exact on on_
      rw [← mark_of_ne differ]
      exact held other on_ has_
  · intro other current i on_
    by_cases on : cut.On i pgno
    · exact (byte_put_of_on has on).trans (fresh i on).symm
    · exact (byte_put_of_not_on has on).trans (current i on_)

/-- A run goes into the file. -/
theorem Faithful.fill (faithful : Faithful cut w) {run : List Page}
    (pages : ∀ page ∈ run, cut.Has page.1 ∧ page.2 = cut.page page.1)
    (intact : ∀ page ∈ run, w.hydrated page.1 = false → w.Intact cut page.1)
    (mine : w.Intact cut pgno) :
    Faithful cut (w.fill cut pgno run) ∧ Keeps cut w (w.fill cut pgno run) ∧
      (w.fill cut pgno run).calls = w.calls ∧
      (pgno ∈ run.map Prod.fst ∨ w.hydrated pgno = true →
        (w.fill cut pgno run).hydrated pgno = true) := by
  induction run generalizing w with
  | nil => exact ⟨faithful, .refl _, rfl, fun held => held.resolve_left (by rintro ⟨⟩)⟩
  | cons page run ih =>
    obtain ⟨⟨has, eq⟩, rest⟩ := forall_mem_cons.mp pages
    obtain ⟨here, later⟩ := forall_mem_cons.mp intact
    rw [VfsState.fill, foldl_cons]
    split
    · rename_i skips
      obtain ⟨done, keeps, calls, held⟩ := ih faithful rest later mine
      refine ⟨done, keeps, calls, fun wants => held ?_⟩
      rcases wants with mem | already
      · rcases mem_cons.mp mem with same | behind
        · exact absurd same.symm skips.1
        · exact .inl behind
      · exact .inr already
    · rename_i puts
      have whole : w.Intact cut page.1 := by
        by_cases same : page.1 = pgno
        · rw [same]
          exact mine
        · refine here ?_
          by_contra held
          exact puts ⟨same, by simpa using held⟩
      obtain ⟨placed, kept⟩ := faithful.put has whole
      have unheld : ∀ other ∈ run, (w.put cut page.1).hydrated other.1 = false →
          w.Intact cut other.1 := by
        intro other mem unheld
        refine later other mem ?_
        by_contra held
        have held_ := hydrated_mark w page.1 (by simpa using held)
        exact Bool.false_ne_true (unheld.symm.trans held_)
      rw [eq]
      obtain ⟨done, keeps, calls, held⟩ := ih placed rest unheld mine
      refine ⟨done, kept.trans keeps, calls, fun wants => held ?_⟩
      rcases wants with mem | already
      · rcases mem_cons.mp mem with same | behind
        · right
          rw [same]
          exact mark_self _ _
        · exact .inl behind
      · exact .inr (hydrated_mark w page.1 already)

/-- A mark on a page that the cut does not have means nothing. -/
theorem Faithful.mark (faithful : Faithful cut w) (lacks : ¬ cut.Has pgno) :
    Faithful cut (w.mark pgno) := by
  have differ : ∀ other, cut.Has other → other ≠ pgno := by
    rintro other has rfl
    exact lacks has
  refine ⟨faithful.size, faithful.room, fun i held => faithful.same i ?_, faithful.fresh⟩
  intro other on has
  rw [← mark_of_ne (differ other has)]
  exact held other on has

/-- **A fetched run is written back.** -/
theorem Inv.writeBack (inv : Inv cut w) {call start amount : ℕ} {result : Except Error (List Page)}
    (fetched : w.calls call = .fetched start amount pgno pending result)
    (intact : ∀ run, result = .ok run → w.hydrated pgno = false →
      ∀ page ∈ run, w.hydrated page.1 = false → w.Intact cut page.1) :
    Inv cut (w.writeBack cut call start amount pgno pending result).1 := by
  have ok := inv.calls call
  rw [fetched] at ok
  obtain ⟨holds, answers⟩ := ok
  have stay : ∀ next, CallOk cut w next → Inv cut (w.setCall call next) := fun next =>
    inv.setCall inv.toFaithful rfl (.refl _)
  cases result with
  | error e =>
    rw [VfsState.writeBack]
    split
    · rename_i held
      exact stay _ (holds.next (inv.current fun _ => held))
    · exact stay .idle trivial
  | ok run =>
    rw [VfsState.writeBack]
    split
    · rename_i held
      exact stay _ (holds.next (inv.current fun _ => held))
    · rename_i unheld
      rw [Bool.not_eq_true] at unheld
      split
      · split
        · exact stay .idle trivial
        · rename_i absent
          have lacks : ¬ cut.Has pgno := fun has => absent has.2
          have faithful := inv.toFaithful.mark lacks
          refine inv.setCall faithful rfl (keeps_mark w pgno) ?_
          exact (holds.mono (keeps_mark w pgno)).next (faithful.current fun has => absurd has lacks)
      · rename_i some_
        have answer := answers run rfl
        have has : cut.Has pgno := by
          by_contra lacks
          exact some_ (answer.empty lacks)
        have whole := intact run rfl unheld
        obtain ⟨page, mem, eq⟩ := mem_map.mp (answer.first has)
        have mine : w.Intact cut pgno := by
          rw [← eq]
          exact whole page mem (eq ▸ unheld)
        obtain ⟨faithful, keeps, calls, held⟩ := inv.toFaithful.fill answer.pages whole mine
        refine inv.setCall faithful calls keeps ?_
        exact (holds.mono keeps).next (faithful.current fun _ => held (.inl (answer.first has)))

/-- **A write goes into both files.** -/
theorem Inv.write (inv : Inv cut w) {start : ℕ} {data : Bytes}
    (within : start + data.length ≤ cut.limit)
    (whole : ∀ pgno ∈ cut.pagesOf start data.length, cut.Has pgno → w.hydrated pgno = false →
      start ≤ (pgno.toNat - 1) * cut.size ∧
        (pgno.toNat - 1) * cut.size + cut.size ≤ start + data.length) :
    Inv cut { w with
      file := w.file.write start data
      hydrated := fun pgno => w.hydrated pgno || (cut.pagesOf start data.length).contains pgno
      plain := w.plain.write start data
      written := fun pgno => w.written pgno || (cut.pagesOf start data.length).contains pgno } := by
  have both : ∀ i, (start ≤ i ∧ i < start + data.length) ∨ w.file.byte i = w.plain.byte i →
      (w.file.write start data).byte i = (w.plain.write start data).byte i := by
    intro i agree
    by_cases inside : start ≤ i ∧ i < start + data.length
    · exact (File.byte_write_of_mem inside.1 inside.2).trans
        (File.byte_write_of_mem inside.1 inside.2).symm
    · refine (File.byte_write_of_not_mem inside).trans ?_
      exact (agree.resolve_left inside).trans (File.byte_write_of_not_mem inside).symm
  refine ⟨⟨?_, inv.room.trans File.le_size_write, ?_, ?_⟩, fun call => (inv.calls call).mono ?_⟩
  · show (if data = [] then w.file.size else _) = if data = [] then w.plain.size else _
    rw [inv.size]
  · intro i held
    refine both i (or_iff_not_imp_left.mpr fun outside => inv.same i fun pgno on has => ?_)
    -- A page that the write marks it covers, unless it was held before.
    have marked : (w.hydrated pgno || (cut.pagesOf start data.length).contains pgno) = true :=
      held pgno on has
    by_contra unheld
    rw [Bool.not_eq_true] at unheld
    rw [unheld, Bool.false_or, contains_iff_mem] at marked
    obtain ⟨after, before⟩ := whole pgno marked has unheld
    obtain ⟨first, last⟩ := on.bounds
    exact outside ⟨after.trans first, lt_of_lt_of_le last before⟩
  · intro pgno i has intact on
    obtain ⟨unwritten, unmarked⟩ := Bool.or_eq_false_iff.mp intact.2
    have outside : ¬ (start ≤ i ∧ i < start + data.length) := by
      rintro ⟨after, before⟩
      have mem := Cut.mem_pagesOf within on after before
      rw [← contains_iff_mem, unmarked] at mem
      cases mem
    exact (File.byte_write_of_not_mem outside).trans (inv.fresh pgno i has ⟨intact.1, unwritten⟩ on)
  · exact fun pgno current i on => both i (.inr (current i on))

/-- Marks may be dropped at any time. -/
theorem Inv.retain (inv : Inv cut w) (keep : UInt32) (call size : ℕ) :
    Inv cut ((w.retain keep).setCall call (.truncating size)) := by
  have faithful : Faithful cut (w.retain keep) :=
    ⟨inv.size, inv.room, fun i held => inv.same i fun pgno on has =>
      (Bool.and_eq_true_iff.mp (held pgno on has)).1, inv.fresh⟩
  exact inv.setCall faithful rfl (.refl _) trivial

/-- **A truncation goes into both files.** -/
theorem Inv.truncate (inv : Inv cut w) (call size : ℕ) :
    Inv cut ({ w with
      file := w.file.truncate size
      plain := w.plain.truncate size
      floor := min w.floor size }.setCall call .idle) := by
  have both : ∀ i, w.file.byte i = w.plain.byte i →
      (w.file.truncate size).byte i = (w.plain.truncate size).byte i := by
    intro i agree
    show (if i < size then w.file.byte i else 0) = if i < size then w.plain.byte i else 0
    rw [agree]
  have faithful : Faithful cut { w with
      file := w.file.truncate size
      plain := w.plain.truncate size
      floor := min w.floor size } := by
    refine ⟨rfl, Nat.min_le_right _ _, fun i held => both i (inv.same i held), ?_⟩
    intro pgno i has intact on
    obtain ⟨old, new⟩ := le_min_iff.mp intact.1
    have before : i < pgno.toNat * cut.size := by
      rw [← on, ← Nat.div_lt_iff_lt_mul cut.size_pos]
      exact lt_add_one _
    exact (if_pos (lt_of_lt_of_le before new)).trans (inv.fresh pgno i has ⟨old, intact.2⟩ on)
  exact inv.setCall faithful rfl (fun pgno current i on => both i (current i on)) trivial

/-- An open that leaves the size leaves the file. -/
theorem Inv.sizeFile (inv : Inv cut w) (call : ℕ) {size : ℕ} (same : w.file.size = size) :
    Inv cut ({ w with file := w.file.truncate size }.setCall call .idle) := by
  subst same
  have faithful : Faithful cut { w with file := w.file.truncate w.file.size } :=
    ⟨inv.size, inv.room, fun i held => w.file.byte_truncate_size.trans (inv.same i held), inv.fresh⟩
  exact inv.setCall faithful rfl
    (fun pgno current i on => w.file.byte_truncate_size.trans (current i on)) trivial

/-- **Every step keeps the invariant.** -/
theorem Inv.step (inv : Inv cut w) {action : VfsAction} (legal : w.Legal cut action) :
    Inv cut (w.next cut action) := by
  have stay : ∀ {call : ℕ} {next : Call}, CallOk cut w next → Inv cut (w.setCall call next) :=
    fun ok => inv.setCall inv.toFaithful rfl (.refl _) ok
  have relies : ∀ {call : ℕ} {now : Call}, w.calls call = now → CallOk cut w now :=
    fun here => here ▸ inv.calls _
  unfold VfsState.next
  cases action with
  | read call =>
    simp only [VfsState.step]
    split
    · exact stay ⟨legal.2, fun pgno mem => Cut.pos_of_mem_pagesOf legal.1 mem,
        fun pgno mem done => absurd mem done⟩
    · exact inv
  | check call =>
    simp only [VfsState.step]
    split
    case h_1 here =>
      have holds := relies here
      split
      case isTrue held => exact stay (Holds.next holds (inv.current fun _ => held))
      case isFalse => exact stay holds
    case h_2 => exact inv
  | fetch call =>
    simp only [VfsState.step]
    split
    case h_1 here => exact stay ⟨relies here, fun run eq => legal _ _ _ _ run here eq⟩
    case h_2 => exact inv
  | writeBack call =>
    simp only [VfsState.step]
    split
    case h_1 here =>
      refine inv.writeBack here fun run eq => ?_
      subst eq
      exact legal _ _ _ _ run here
    case h_2 => exact inv
  | finish call =>
    simp only [VfsState.step]
    split
    · exact stay trivial
    · exact inv
  | write call =>
    simp only [VfsState.step]
    split
    · exact inv.write legal.1 legal.2
    · exact inv
  | dropMarks call =>
    simp only [VfsState.step]
    split
    · exact inv.retain _ _ _
    · exact inv
  | truncate call =>
    simp only [VfsState.step]
    split
    · exact inv.truncate _ _
    · exact inv
  | openFile call =>
    simp only [VfsState.step]
    split
    · split
      · exact stay trivial
      · exact inv
    · exact inv
  | sizeFile call =>
    simp only [VfsState.step]
    split
    case h_1 here => exact inv.sizeFile _ (legal here)
    case h_2 => exact inv

/-- The sparse file stands for the cut. -/
theorem inv_start (cut : Cut) : Inv cut (start cut) := by
  refine ⟨⟨cut.length.symm, cut.length.ge, ?_, fun _ _ _ _ _ => rfl⟩, fun _ => trivial⟩
  intro i held
  show 0 = cut.image.getD i 0
  by_cases inside : i < cut.image.length
  · -- Only the page of the lock bytes is not fetched, and it is zero.
    rw [cut.length] at inside
    have small := cut.commit.toNat_lt
    have within : i / cut.size < cut.commit.toNat := (Nat.div_lt_iff_lt_mul cut.size_pos).mpr inside
    let pgno := UInt32.ofNat (i / cut.size + 1)
    have number : pgno.toNat = i / cut.size + 1 :=
      UInt32.toNat_ofNat_of_lt' (show i / cut.size + 1 < 2 ^ 32 by omega)
    have positive : 0 < pgno := by
      rw [UInt32.lt_iff_toNat_lt, number]
      exact Nat.succ_pos _
    have upTo : pgno ≤ cut.commit := by
      rw [UInt32.le_iff_toNat_le, number]
      exact within
    by_cases lock : pgno = lockPgno cut.pageSize
    · exact (cut.lock i (lock ▸ number.symm)).symm
    · cases held pgno number.symm ⟨positive, upTo, lock⟩
  · rw [getD_eq_default _ _ (not_lt.mp inside)]

theorem Reachable.inv (reachable : Reachable cut w) : Inv cut w := by
  induction reachable with
  | start => exact inv_start cut
  | step _ legal ih => exact ih.step legal

theorem Inv.isPlain (inv : Inv cut w) : w.IsPlain cut := by
  refine ⟨inv.size, fun call start amount here => ?_,
    fun call start amount pgno pending run here => ?_⟩
  · have holds := inv.calls call
    rw [here] at holds
    have same : w.file.read start amount = w.plain.read start amount := by
      refine File.read_congr inv.size fun i after before => ?_
      have on := (Cut.toNat_succ_index (lt_of_lt_of_le before holds.within)).symm
      exact holds.done _ (Cut.mem_pagesOf holds.within on after before) not_mem_nil i on
    simp only [VfsState.step, here, same]
  · have ok := inv.calls call
    rw [here] at ok
    have answer := ok.2 run rfl
    simp only [VfsState.step, here, VfsState.writeBack]
    split
    · rfl
    · split
      · rename_i none_
        -- An empty run is the answer for a page that the cut lacks.
        refine congrArg Prod.snd (if_neg fun has => ?_)
        have mem := answer.first ⟨ok.1.positive pgno mem_cons_self, has⟩
        rw [none_] at mem
        cases mem
      · rfl

/-- **The VFS is a plain file** in every state that it gets to. -/
theorem Reachable.plain_file (reachable : Reachable cut w) : w.IsPlain cut :=
  reachable.inv.isPlain

/-- The steps one after the other. -/
def run (cut : Cut) (w : VfsState) (actions : List VfsAction) : VfsState :=
  actions.foldl (next cut) w

/-- Two pages, stored one behind the other. -/
def twoPages : Cut where
  pageSize := 512
  commit := 2
  image := List.replicate 512 1 ++ List.replicate 512 2
  valid := rfl
  length := by
    rw [length_append, length_replicate, length_replicate]
    rfl
  lock i on := by
    refine getD_eq_default _ _ ?_
    have far : (lockPgno 512).toNat = 2097153 := rfl
    have size : (512 : UInt32).toNat = 512 := rfl
    rw [far, size] at on
    rw [length_append, length_replicate, length_replicate]
    omega

/-- The run that a fetch of the first page brings. -/
def bothPages : List Page := [1, 2].map fun pgno => (pgno, twoPages.page pgno)

theorem bothPages_answers : twoPages.Answers 1 bothPages where
  pages := by
    intro _ mem
    obtain ⟨_, listed, rfl⟩ := mem_map.mp mem
    refine ⟨?_, rfl⟩
    rcases mem_pair.mp listed with rfl | rfl <;> decide +kernel
  first _ := by decide +kernel
  empty lacks := absurd (by decide +kernel) lacks

/-- The second page is truncated, and then the first one is read. -/
def truncated : VfsState :=
  run twoPages (start twoPages) [.dropMarks 0 512, .truncate 0, .read 0 0 512, .check 0,
    .fetch 0 (.ok bothPages), .writeBack 0]

/-- Everything is truncated, and then the file is opened once more. -/
def reopened : VfsState :=
  run twoPages (start twoPages) [.dropMarks 0 0, .truncate 0, .openFile 0, .sizeFile 0]

/-- A byte of the first page is written, and then two are read. -/
def torn : VfsState := run twoPages (start twoPages) [.write 0 0 [7], .read 0 0 2, .check 0]

/-- A byte behind the last page number is written, and then the first one is read. -/
def wrapped : VfsState :=
  run twoPages (start twoPages) [.write 0 (2 ^ 32 * 512) [7], .read 0 0 1, .check 0]

/-- **Where the VFS is no plain file.**  A page that a truncation took comes back with the
run of the page before it, and all of them with an open of the empty file.  A write of a part of
a page loses the rest of it, and a write behind the last page number of 32 bits loses the first
page. -/
theorem no_plain_file :
    (twoPages.Answers 1 bothPages ∧ truncated.plain.size = 512 ∧ truncated.file.size = 1024 ∧
      truncated.file.read 512 1 = [2]) ∧
    (reopened.plain.size = 0 ∧ reopened.file.size = 1024) ∧
    (torn.plain.read 0 2 = [7, 1] ∧ (torn.step twoPages (.finish 0)).2 = some (.bytes [7, 0])) ∧
    (wrapped.plain.read 0 1 = [1] ∧ (wrapped.step twoPages (.finish 0)).2 = some (.bytes [0])) := by
  refine ⟨⟨bothPages_answers, ?_⟩, ?_, ?_, ?_⟩ <;> decide +kernel

/-- The second page is written while a run with both is fetched; then both are read, and a
truncation cuts the second one in half before the read finishes. -/
def racing : List VfsAction :=
  [.read 0 0 1024, .check 0, .write 1 512 (List.replicate 512 9), .fetch 0 (.ok bothPages),
    .writeBack 0, .check 0, .openFile 2, .dropMarks 1 768, .truncate 1]

theorem racing_legal : LegalRun (next twoPages) (Legal twoPages) (start twoPages) racing := by
  refine ⟨⟨by decide +kernel, by decide +kernel⟩, trivial, ⟨by decide +kernel, ?_⟩, ?_, ?_, trivial,
    trivial, trivial, trivial, trivial⟩
  · intro pgno mem _ _
    have only : twoPages.pagesOf 512 (List.replicate 512 (9 : UInt8)).length = [2] := by
      decide +kernel
    rw [only, mem_singleton] at mem
    rw [mem, length_replicate]
    decide +kernel
  · intro start_ amount pgno pending found here eq
    have waits : (run twoPages (start twoPages) (racing.take 3)).calls 0
        = .fetching 0 1024 1 [2] := by
      decide +kernel
    cases waits.symm.trans here
    cases eq
    exact bothPages_answers
  · intro start_ amount pgno pending found here _ page mem unheld
    have waits : (run twoPages (start twoPages) (racing.take 4)).calls 0
        = .fetched 0 1024 1 [2] (.ok bothPages) := by
      decide +kernel
    cases waits.symm.trans here
    have untouched : (run twoPages (start twoPages) (racing.take 4)).Intact twoPages 1 ∧
        (run twoPages (start twoPages) (racing.take 4)).hydrated 2 = true := by
      unfold Intact
      decide +kernel
    obtain ⟨_, listed, rfl⟩ := mem_map.mp mem
    rcases mem_pair.mp listed with rfl | rfl
    · exact untouched.1
    · exact absurd (untouched.2.symm.trans unheld) (by decide)

/-- The run does not overwrite the written page, and what is cut off is not read. -/
theorem racing_plain_file :
    ((run twoPages (start twoPages) racing).step twoPages (.finish 0)).2
      = some (.bytes (List.replicate 512 1 ++ List.replicate 256 9)) := by
  have reachable : Reachable twoPages (run twoPages (start twoPages) racing) :=
    racing_legal.keeps (fun _ _ => .step) .start
  rw [(Reachable.plain_file reachable).reads 0 0 1024 (by decide +kernel)]
  decide +kernel

end VfsState

/-! ## The cut of a paged restore -/

section Restored

variable {c : Codec} {client : Client} {reader : RangeReader} {m : PageMap} {image : Bytes}

/-- The cut that a page map serves. -/
def ServesImage.cut (serves : ServesImage c client reader m image) : Cut where
  pageSize := m.pageSize
  commit := m.commit
  image := image
  valid := serves.valid
  length := serves.length
  lock i on := by
    have positive := toNat_pos_of_isValidPageSize serves.valid
    obtain ⟨after, _⟩ := div_bounds positive on
    by_cases within : lockPgno m.pageSize ≤ m.commit
    · have zero := congrArg (fun page => page.getD (i - ((lockPgno m.pageSize).toNat - 1) *
        m.pageSize.toNat) 0) (serves.lock within)
      have inside :
          i - ((lockPgno m.pageSize).toNat - 1) * m.pageSize.toNat < m.pageSize.toNat := by
        omega
      rw [imagePageAt, getD_slice inside, Nat.add_sub_cancel' after] at zero
      rw [zero, getD_replicate _ inside]
    · refine getD_eq_default _ _ ?_
      rw [serves.length]
      refine le_trans (Nat.mul_le_mul_right _ ?_) after
      have above := UInt32.lt_iff_toNat_lt.mp (not_le.mp within)
      omega

/-- What the store answers are pages of the cut. -/
theorem ServesImage.answers (serves : ServesImage c client reader m image) (pgno : UInt32)
    (maxBytes : ℕ) :
    ∃ run, m.readRunSync c reader pgno maxBytes = .ok run ∧ serves.cut.Answers pgno run := by
  obtain ⟨run, read, pages, first⟩ := serves.run pgno maxBytes
  refine ⟨run, read, pages, ?_, ?_⟩
  · rintro ⟨above, within, lock⟩
    have front := first above within lock
    exact mem_map.mpr ⟨_, mem_of_mem_head? front, rfl⟩
  · intro lacks
    rw [PageMap.readRunSync, serves.absent pgno lacks] at read
    cases read
    rfl

namespace VfsState

/-- Fetches are answered by a store, and all other steps are legal. -/
def Served (cut : Cut) (fetch : UInt32 → Except Error (List Page)) (w : VfsState) :
    VfsAction → Prop
  | .fetch call result => ∀ start amount pgno pending,
      w.calls call = .fetching start amount pgno pending → result = fetch pgno
  | action => w.Legal cut action

/-- **A paged database reads as the restored one.**  Where a plan can be restored its page map is
built, every fetch through it succeeds, and the VFS that fetches through it is the plain file of
the restored image, whatever is read, written and truncated meanwhile. -/
theorem paged_reads (lawful : c.Lawful) {objects : List (FileInfo × LtxFile)}
    (stored : ∀ object ∈ objects, Stored c client reader object.1 object.2)
    (restored : buildDatabaseImage c (objects.map fun object => object.2.bytes c) = .ok image)
    (maxBytes : ℕ) :
    ∃ m, ∃ cut : Cut, buildPageMap client (objects.map Prod.fst) = .ok m ∧ cut.image = image ∧
      cut.pageSize = m.pageSize ∧ cut.commit = m.commit ∧
      (∀ pgno, ∃ run, m.readRunSync c reader pgno maxBytes = .ok run) ∧
      ∀ actions, LegalRun (next cut) (Served cut (m.readRunSync c reader · maxBytes)) (start cut)
          actions → (run cut (start cut) actions).IsPlain cut := by
  obtain ⟨m, _, built, _, _, _, serves⟩ := exists_servesImage lawful stored restored
  have answers := fun pgno => serves.answers pgno maxBytes
  refine ⟨m, serves.cut, built, rfl, rfl, rfl, fun pgno => (answers pgno).imp fun _ => And.left, ?_⟩
  intro actions served
  refine Inv.isPlain (served.keeps (fun w action inv legal => inv.step ?_) (inv_start serves.cut))
  cases action with
  | fetch =>
    intro start_ amount pgno pending found waits eq
    obtain ⟨run, read, answer⟩ := answers pgno
    cases (read.symm.trans (legal start_ amount pgno pending waits).symm).trans eq
    exact answer
  | _ => exact legal

/-- The restored `shrinkAndGrow` is truncated. -/
theorem shrinkAndGrow_paged_reads : ∃ image m, ∃ cut : Cut, cut.image = image ∧
    buildDatabaseImage .stored (shrinkAndGrow.map (LtxFile.bytes .stored)) = .ok image ∧
    buildPageMap (clientOf (objectsOf shrinkAndGrow)) ((objectsOf shrinkAndGrow).map Prod.fst)
      = .ok m ∧
    (run cut (start cut) [.dropMarks 0 512, .truncate 0]).file.size = 512 := by
  have restored := shrinkAndGrow_chain.image Codec.stored_lawful
  obtain ⟨m, cut, built, same, _, _, _, reads⟩ :=
    paged_reads Codec.stored_lawful shrinkAndGrow_stored restored 4096
  refine ⟨_, m, cut, same, restored, built, ?_⟩
  exact (reads [.dropMarks 0 512, .truncate 0] ⟨trivial, trivial, trivial⟩).1

end VfsState

end Restored

end Celld.Ltx
