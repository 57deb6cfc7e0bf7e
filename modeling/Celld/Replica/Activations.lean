import Celld.Lib.Trail
import Celld.Replica.EpochChain

/-!
# Activations over a cell's bucket

A cell's objects lie in epochs, and only the owner of an epoch writes into it.  An activation
at an epoch restores the chain over all epochs listed below.  It then opens its own epoch with
a full image at the first transaction (a clone), or with a marker right after the cut and goes
on from there (a paged activation).  The owner of a lower epoch may be late: it is fenced, but
what it still uploads lands in its epoch.

What an object holds is left open: a `Contents` says how it acts on an image, and `History`
says what the transactions of an owner are.  The marker is uploaded in a step of its own.
-/

namespace Celld.Ltx.FileInfo

/-- What the name of an object says. -/
def key (f : FileInfo) : ℕ × ℕ × ℕ := (f.level, f.minTxid, f.maxTxid)

/-- The order of a listing. -/
def Before (f g : FileInfo) : Prop :=
  f.minTxid < g.minTxid ∨ f.minTxid = g.minTxid ∧ f.maxTxid ≤ g.maxTxid

instance decidableBefore : DecidableRel Before := fun f g =>
  inferInstanceAs (Decidable (f.minTxid < g.minTxid ∨ f.minTxid = g.minTxid ∧
    f.maxTxid ≤ g.maxTxid))

instance totalBefore : Std.Total Before := ⟨fun f g => by unfold Before; omega⟩

instance transBefore : IsTrans FileInfo Before := ⟨fun f g h => by unfold Before; omega⟩

end Celld.Ltx.FileInfo

namespace Celld.Replica

open Wire Ltx Function List

/-- What objects hold and how they act on an image. -/
structure Contents (σ δ : Type) where
  apply : δ → σ → σ
  blank : σ
  /-- The object without pages that opens a continued epoch. -/
  marker : ℕ → σ → δ

structure Object (δ : Type) where
  info : FileInfo
  content : δ

section Objects

variable {δ : Type}

/-- An upload under the same name replaces the object. -/
def put (o : Object δ) (objects : List (Object δ)) : List (Object δ) :=
  o :: objects.filter fun other => other.info.key ≠ o.info.key

/-- The files of an epoch at a level, by name. -/
def listing (objects : List (Object δ)) : Listing := fun level =>
  ((objects.map Object.info).filter fun f => f.level = level).insertionSort FileInfo.Before

def openLtxFile (objects : List (Object δ)) (f : FileInfo) : Except Error δ :=
  match objects.find? fun o => o.info.key = f.key with
  | some o => .ok o.content
  | none => .error (.other "replica: get object: not found")

end Objects

/-- An activation: what it restored and what its owner does. -/
structure Activation (σ δ : Type) where
  chain : EpochChain
  paged : Bool
  history : History σ δ

namespace Activation

variable {σ δ : Type} (a : Activation σ δ)

/-- The newest epoch of the chain. -/
def source : ℕ := (a.chain.getLast?.map Span.epoch).getD 0

def cut : ℕ := a.chain.maxTxid

end Activation

structure World (σ δ : Type) where
  store : ℕ → List (Object δ)
  /-- All that was uploaded, also what is deleted since. -/
  uploaded : ℕ → List (Object δ)
  /-- The highest epoch that was claimed. -/
  owner : ℕ
  acts : ℕ → Option (Activation σ δ)

inductive Action (δ : Type) where
  | claim (epoch : ℕ)
  | activate (epoch : ℕ) (paged : Bool) (txn : ℕ → δ)
  | upload (epoch : ℕ) (o : Object δ)

namespace World

variable {σ δ : Type}

def start : World σ δ where
  store _ := []
  uploaded _ := []
  owner := 0
  acts _ := none

/-- Every epoch that holds an object, ascending. -/
def nonemptyEpochs (w : World σ δ) : List ℕ :=
  (List.range (w.owner + 1)).filter fun epoch => !(w.store epoch).isEmpty

def listings (w : World σ δ) : List (ℕ × Listing) :=
  w.nonemptyEpochs.map fun epoch => (epoch, listing (w.store epoch))

/-- The restore view over the epochs below one. -/
def epochChain (w : World σ δ) (epoch : ℕ) : Except Error (Option EpochChain) :=
  match w.nonemptyEpochs.getLast? with
  | none => .ok none
  | some newest =>
      if newest < epoch then (EpochChain.build w.listings).map some
      else .error (.other (s!"refusing to restore from used epoch {newest}" ++
        s!" into writer epoch {epoch}"))

/-- A file of the chain is read from the epoch that serves its first transaction. -/
def readFile (w : World σ δ) (chain : EpochChain) (f : FileInfo) : Except Error δ :=
  match chain.span? f.minTxid with
  | some span => openLtxFile (w.store span.epoch) f
  | none => .error .txNotAvailable

def restore (c : Contents σ δ) (w : World σ δ) (chain : EpochChain) : Except Error σ := do
  let plan ← calcRestorePlan chain.ltxFiles 0
  let deltas ← plan.mapM (w.readFile chain)
  .ok (deltas.foldl (fun s d => c.apply d s) c.blank)

/-- The activation of an epoch, if the restore succeeds. -/
def activation (c : Contents σ δ) (w : World σ δ) (epoch : ℕ) (paged : Bool) (txn : ℕ → δ) :
    Except Error (Activation σ δ) := do
  match ← w.epochChain epoch with
  | none => .ok ⟨[], false, ⟨c.blank, 1, txn⟩⟩
  | some chain =>
      let image ← w.restore c chain
      if paged then
        let first := chain.maxTxid + 1
        .ok ⟨chain, true, ⟨image, first, update txn first (c.marker first image)⟩⟩
      else .ok ⟨chain, false, ⟨image, 1, txn⟩⟩

def step (c : Contents σ δ) (w : World σ δ) : Action δ → World σ δ
  | .claim epoch => { w with owner := max w.owner epoch }
  | .activate epoch paged txn =>
      if epoch ≤ w.owner ∧ (w.acts epoch).isNone then
        match w.activation c epoch paged txn with
        | .ok a => { w with acts := update w.acts epoch (some a) }
        | .error _ => w
      else w
  | .upload epoch o => { w with
      store := update w.store epoch (put o (w.store epoch))
      uploaded := update w.uploaded epoch (put o (w.uploaded epoch)) }

end World

/-! ## What owners upload -/

/-- A piece of an owner's transactions: it starts with a full image, with the first
transaction of the epoch, or right after an object that was uploaded already. -/
@[mk_iff]
structure Piece {σ δ : Type} (c : Contents σ δ) (a : Activation σ δ) (objects : List (Object δ))
    (o : Object δ) : Prop where
  valid : 0 < o.info.minTxid ∧ o.info.minTxid ≤ o.info.maxTxid
  level : o.info.level ≤ snapshotLevel
  snapshot : o.info.level = snapshotLevel → o.info.minTxid = 1
  last : a.history.first ≤ o.info.maxTxid
  carries : Carries c.apply (a.history.stateAt c.apply) o.info.minTxid o.info.maxTxid o.content
  aligned : o.info.minTxid = 1 ∨ o.info.minTxid = a.history.first ∨
    ∃ earlier ∈ objects, earlier.info.maxTxid + 1 = o.info.minTxid

/-- The object opens a continued epoch. -/
def IsMarker {σ δ : Type} (a : Activation σ δ) (o : Object δ) : Prop :=
  o.info.minTxid = a.history.first ∧ o.info.maxTxid = a.history.first

namespace World

variable {σ δ : Type}

/-- Owners upload pieces of their own transactions; a paged one uploads its marker first. -/
def Legal (c : Contents σ δ) (w : World σ δ) : Action δ → Prop
  | .upload epoch o => ∃ a, w.acts epoch = some a ∧ Piece c a (w.uploaded epoch) o ∧
      (a.paged = true → w.uploaded epoch = [] → IsMarker a o)
  | _ => True

/-- What the cell can get to by legal steps that are also allowed. -/
inductive Reachable (c : Contents σ δ) (allowed : World σ δ → Action δ → Prop) : World σ δ → Prop
  | start : Reachable c allowed start
  | step {w : World σ δ} {action : Action δ} (earlier : Reachable c allowed w)
      (legal : w.Legal c action) (allow : allowed w action) : Reachable c allowed (w.step c action)

end World

/-! ## Listings -/

section Listings

variable {σ δ : Type} {objects : List (Object δ)} {o : Object δ} {f : FileInfo}

theorem mem_listing {level : ℕ} : f ∈ listing objects level ↔
    (∃ o ∈ objects, o.info = f) ∧ f.level = level := by
  rw [listing, mem_insertionSort, mem_filter, mem_map, decide_eq_true_iff]

theorem mem_allFiles_listing (levels : ∀ o ∈ objects, o.info.level ≤ snapshotLevel) :
    f ∈ allFiles (listing objects) ↔ ∃ o ∈ objects, o.info = f := by
  rw [allFiles, mem_flatMap]
  constructor
  · rintro ⟨level, _, mem⟩
    exact (mem_listing.mp mem).1
  · rintro ⟨o, mem, rfl⟩
    exact ⟨o.info.level, mem_range.mpr (Nat.lt_succ_of_le (levels o mem)),
      mem_listing.mpr ⟨⟨o, mem, rfl⟩, rfl⟩⟩

theorem pairwise_listing (objects : List (Object δ)) (level : ℕ) :
    (listing objects level).Pairwise FileInfo.Before :=
  pairwise_insertionSort FileInfo.Before _

theorem mem_put : o ∈ put o objects := mem_cons_self

theorem mem_of_mem_put {other : Object δ} (mem : other ∈ put o objects) :
    other = o ∨ other ∈ objects := by
  rcases mem_cons.mp mem with rfl | old
  · exact .inl rfl
  · exact .inr (mem_filter.mp old).1

/-- A name that was there is there. -/
theorem exists_mem_put {other : Object δ} (mem : other ∈ objects) :
    ∃ kept ∈ put o objects, kept.info.key = other.info.key := by
  by_cases same : other.info.key = o.info.key
  · exact ⟨o, mem_put, same.symm⟩
  · exact ⟨other, mem_cons_of_mem _ (mem_filter.mpr ⟨mem, decide_eq_true same⟩), rfl⟩

section Update

variable {store : ℕ → List (Object δ)} {e epoch : ℕ} {other : Object δ}

theorem mem_of_mem_update (mem : other ∈ update store epoch (put o (store epoch)) e) :
    e = epoch ∧ other = o ∨ other ∈ store e := by
  by_cases here : e = epoch
  · subst here
    rw [update_self] at mem
    exact (mem_of_mem_put mem).imp_left fun same => ⟨rfl, same⟩
  · rw [update_of_ne here] at mem
    exact .inr mem

theorem exists_mem_update (mem : other ∈ store e) :
    ∃ kept ∈ update store epoch (put o (store epoch)) e,
      kept.info.key = other.info.key := by
  by_cases here : e = epoch
  · subst here
    rw [update_self]
    exact exists_mem_put mem
  · rw [update_of_ne here]
    exact ⟨other, mem, rfl⟩

/-- An entry of an updated table is the new one, or an old one. -/
theorem update_eq_some {α : Type} {table : ℕ → Option α} {a d : α}
    (eq : update table epoch (some a) e = some d) :
    e = epoch ∧ d = a ∨ e ≠ epoch ∧ table e = some d := by
  by_cases here : e = epoch
  · subst here
    rw [update_self] at eq
    exact .inl ⟨rfl, (Option.some.inj eq).symm⟩
  · rw [update_of_ne here] at eq
    exact .inr ⟨here, eq⟩

end Update

theorem txids_of_key {f' : FileInfo} (same : f'.key = f.key) :
    f'.minTxid = f.minTxid ∧ f'.maxTxid = f.maxTxid :=
  Prod.mk.inj (Prod.mk.inj same).2

theorem Piece.mono {c : Contents σ δ} {a : Activation σ δ} {more : List (Object δ)}
    (piece : Piece c a objects o)
    (kept : ∀ e ∈ objects, ∃ e' ∈ more, e'.info.key = e.info.key) : Piece c a more o := by
  refine ⟨piece.valid, piece.level, piece.snapshot, piece.last, piece.carries, ?_⟩
  refine piece.aligned.imp_right (Or.imp_right ?_)
  rintro ⟨earlier, mem, ends⟩
  obtain ⟨kept_, mem_, same⟩ := kept earlier mem
  exact ⟨kept_, mem_, (txids_of_key same).2 ▸ ends⟩

/-- An object of the name is found. -/
theorem openLtxFile_of_mem (mem : o ∈ objects) (named : o.info.key = f.key) :
    ∃ found ∈ objects, found.info.key = f.key ∧ openLtxFile objects f = .ok found.content := by
  cases search : objects.find? fun o => o.info.key = f.key with
  | none =>
    have absent := find?_eq_none.mp search o mem
    exact absurd (decide_eq_true named) absent
  | some found =>
    have same := find?_some search
    exact ⟨found, mem_of_find?_eq_some search, by simpa using same,
      by simp only [openLtxFile, search]⟩

end Listings

/-! ## The epochs below one -/

namespace World

variable {σ δ : Type} {w : World σ δ} {epoch : ℕ}

/-- The epochs with objects below one, newest first. -/
def below (w : World σ δ) : ℕ → List (ℕ × Listing)
  | 0 => []
  | epoch + 1 =>
      if w.store epoch = [] then below w epoch
      else (epoch, listing (w.store epoch)) :: below w epoch

theorem below_succ_of_nil (empty : w.store epoch = []) : w.below (epoch + 1) = w.below epoch :=
  if_pos empty

theorem below_succ (some_ : w.store epoch ≠ []) :
    w.below (epoch + 1) = (epoch, listing (w.store epoch)) :: w.below epoch := if_neg some_

theorem reverse_listings (w : World σ δ) : w.listings.reverse = w.below (w.owner + 1) := by
  rw [listings, nonemptyEpochs]
  generalize w.owner + 1 = n
  induction n with
  | zero => rfl
  | succ n ih =>
    rw [range_succ, filter_append, map_append, reverse_append, ih]
    by_cases empty : w.store n = []
    · simp [empty, below_succ_of_nil]
    · simp [empty, below_succ]

theorem below_of_empty {low : ℕ} (le : low ≤ epoch)
    (empty : ∀ e, low ≤ e → e < epoch → w.store e = []) : w.below epoch = w.below low := by
  induction epoch, le using Nat.le_induction with
  | base => rfl
  | succ e le ih =>
    rw [below_succ_of_nil (empty e le (lt_add_one e))]
    exact ih fun e' after before => empty e' after (Nat.lt_succ_of_lt before)

/-- Epochs without an object that ends at the cut are passed over. -/
theorem walk_below_skip {low cut : ℕ} {above : Span} {spans : List Span} (le : low ≤ epoch)
    (lo : above.lo = cut + 1)
    (elsewhere : ∀ e, low ≤ e → e < epoch → ∀ o ∈ w.store e, o.info.maxTxid ≠ cut) :
    EpochChain.walk (w.below epoch) (above :: spans)
      = EpochChain.walk (w.below low) (above :: spans) := by
  induction epoch, le using Nat.le_induction with
  | base => rfl
  | succ e le ih =>
    have rest := ih fun e' after before => elsewhere e' after (Nat.lt_succ_of_lt before)
    by_cases empty : w.store e = []
    · rw [below_succ_of_nil empty, rest]
    · rw [below_succ empty, EpochChain.walk_skip lo ?_, rest]
      intro _ mem
      obtain ⟨_, _, here⟩ := mem_flatMap.mp mem
      obtain ⟨⟨o, stored, rfl⟩, _⟩ := mem_listing.mp here
      exact elsewhere e le (lt_add_one e) o stored

theorem mem_nonemptyEpochs : epoch ∈ w.nonemptyEpochs ↔ epoch ≤ w.owner ∧ w.store epoch ≠ [] := by
  rw [nonemptyEpochs, mem_filter, mem_range, Nat.lt_succ_iff, Bool.not_eq_true',
    isEmpty_eq_false_iff]

/-- The newest epoch with objects. -/
theorem getLast?_nonemptyEpochs (newest : w.nonemptyEpochs.getLast? = some epoch) :
    epoch ≤ w.owner ∧ w.store epoch ≠ [] ∧ ∀ e, epoch < e → e ≤ w.owner → w.store e = [] := by
  obtain ⟨within, some_⟩ := mem_nonemptyEpochs.mp (mem_of_getLast? newest)
  refine ⟨within, some_, fun e above upTo => ?_⟩
  by_contra nonempty
  have sorted : w.nonemptyEpochs.Pairwise (· < ·) := pairwise_lt_range.filter _
  obtain ⟨_, eq⟩ := getLast?_eq_some_iff.mp newest
  have mem : e ∈ w.nonemptyEpochs := mem_nonemptyEpochs.mpr ⟨upTo, nonempty⟩
  rw [eq] at mem sorted
  rcases mem_append.mp mem with older | here
  · have less := (pairwise_append.mp sorted).2.2 e older epoch mem_cons_self
    omega
  · have same := mem_singleton.mp here
    omega

/-! ## What is kept in every run -/

/-- An activation that restored a chain, or found none. -/
theorem activation_cases {c : Contents σ δ} {paged : Bool} {txn : ℕ → δ} {a : Activation σ δ}
    (ok : w.activation c epoch paged txn = .ok a) :
    a = ⟨[], false, ⟨c.blank, 1, txn⟩⟩ ∨
      ∃ newest chain image, w.nonemptyEpochs.getLast? = some newest ∧ newest < epoch ∧
        EpochChain.build w.listings = .ok chain ∧ w.restore c chain = .ok image ∧
        (a = ⟨chain, false, ⟨image, 1, txn⟩⟩ ∨ a = ⟨chain, true, ⟨image, chain.maxTxid + 1,
          update txn (chain.maxTxid + 1) (c.marker (chain.maxTxid + 1) image)⟩⟩) := by
  unfold activation epochChain at ok
  cases newest : w.nonemptyEpochs.getLast? with
  | none =>
    simp only [newest] at ok
    cases ok
    exact .inl rfl
  | some newest_ =>
    simp only [newest] at ok
    split at ok
    · rename_i before
      cases built : EpochChain.build w.listings with
      | error =>
        rw [built] at ok
        cases ok
      | ok chain =>
        rw [built] at ok
        cases image : w.restore c chain with
        | error =>
          simp only [Except.map, bind, Except.bind, image] at ok
          cases ok
        | ok image_ =>
          simp only [Except.map, bind, Except.bind, image] at ok
          refine .inr ⟨newest_, chain, image_, rfl, before, rfl, image, ?_⟩
          split at ok
          · cases ok
            exact .inr rfl
          · cases ok
            exact .inl rfl
    · cases ok

/-- What owners uploaded are pieces of their transactions, after the marker if there is one. -/
structure Kept (c : Contents σ δ) (w : World σ δ) : Prop where
  inside : ∀ e, ∀ o ∈ w.store e, o ∈ w.uploaded e
  idle : ∀ e, w.acts e = none → w.uploaded e = []
  claimed : ∀ e a, w.acts e = some a → e ≤ w.owner
  pieces : ∀ e a, w.acts e = some a → ∀ o ∈ w.uploaded e, Piece c a (w.uploaded e) o
  marker : ∀ e a, w.acts e = some a → a.paged = true → w.uploaded e ≠ [] →
    ∃ o ∈ w.uploaded e, IsMarker a o
  first : ∀ e a, w.acts e = some a → a.history.first = if a.paged then a.cut + 1 else 1

theorem Kept.store_nil {c : Contents σ δ} (kept : Kept c w) (idle : w.acts epoch = none) :
    w.store epoch = [] := by
  refine eq_nil_iff_forall_not_mem.mpr fun o mem => ?_
  have uploaded := kept.inside epoch o mem
  rw [kept.idle epoch idle] at uploaded
  cases uploaded

/-- An epoch that holds objects was activated. -/
theorem Kept.active {c : Contents σ δ} (kept : Kept c w) (some_ : w.store epoch ≠ []) :
    ∃ a, w.acts epoch = some a :=
  Option.ne_none_iff_exists'.mp fun idle => some_ (kept.store_nil idle)

theorem kept_start (c : Contents σ δ) : Kept c start where
  inside _ _ mem := mem
  idle _ _ := rfl
  claimed _ _ active := by cases active
  pieces _ _ active := by cases active
  marker _ _ active := by cases active
  first _ _ active := by cases active

/-- The step of an activation changes nothing, or adds the activation. -/
theorem step_activate (c : Contents σ δ) (w : World σ δ) (epoch : ℕ) (paged : Bool) (txn : ℕ → δ) :
    w.step c (.activate epoch paged txn) = w ∨
      ∃ a, epoch ≤ w.owner ∧ w.acts epoch = none ∧ w.activation c epoch paged txn = .ok a ∧
        w.step c (.activate epoch paged txn)
          = { w with acts := update w.acts epoch (some a) } := by
  unfold step
  dsimp only
  split
  · rename_i fresh
    split
    · rename_i a ok
      exact .inr ⟨a, fresh.1, Option.isNone_iff_eq_none.mp fresh.2, ok, rfl⟩
    · exact .inl rfl
  · exact .inl rfl

theorem Kept.upload {c : Contents σ δ} {a : Activation σ δ} {o : Object δ} (kept : Kept c w)
    (active : w.acts epoch = some a) (piece : Piece c a (w.uploaded epoch) o)
    (first : a.paged = true → w.uploaded epoch = [] → IsMarker a o) :
    Kept c (w.step c (.upload epoch o)) := by
  refine ⟨fun e => ?_, fun e idle => ?_, kept.claimed, fun e b active_ => ?_,
    fun e b active_ paged some_ => ?_, kept.first⟩
  · show ∀ o' ∈ update w.store epoch (put o (w.store epoch)) e,
      o' ∈ update w.uploaded epoch (put o (w.uploaded epoch)) e
    by_cases here : e = epoch
    · subst here
      rw [update_self, update_self]
      intro o' mem
      rcases mem_cons.mp mem with rfl | old
      · exact mem_put
      · obtain ⟨mem, differs⟩ := mem_filter.mp old
        exact mem_cons_of_mem _ (mem_filter.mpr ⟨kept.inside e o' mem, differs⟩)
    · rw [update_of_ne here, update_of_ne here]
      exact kept.inside e
  · have other : e ≠ epoch := by
      rintro rfl
      cases active.symm.trans idle
    show update w.uploaded epoch _ e = []
    rw [update_of_ne other]
    exact kept.idle e idle
  · intro o' mem
    have old : Piece c b (w.uploaded e) o' := by
      rcases mem_of_mem_update mem with ⟨rfl, rfl⟩ | old
      · cases active.symm.trans active_
        exact piece
      · exact kept.pieces e b active_ o' old
    exact old.mono fun e' mem => exists_mem_update mem
  · by_cases empty : w.uploaded e = []
    · have here : e = epoch := by
        by_contra other
        exact some_ ((update_of_ne other _ _).trans empty)
      subst here
      cases active.symm.trans active_
      refine ⟨o, ?_, first paged empty⟩
      show o ∈ update w.uploaded e _ e
      rw [update_self]
      exact mem_put
    · obtain ⟨_, mem, marks⟩ := kept.marker e b active_ paged empty
      obtain ⟨m', mem', same⟩ := exists_mem_update mem
      obtain ⟨low, high⟩ := txids_of_key same
      exact ⟨m', mem', low.trans marks.1, high.trans marks.2⟩

/-- **Every legal step keeps it.** -/
theorem Kept.step {c : Contents σ δ} {action : Action δ} (kept : Kept c w)
    (legal : w.Legal c action) : Kept c (w.step c action) := by
  cases action with
  | claim =>
    refine ⟨kept.inside, kept.idle, fun e a active => ?_, kept.pieces, kept.marker, kept.first⟩
    exact (kept.claimed e a active).trans (Nat.le_max_left _ _)
  | activate epoch paged txn =>
    rcases step_activate c w epoch paged txn with same | ⟨a, within, idle, ok, eq⟩
    · rw [same]
      exact kept
    · rw [eq]
      have empty := kept.idle epoch idle
      refine ⟨kept.inside, fun e idle_ => ?_, fun e b active => ?_, fun e b active => ?_,
        fun e b active => ?_, fun e b active => ?_⟩
      · by_cases here : e = epoch
        · rw [here]
          exact empty
        · exact kept.idle e ((update_of_ne here _ _).symm.trans idle_)
      · rcases update_eq_some active with ⟨rfl, rfl⟩ | ⟨_, old⟩
        · exact within
        · exact kept.claimed e b old
      · rcases update_eq_some active with ⟨rfl, rfl⟩ | ⟨_, old⟩
        · intro _ mem
          rw [empty] at mem
          cases mem
        · exact kept.pieces e b old
      · rcases update_eq_some active with ⟨rfl, rfl⟩ | ⟨_, old⟩
        · exact fun _ some_ => absurd empty some_
        · exact kept.marker e b old
      · rcases update_eq_some active with ⟨rfl, rfl⟩ | ⟨_, old⟩
        · rcases activation_cases ok with rfl | ⟨_, _, _, _, _, _, _, rfl | rfl⟩ <;> rfl
        · exact kept.first e b old
  | upload =>
    obtain ⟨a, active, piece, first⟩ := legal
    exact kept.upload active piece first

/-- The steps one after the other. -/
def run (c : Contents σ δ) (w : World σ δ) (actions : List (Action δ)) : World σ δ :=
  actions.foldl (step c) w

theorem Reachable.run {c : Contents σ δ} {allowed : World σ δ → Action δ → Prop}
    {actions : List (Action δ)} (reachable : Reachable c allowed w)
    (legal : LegalRun (World.step c) (fun w action => w.Legal c action ∧
      allowed w action) w actions) :
    Reachable c allowed (w.run c actions) :=
  legal.keeps (fun _ _ reachable legal => reachable.step legal.1 legal.2) reachable

theorem Reachable.kept {c : Contents σ δ} {allowed : World σ δ → Action δ → Prop}
    (reachable : Reachable c allowed w) : Kept c w := by
  induction reachable with
  | start => exact kept_start c
  | step _ legal _ ih => exact ih.step legal

end World

/-! ## A database of one number -/

/-- A transaction writes the number, and the marker leaves it. -/
def register : Contents ℕ (Option ℕ) where
  apply d s := d.getD s
  blank := 0
  marker _ _ := none

theorem carries_register {states : ℕ → ℕ} {low high : ℕ} {d : Option ℕ} :
    Carries register.apply states low high d ↔
      (∀ t < high, low ≤ t + 1 → d.getD (states t) = states high) ∧
        (low = 1 → d = some (states high)) := by
  constructor
  · rintro ⟨step, whole⟩
    refine ⟨fun t below above => step t above below, fun one => ?_⟩
    cases d with
    | some => exact congrArg some (whole one 0)
    | none => exact absurd (whole one (states high + 1)) (Nat.succ_ne_self _)
  · rintro ⟨step, whole⟩
    refine ⟨fun t above below => step t below above, fun one s => ?_⟩
    rw [whole one]
    rfl

instance decidableCarries (states : ℕ → ℕ) (low high : ℕ) (d : Option ℕ) :
    Decidable (Carries register.apply states low high d) := decidable_of_iff _ carries_register.symm

namespace World

/-- What the activation of an epoch says of itself: whether it is paged, its source and cut,
its first transaction, and the state after one. -/
def summary {σ δ : Type} (c : Contents σ δ) (w : World σ δ) (epoch txid : ℕ) :
    Option (Bool × ℕ × ℕ × ℕ × σ) :=
  (w.acts epoch).map fun a =>
    (a.paged, a.source, a.cut, a.history.first, a.history.stateAt c.apply txid)

/-- The epochs of the chain over all that is listed, and what it restores. -/
def restored {σ δ : Type} (c : Contents σ δ) (w : World σ δ) : Except Error (List ℕ × σ) := do
  let chain ← EpochChain.build w.listings
  let image ← w.restore c chain
  .ok (chain.map Span.epoch, image)

instance decidablePiece (a : Activation ℕ (Option ℕ)) (objects : List (Object (Option ℕ)))
    (o : Object (Option ℕ)) : Decidable (Piece register a objects o) :=
  decidable_of_iff _ (piece_iff register a objects o).symm

instance decidableIsMarker (a : Activation ℕ (Option ℕ)) (o : Object (Option ℕ)) :
    Decidable (IsMarker a o) := inferInstanceAs (Decidable (_ ∧ _))

instance decidableLegal (w : World ℕ (Option ℕ)) : ∀ action, Decidable (w.Legal register action)
  | .claim _ | .activate _ _ _ => .isTrue trivial
  | .upload epoch o => inferInstanceAs (Decidable (∃ a ∈ w.acts epoch,
      Piece register a (w.uploaded epoch) o ∧
        (a.paged = true → w.uploaded epoch = [] → IsMarker a o)))

end World

end Celld.Replica
