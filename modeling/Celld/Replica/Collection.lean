import Celld.Replica.Stability

/-!
# Deleting superseded epochs

The owner of an epoch scans the listing, and plans to delete the epochs below the base of the
chain it finds.  It then confirms that it still owns the cell, records the base, and deletes.
It may stall between any two of these steps, so its deletes can come late.

`Based w b k cap` says that a walk from an epoch `k`, clipped to transactions up to `cap`,
ends at or above `b`.  It is kept by uploads, and by deletes below `b`; a pass that is
confirmed leaves such a `b` at or above its base.
-/

namespace Celld.Replica

open Function List Ltx Option Wire EpochChain

/-! ## The plan of a pass -/

variable {recorded : Option ℕ}

structure ListedEpoch where
  epoch : ℕ
  newestMs : ℕ

namespace EpochGc

structure Plan where
  /-- The base of the chain. -/
  retiredBelow : ℕ
  /-- The mark must be raised before any delete. -/
  record : Bool
  delete : List ℕ

def plan (ownEpoch : ℕ) (chain : List ℕ) (listed : List ListedEpoch) (recorded : Option ℕ)
    (pinnedReads : Bool) (nowMs graceMs : ℕ) : Option Plan :=
  if pinnedReads ∨ chain.getLast? ≠ some ownEpoch then none
  else
    match chain.head? with
    | none => none
    | some base =>
        -- A recorded mark above the base: this view is stale.
        if base < recorded.getD 0 then none
        else some {
          retiredBelow := base
          record := recorded ≠ some base
          delete := ((listed.filter fun l => l.epoch < base ∧ l.epoch + 1 < ownEpoch).filter
            fun l => graceMs ≤ nowMs - l.newestMs).map ListedEpoch.epoch }

/-- What is deleted lies below the base, and the base is that of the chain. -/
theorem plan_spec {ownEpoch nowMs graceMs : ℕ} {chain : List ℕ} {listed : List ListedEpoch}
    {pinned : Bool} {found : Plan}
    (planned : plan ownEpoch chain listed recorded pinned nowMs graceMs = some found) :
    chain.head? = some found.retiredBelow ∧
      ∀ victim ∈ found.delete, victim < found.retiredBelow := by
  unfold plan at planned
  split at planned
  · cases planned
  · cases base : chain.head? with
    | none =>
      simp only [base] at planned
      cases planned
    | some =>
      simp only [base] at planned
      split at planned
      · cases planned
      · cases planned
        refine ⟨rfl, fun victim mem => ?_⟩
        obtain ⟨_, listed_, rfl⟩ := mem_map.mp mem
        have below := (mem_filter.mp (mem_filter.mp listed_).1).2
        exact (of_decide_eq_true below).1

end EpochGc

structure EpochScan where
  newest : ℕ
  /-- The restore chain over every listed epoch, oldest first. -/
  chain : List ℕ
  below : List ListedEpoch
  /-- There are more epochs below the base than the scan summarised. -/
  moreBelow : Bool

namespace World

variable {σ δ : Type}

/-- When the newest object of an epoch was written. -/
def newestMs (objects : List (Object δ)) : ℕ :=
  (objects.map fun o => o.info.createdAt.getD 0).foldl max 0

/-- The epochs as a restore sees them. -/
def scanEpochs (w : World σ δ) (maxBelow : ℕ) : Option EpochScan :=
  match w.nonemptyEpochs.getLast? with
  | none => none
  | some newest =>
      match build w.listings with
      | .error _ => none
      | .ok chain =>
          match calcRestorePlan chain.ltxFiles 0 with
          | .error _ => none
          | .ok _ =>
              let epochs := chain.map Span.epoch
              let superseded := w.nonemptyEpochs.filter fun e => e < epochs.head?.getD newest
              some {
                newest
                chain := epochs
                below := (superseded.take maxBelow).map fun e => ⟨e, newestMs (w.store e)⟩
                moreBelow := maxBelow < superseded.length }

end World

/-! ## Passes -/

structure Pass where
  epoch : ℕ
  plan : EpochGc.Plan
  confirmed : Bool
  recorded : Bool

/-- A cell's bucket and the passes over it. -/
structure GcWorld (σ δ : Type) where
  world : World σ δ
  /-- The activation of the epoch reads its chain no more: its restore is done, and its fill
  if it is paged. -/
  finished : ℕ → Bool
  mark : Option ℕ
  passes : ℕ → Option Pass
  /-- The epochs that were deleted. -/
  deleted : List ℕ

inductive GcAction (δ : Type) where
  | cell (action : Action δ)
  | finish (epoch : ℕ)
  | scan (id epoch : ℕ) (recorded : Option ℕ) (nowMs graceMs : ℕ)
  | confirm (id : ℕ)
  | record (id : ℕ)
  | delete (id victim : ℕ)

namespace GcWorld

variable {σ δ : Type}

def start : GcWorld σ δ where
  world := .start
  finished _ := false
  mark := none
  passes _ := none
  deleted := []

def epochsPerPass : ℕ := 64

/-- The plan of the owner of an epoch.  The mark it read may be a cached one. -/
def gcPlan (g : GcWorld σ δ) (epoch : ℕ) (recorded : Option ℕ) (nowMs graceMs : ℕ) :
    Option EpochGc.Plan :=
  let pinnedReads := !g.finished epoch
  if (g.world.acts epoch).isNone ∨ pinnedReads then none
  else
    match g.world.scanEpochs epochsPerPass with
    | none => none
    | some scan =>
        if scan.newest ≠ epoch then none
        else EpochGc.plan epoch scan.chain scan.below recorded pinnedReads nowMs graceMs

def step (c : Contents σ δ) (g : GcWorld σ δ) : GcAction δ → GcWorld σ δ
  | .cell action => { g with world := g.world.step c action }
  | .finish epoch => { g with finished := update g.finished epoch true }
  | .scan id epoch recorded nowMs graceMs =>
      match g.passes id, g.gcPlan epoch recorded nowMs graceMs with
      | none, some plan =>
          { g with passes := update g.passes id (some ⟨epoch, plan, false, false⟩) }
      | _, _ => g
  | .confirm id =>
      match g.passes id with
      | some p =>
          if g.world.owner = p.epoch then
            { g with passes := update g.passes id (some { p with confirmed := true }) }
          else g
      | none => g
  | .record id =>
      match g.passes id with
      | some p =>
          if p.confirmed then
            { g with
              mark := some p.plan.retiredBelow
              passes := update g.passes id (some { p with recorded := true }) }
          else g
      | none => g
  | .delete id victim =>
      match g.passes id with
      | some p =>
          if p.confirmed ∧ (p.plan.record → p.recorded) ∧ victim ∈ p.plan.delete then
            { g with
              world := { g.world with store := update g.world.store victim [] }
              deleted := victim :: g.deleted }
          else g
      | none => g

def Legal (c : Contents σ δ) (g : GcWorld σ δ) : GcAction δ → Prop
  | .cell action => g.world.Legal c action
  | _ => True

inductive Reachable (c : Contents σ δ) (allowed : GcWorld σ δ → GcAction δ → Prop) :
    GcWorld σ δ → Prop
  | start : Reachable c allowed start
  | step {g : GcWorld σ δ} {action : GcAction δ} (earlier : Reachable c allowed g)
      (legal : g.Legal c action) (allow : allowed g action) : Reachable c allowed (g.step c action)

end GcWorld

/-! ## Where a walk ends -/

namespace World

variable {σ δ : Type} {chain : EpochChain}

/-- A walk from `k`, clipped to the transactions up to `cap`, ends at or above `b`: at an epoch
that opens with a full image, or by a link to one that is not below what was continued. -/
inductive Based (w : World σ δ) (b : ℕ) : ℕ → ℕ → Prop
  | opens {k cap : ℕ} (above : b ≤ k)
      (image : ∃ o ∈ w.store k, o.info.minTxid = 1 ∧ o.info.maxTxid ≤ cap) : Based w b k cap
  | links {k cap j : ℕ} {a : Activation σ δ} (active : w.acts k = some a) (paged : a.paged = true)
      (after : a.source ≤ j) (before : j < k) (ends : ∃ o ∈ w.store j, o.info.maxTxid = a.cut)
      (older : Based w b j a.cut) : Based w b k cap

/-- No continued epoch between another one and its source ends where the source did. -/
def Apart (w : World σ δ) : Prop :=
  ∀ k a, w.acts k = some a → a.paged = true → ∀ e d, w.acts e = some d → d.paged = true →
    a.source < e → e < k → ∀ o ∈ w.store e, o.info.maxTxid ≠ a.cut

section Based

variable {c : Contents σ δ} {w w' : World σ δ} {b k cap lo : ℕ} {a : Activation σ δ}

theorem Based.above (based : Based w b k cap) : b ≤ k := by
  induction based with
  | opens above => exact above
  | links _ _ _ before _ _ ih => exact ih.trans before.le

theorem Based.cap_le (based : Based w b k cap) {cap' : ℕ} (le : cap ≤ cap') : Based w b k cap' := by
  cases based with
  | opens above image =>
    obtain ⟨o, stored, one, upTo⟩ := image
    exact .opens above ⟨o, stored, one, upTo.trans le⟩
  | links active paged after before ends older => exact .links active paged after before ends older

theorem Based.mono_base {b' : ℕ} (based : Based w b k cap) (le : b' ≤ b) : Based w b' k cap := by
  induction based with
  | opens above image => exact .opens (le.trans above) image
  | links active paged after before ends _ ih => exact .links active paged after before ends ih

/-- What stands at or above `b` is enough. -/
theorem Based.mono (based : Based w b k cap)
    (kept : ∀ e, b ≤ e → ∀ o ∈ w.store e, ∃ o' ∈ w'.store e, o'.info.key = o.info.key)
    (acts : ∀ e a, w.acts e = some a → w'.acts e = some a) : Based w' b k cap := by
  induction based with
  | opens above image =>
    obtain ⟨o, stored, one, upTo⟩ := image
    obtain ⟨o', stored', same⟩ := kept _ above o stored
    obtain ⟨low, high⟩ := txids_of_key same
    exact .opens above ⟨o', stored', low.trans one, high.trans_le upTo⟩
  | links active paged after before ends older ih =>
    obtain ⟨o, stored, eq⟩ := ends
    obtain ⟨o', stored', same⟩ := kept _ older.above o stored
    exact .links (acts _ _ active) paged after before
      ⟨o', stored', (txids_of_key same).2.trans eq⟩ ih

/-- What the epochs at or above `b` hold is what their owners uploaded. -/
structure WholeAbove (c : Contents σ δ) (w : World σ δ) (b : ℕ) : Prop extends Kept c w where
  whole : ∀ e, b ≤ e → w.store e = w.uploaded e

theorem WholeAbove.epochOk (whole : WholeAbove c w b) (above : b ≤ k)
    (active : w.acts k = some a) : w.EpochOk c k a := by
  refine ⟨?_, whole.first k a active⟩
  rw [whole.whole k above]
  exact whole.pieces k a active

theorem EpochOk.based (ok : w.EpochOk c k a) (above : b ≤ k)
    (begins : (w.clipped k cap).begins = some 1) : Based w b k cap := by
  obtain ⟨⟨_, mem, one⟩, _⟩ := begins_eq_some_iff.mp begins
  obtain ⟨⟨o, stored, rfl⟩, upTo⟩ := ok.mem_clip.mp mem
  exact .opens above ⟨o, stored, one, upTo⟩

/-- A cloned epoch begins with a full image. -/
theorem EpochOk.begins_of_cloned (ok : w.EpochOk c k a) (cloned : a.paged = false)
    (begins : (w.clipped k cap).begins = some lo) : lo = 1 := by
  refine (ok.begins_clip begins).elim id fun first => first.trans ?_
  rw [ok.first, cloned]
  rfl

/-- The newest epoch below `k` with an object that ends at the cut. -/
theorem exists_link {cut j : ℕ} (before : j < k) (ends : ∃ o ∈ w.store j, o.info.maxTxid = cut) :
    ∃ link, j ≤ link ∧ link < k ∧ (∃ o ∈ w.store link, o.info.maxTxid = cut) ∧
      ∀ e, link < e → e < k → ∀ o ∈ w.store e, o.info.maxTxid ≠ cut := by
  induction k, before using Nat.le_induction with
  | base =>
    exact ⟨j, le_rfl, lt_add_one j, ends, fun e after before => by omega⟩
  | succ k le ih =>
    by_cases here : ∃ o ∈ w.store k, o.info.maxTxid = cut
    · exact ⟨k, by omega, lt_add_one k, here, fun e after before => by omega⟩
    · obtain ⟨link, after, before, found, skipped⟩ := ih
      refine ⟨link, after, by omega, found, fun e behind upTo o stored eq => ?_⟩
      rcases Nat.lt_succ_iff_lt_or_eq.mp upTo with lower | rfl
      · exact skipped e behind lower o stored eq
      · exact here ⟨o, stored, eq⟩

/-- A chain below what a walk has found: where it ends, and that it is based there. -/
structure Found (w : World σ δ) (b k cap : ℕ) (chain : EpochChain) (base : ℕ) : Prop where
  top : chain.getLast?.map Span.epoch = some k
  bottom : chain.head?.map Span.epoch = some base
  above : b ≤ base
  spans : ∀ span ∈ chain, base ≤ span.epoch
  upTo : ∀ f ∈ chainFiles chain, f.maxTxid ≤ cap
  whole : ∀ o ∈ w.store k, o.info.maxTxid ≤ cap → o.info ∈ chainFiles chain
  based : Based w base k cap

theorem EpochOk.found (ok : w.EpochOk c k a) (above : b ≤ k)
    (begins : (w.clipped k cap).begins = some 1) :
    Found w b k cap [⟨k, 1, w.clipped k cap⟩] k := by
  refine ⟨rfl, rfl, above, fun span mem => ?_, fun f mem => ?_, fun o stored upTo => ?_,
    ok.based le_rfl begins⟩
  · rw [mem_singleton.mp mem]
  · rw [chainFiles, flatMap_singleton] at mem
    exact (ok.mem_clip.mp mem).2
  · rw [chainFiles, flatMap_singleton]
    exact ok.mem_clip.mpr ⟨⟨o, stored, rfl⟩, upTo⟩

/-- A continued epoch on top of the chain of its link. -/
theorem Found.append {base j : ℕ} (older : Found w b j a.cut chain base) (ok : w.EpochOk c k a)
    (active : w.acts k = some a) (paged : a.paged = true) (after : a.source ≤ j) (before : j < k)
    (ends : ∃ o ∈ w.store j, o.info.maxTxid = a.cut) (begins : (w.clipped k cap).begins = some lo) :
    Found w b k cap (chain ++ [⟨k, lo, w.clipped k cap⟩]) base := by
  have nonempty : chain ≠ [] := by
    rintro rfl
    cases older.top
  have cut : a.cut ≤ cap := by
    obtain ⟨⟨f, mem, _⟩, _⟩ := begins_eq_some_iff.mp begins
    obtain ⟨⟨o, stored, rfl⟩, upTo⟩ := ok.mem_clip.mp mem
    have last := (ok.pieces o stored).last
    have first := ok.first
    rw [if_pos paged] at first
    omega
  refine ⟨?_, ?_, older.above, fun span mem => ?_, fun f mem => ?_, fun o stored upTo => ?_,
    .links active paged after before ends older.based⟩
  · rw [getLast?_concat]
    rfl
  · rw [head?_append_of_ne_nil _ nonempty]
    exact older.bottom
  · rcases mem_append.mp mem with here | here
    · exact older.spans span here
    · rw [mem_singleton.mp here]
      exact older.based.above.trans before.le
  · rw [chainFiles, flatMap_append, mem_append] at mem
    rcases mem with here | here
    · exact (older.upTo f here).trans cut
    · rw [flatMap_singleton] at here
      exact (ok.mem_clip.mp here).2
  · rw [chainFiles, flatMap_append, mem_append, flatMap_singleton]
    exact .inr (ok.mem_clip.mpr ⟨⟨o, stored, rfl⟩, upTo⟩)

/-- **A walk from a based epoch ends in a full image, at or above `b`.** -/
theorem WholeAbove.walk_found (whole : WholeAbove c w b) (apart : w.Apart) (based : Based w b k cap)
    (active : w.acts k = some a)
    (begins : (w.clipped k cap).begins = some lo) :
    ∃ chain base, w.Walks k cap lo chain ∧ Found w b k cap chain base := by
  induction based generalizing a lo with
  | @opens k cap above image =>
    have ok := whole.epochOk above active
    have one : lo = 1 := by
      obtain ⟨o, stored, eq, upTo⟩ := image
      have least :=
        (begins_eq_some_iff.mp begins).2 o.info (ok.mem_clip.mpr ⟨⟨o, stored, rfl⟩, upTo⟩)
      obtain ⟨⟨f, mem, _⟩, _⟩ := begins_eq_some_iff.mp begins
      obtain ⟨⟨o', stored', rfl⟩, _⟩ := ok.mem_clip.mp mem
      have positive := (ok.pieces o' stored').valid.1
      omega
    subst one
    exact ⟨_, k, fun newer => if_pos rfl, ok.found above begins⟩
  | @links k cap j a' active' paged after before ends older ih =>
    have same : a' = a := Option.some.inj (active'.symm.trans active)
    rw [same] at paged after ends older ih
    have above := older.above
    have ok := whole.epochOk (above.trans before.le) active
    by_cases one : lo = 1
    · subst one
      exact ⟨_, k, fun newer => if_pos rfl, ok.found (above.trans before.le) begins⟩
    · have first : a.history.first = a.cut + 1 := by
        rw [ok.first, paged]
        rfl
      have lo_eq := ((ok.begins_clip begins).resolve_left one).trans first
      -- The walk goes on with the newest epoch that ends at the cut.
      obtain ⟨link, notBelow, under, found, skipped⟩ := exists_link before ends
      have some_ : w.store link ≠ [] := by
        obtain ⟨o, stored, _⟩ := found
        exact ne_nil_of_mem stored
      obtain ⟨d, active_⟩ := whole.active some_
      have okLink := whole.epochOk (above.trans notBelow) active_
      have files : ∃ f ∈ allFiles (listing (w.store link)), f.maxTxid = a.cut := by
        obtain ⟨o, stored, eq⟩ := found
        exact ⟨o.info, okLink.mem_listed.mpr ⟨o, stored, rfl⟩, eq⟩
      obtain ⟨lo', begins'⟩ := exists_begins_clip files
      have older_ : ∃ chain base, w.Walks link a.cut lo' chain ∧
          Found w b link a.cut chain base := by
        rcases Nat.eq_or_lt_of_le notBelow with rfl | _
        · exact ih active_ begins'
        · -- An epoch in between that ends at the cut is a clone.
          have cloned : d.paged = false := by
            by_contra pages
            obtain ⟨o, stored, eq⟩ := found
            exact apart k a active paged link d active_ (by simpa using pages) (by omega) under
              o stored eq
          have opens := okLink.begins_of_cloned cloned begins'
          subst opens
          exact ⟨_, link, fun newer => if_pos rfl, okLink.found (above.trans notBelow) begins'⟩
      obtain ⟨chain, base, runs, found_⟩ := older_
      refine ⟨_, base, fun newer => ?_,
        found_.append ok active paged (after.trans notBelow) under found begins⟩
      rw [if_neg one, walk_below_skip under lo_eq skipped, below_succ some_,
        walk_link lo_eq files begins', runs, append_assoc]
      rfl

end Based

/-! ## The anchor -/

/-- The owner of `n` has found the base `b`, with transactions up to `cap` listed: whoever
activates later continues `n` or an epoch behind it. -/
structure Anchored (c : Contents σ δ) (w : World σ δ) (n cap b : ℕ) : Prop
    extends WholeAbove c w b where
  apart : w.Apart
  sources : ∀ k a, w.acts k = some a → a.paged = true → a.source < k
  top : n ≤ w.owner
  low : b ≤ n
  anchor : n = 0 ∧ b = 0 ∨
    (∃ o ∈ w.store n, cap ≤ o.info.maxTxid) ∧ ∀ cap', cap ≤ cap' → Based w b n cap'
  linked : ∀ k a, w.acts k = some a → a.paged = true → n < k → n ≤ a.source ∧
    (∃ o ∈ w.store a.source, o.info.maxTxid = a.cut) ∧ Based w b a.source a.cut

theorem anchored_start (c : Contents σ δ) : Anchored c (start : World σ δ) 0 0 0 where
  toKept := kept_start c
  whole _ _ := rfl
  apart _ _ active := by cases active
  sources _ _ active := by cases active
  top := le_rfl
  low := le_rfl
  anchor := .inl ⟨rfl, rfl⟩
  linked _ _ active := by cases active

section Anchored

variable {c : Contents σ δ} {w : World σ δ} {n cap b k : ℕ} {a : Activation σ δ} {txn : ℕ → δ}

/-- An epoch that was activated behind the anchor is based, whatever it has uploaded. -/
theorem Anchored.based_behind (inv : Anchored c w n cap b) {cap' : ℕ} (active : w.acts k = some a)
    (behind : n < k ∨ n = k ∧ n = 0) (some_ : ∃ o ∈ w.store k, o.info.maxTxid ≤ cap') :
    Based w b k cap' := by
  have above : b ≤ k := inv.low.trans (by omega)
  have ok := inv.epochOk above active
  cases begins : ((listing (w.store k)).clip (cap' + 1)).begins with
  | none =>
    obtain ⟨o, stored, upTo⟩ := some_
    have mem := ok.mem_clip.mpr ⟨⟨o, stored, rfl⟩, upTo⟩
    rw [begins_eq_none_iff.mp begins] at mem
    cases mem
  | some =>
    cases paged : a.paged with
    | false =>
      have one := ok.begins_of_cloned paged begins
      subst one
      exact ok.based above begins
    | true =>
      have source := inv.sources k a active paged
      obtain ⟨_, ends, older⟩ := inv.linked k a active paged (by omega)
      exact .links active paged le_rfl source ends older

/-- **The chain over all epochs ends at or above the base.** -/
theorem Anchored.newest_found (inv : Anchored c w n cap b)
    (newest : w.nonemptyEpochs.getLast? = some k) :
    n ≤ k ∧ ∃ a chain base last, w.acts k = some a ∧ build w.listings = .ok chain ∧
      Found w b k last chain base ∧ (∃ o ∈ w.store k, o.info.maxTxid = last) ∧
      chain.maxTxid = last := by
  obtain ⟨_, some_, empty⟩ := getLast?_nonemptyEpochs newest
  obtain ⟨a, active⟩ := inv.active some_
  have le : n ≤ k := by
    rcases inv.anchor with ⟨zero, _⟩ | ⟨⟨o, stored, _⟩, _⟩
    · omega
    · by_contra less
      rw [empty n (by omega) inv.top] at stored
      cases stored
  have ok := inv.epochOk (inv.low.trans le) active
  obtain ⟨last, ends, upTo⟩ := exists_last some_
  have based : Based w b k last := by
    have some' : ∃ o ∈ w.store k, o.info.maxTxid ≤ last := by
      obtain ⟨o, stored, eq⟩ := ends
      exact ⟨o, stored, eq.le⟩
    rcases Nat.eq_or_lt_of_le le with rfl | behind
    · rcases inv.anchor with ⟨zero, _⟩ | ⟨⟨o, stored, reach⟩, based⟩
      · exact inv.based_behind active (.inr ⟨rfl, zero⟩) some'
      · exact based last (reach.trans (upTo o stored))
    · exact inv.based_behind active (.inl behind) some'
  obtain ⟨_, begins, built⟩ := ok.build_eq newest ends upTo
  obtain ⟨chain, base, runs, found⟩ := inv.walk_found inv.apart based active begins
  have nonempty : chain ≠ [] := by
    rintro rfl
    cases found.top
  refine ⟨le, a, chain, base, last, active, built chain runs nonempty, found, ends, ?_⟩
  obtain ⟨o, stored, eq⟩ := ends
  exact foldl_max_eq (mem_map.mpr ⟨o.info, found.whole o stored eq.le, eq⟩)
    (forall_mem_map.mpr found.upTo)

theorem Anchored.build_above (inv : Anchored c w n cap b)
    (built : build w.listings = .ok chain) : ∀ span ∈ chain, b ≤ span.epoch := by
  cases newest : w.nonemptyEpochs.getLast? with
  | none =>
    have none_ : w.listings = [] := by
      rw [listings, getLast?_eq_none_iff.mp newest]
      rfl
    rw [none_] at built
    cases built
  | some =>
    obtain ⟨_, _, _, _, _, _, built', found, _⟩ := inv.newest_found newest
    cases built.symm.trans built'
    exact fun span mem => found.above.trans (found.spans span mem)

/-- What an activation restores lies at or above the base. -/
theorem Anchored.activation_above (inv : Anchored c w n cap b) {paged : Bool}
    (ok : w.activation c k paged txn = .ok a) : ∀ span ∈ a.chain, b ≤ span.epoch := by
  rcases activation_cases ok with rfl | ⟨_, chain, _, _, _, built, _, rfl | rfl⟩
  · intro span mem
    cases mem
  · exact inv.build_above built
  · exact inv.build_above built

/-- A paged activation continues the newest epoch from its last transaction. -/
theorem Anchored.activation_linked (inv : Anchored c w n cap b) {paged : Bool}
    (ok : w.activation c k paged txn = .ok a) (pages : a.paged = true) :
    w.nonemptyEpochs.getLast? = some a.source ∧ a.source < k ∧ n ≤ a.source ∧
      (∃ o ∈ w.store a.source, o.info.maxTxid = a.cut) ∧ Based w b a.source a.cut := by
  rcases activation_cases ok with rfl | ⟨newest, chain, image, top, before, built, _, rfl | rfl⟩
  · cases pages
  · cases pages
  · obtain ⟨le, _, _, _, _, _, built', found, ends, cut⟩ := inv.newest_found top
    cases built.symm.trans built'
    have source : Activation.source
        ⟨chain, true, ⟨image, chain.maxTxid + 1, update txn (chain.maxTxid + 1)
          (c.marker (chain.maxTxid + 1) image)⟩⟩ = newest := by
      simp only [Activation.source, found.top, getD_some]
    rw [source]
    refine ⟨top, before, le, ?_, ?_⟩
    · show ∃ o ∈ w.store newest, o.info.maxTxid = chain.maxTxid
      rw [cut]
      exact ends
    · show Based w b newest chain.maxTxid
      rw [cut]
      exact found.based.mono_base found.above

/-- A later owner finds a base of its own. -/
theorem Anchored.rebase (inv : Anchored c w n cap b) {base last : ℕ} (owner : w.owner = k)
    (found : Found w b k last chain base)
    (ends : ∃ o ∈ w.store k, o.info.maxTxid = last) : Anchored c w k last base where
  toKept := inv.toKept
  whole e above := inv.whole e (found.above.trans above)
  apart := inv.apart
  sources := inv.sources
  top := owner.ge
  low := found.based.above
  anchor := by
    obtain ⟨o, stored, eq⟩ := ends
    exact .inr ⟨⟨o, stored, eq.ge⟩, fun cap' le => found.based.cap_le le⟩
  linked e d active _ behind := by
    have claimed := inv.claimed e d active
    omega

/-- Where no name at or above the base is lost, and who activates anew is linked, the anchor
holds on. -/
theorem Anchored.mono {w' : World σ δ} (inv : Anchored c w n cap b) (whole : WholeAbove c w' b)
    (apart : w'.Apart) (owner : w.owner ≤ w'.owner)
    (kept : ∀ e, b ≤ e → ∀ o ∈ w.store e, ∃ o' ∈ w'.store e, o'.info.key = o.info.key)
    (acts : ∀ e a, w.acts e = some a → w'.acts e = some a)
    (new : ∀ k a, w'.acts k = some a → w.acts k = some a ∨ (a.paged = true → a.source < k ∧
      n ≤ a.source ∧ (∃ o ∈ w.store a.source, o.info.maxTxid = a.cut) ∧
      Based w b a.source a.cut)) : Anchored c w' n cap b := by
  refine ⟨whole, apart, fun k a active paged => ?_, inv.top.trans owner, inv.low,
    inv.anchor.imp_right ?_, fun k a active paged behind => ?_⟩
  · rcases new k a active with old | new
    · exact inv.sources k a old paged
    · exact (new paged).1
  · rintro ⟨⟨o, stored, reach⟩, older⟩
    obtain ⟨o', stored', same⟩ := kept n inv.low o stored
    exact ⟨⟨o', stored', (txids_of_key same).2 ▸ reach⟩,
      fun cap' le => (older cap' le).mono kept acts⟩
  · have linked : n ≤ a.source ∧ (∃ o ∈ w.store a.source, o.info.maxTxid = a.cut) ∧
        Based w b a.source a.cut := by
      rcases new k a active with old | new
      · exact inv.linked k a old paged behind
      · exact (new paged).2
    obtain ⟨le, ⟨o, stored, eq⟩, older⟩ := linked
    obtain ⟨o', stored', same⟩ := kept a.source older.above o stored
    exact ⟨le, ⟨o', stored', (txids_of_key same).2.trans eq⟩, older.mono kept acts⟩

/-- Deletes below the base change nothing. -/
theorem Anchored.delete (inv : Anchored c w n cap b) {victim : ℕ} (below : victim < b) :
    Anchored c { w with store := update w.store victim [] } n cap b := by
  have other : ∀ e, b ≤ e → update w.store victim [] e = w.store e := fun e above =>
    update_of_ne (by omega) _ _
  have sub : ∀ e, ∀ o ∈ update w.store victim [] e, o ∈ w.store e := by
    intro e o mem
    by_cases here : e = victim
    · rw [here, update_self] at mem
      cases mem
    · rwa [update_of_ne here] at mem
  refine inv.mono ⟨⟨fun e o mem => inv.inside e o (sub e o mem), inv.idle, inv.claimed, inv.pieces,
    inv.marker, inv.first⟩, fun e above => (other e above).trans (inv.whole e above)⟩
    (fun k a active paged e d active' paged' after before o stored => ?_) le_rfl
    (fun e above o stored => ⟨o, ?_, rfl⟩) (fun _ _ active => active) fun _ _ active => .inl active
  · exact inv.apart k a active paged e d active' paged' after before o (sub e o stored)
  · show o ∈ update w.store victim [] e
    rwa [other e above]

/-- No object lands in a continued epoch, between another one and its source, that ends where
the source did. -/
def Guarded (w : World σ δ) : Action δ → Prop
  | .upload e o => ∀ k a d, w.acts k = some a → a.paged = true → w.acts e = some d →
      d.paged = true → a.source < e → e < k → o.info.maxTxid ≠ a.cut
  | _ => True

theorem Anchored.upload (inv : Anchored c w n cap b) {e : ℕ} {o : Object δ}
    (legal : w.Legal c (.upload e o)) (guarded : w.Guarded (.upload e o)) :
    Anchored c (w.step c (.upload e o)) n cap b := by
  refine inv.mono ⟨inv.toKept.step legal, fun k above => ?_⟩
    (fun k a active paged e' d active' paged' after before o' mem => ?_) le_rfl
    (fun k _ o' stored => exists_mem_update stored) (fun _ _ active => active)
    fun _ _ active => .inl active
  · show update w.store e (put o (w.store e)) k
      = update w.uploaded e (put o (w.uploaded e)) k
    by_cases here : k = e
    · subst here
      rw [update_self, update_self, inv.whole k above]
    · rw [update_of_ne here, update_of_ne here]
      exact inv.whole k above
  · rcases mem_of_mem_update mem with ⟨rfl, rfl⟩ | stored
    · exact guarded k a d active paged active' paged' after before
    · exact inv.apart k a active paged e' d active' paged' after before o' stored

theorem Anchored.activate (inv : Anchored c w n cap b) {paged : Bool} (within : k ≤ w.owner)
    (idle : w.acts k = none) (ok : w.activation c k paged txn = .ok a)
    (kept : Kept c { w with acts := update w.acts k (some a) }) :
    Anchored c { w with acts := update w.acts k (some a) } n cap b := by
  refine inv.mono ⟨kept, inv.whole⟩
    (fun j d active pages e d' active' pages' after before o stored => ?_) le_rfl
    (fun _ _ o stored => ⟨o, stored, rfl⟩) (fun e d active => ?_) fun j d active => ?_
  · change o ∈ w.store e at stored
    rcases update_eq_some active' with ⟨rfl, rfl⟩ | ⟨_, old'⟩
    · rw [inv.store_nil idle] at stored
      cases stored
    · rcases update_eq_some active with ⟨rfl, rfl⟩ | ⟨_, old⟩
      · -- The epochs behind the source were empty.
        obtain ⟨newest, _⟩ := inv.activation_linked ok pages
        rw [(getLast?_nonemptyEpochs newest).2.2 e after (before.le.trans within)] at stored
        cases stored
      · exact inv.apart j d old pages e d' old' pages' after before o stored
  · have other : e ≠ k := by
      rintro rfl
      cases idle.symm.trans active
    exact (update_of_ne other _ _).trans active
  · rcases update_eq_some active with ⟨rfl, rfl⟩ | ⟨_, old⟩
    · exact .inr fun pages => (inv.activation_linked ok pages).2
    · exact .inl old

/-- **Every guarded step of the cell keeps the anchor.** -/
theorem Anchored.step (inv : Anchored c w n cap b) {action : Action δ} (legal : w.Legal c action)
    (guarded : w.Guarded action) : Anchored c (w.step c action) n cap b := by
  cases action with
  | claim =>
    exact inv.mono ⟨inv.toKept.step legal, inv.whole⟩ inv.apart (Nat.le_max_left ..)
      (fun _ _ o stored => ⟨o, stored, rfl⟩) (fun _ _ active => active)
      fun _ _ active => .inl active
  | activate epoch paged txn =>
    have kept := inv.toKept.step legal
    rcases step_activate c w epoch paged txn with same | ⟨_, within, idle, ok, eq⟩
    · rw [same]
      exact inv
    · rw [eq] at kept ⊢
      exact inv.activate within idle ok kept
  | upload => exact inv.upload legal guarded

end Anchored

end World

/-! ## What passes delete -/

namespace GcWorld

variable {σ δ : Type} {c : Contents σ δ} {g : GcWorld σ δ}

/-- Late uploads are guarded, and when a pass deletes, the activations of lower epochs are done
with their chains. -/
def Guarded (g : GcWorld σ δ) : GcAction δ → Prop
  | .cell action => g.world.Guarded action
  | .delete id _ => ∀ p, g.passes id = some p → ∀ k a, g.world.acts k = some a → k < p.epoch →
      g.finished k = true
  | _ => True

structure GcInv (c : Contents σ δ) (g : GcWorld σ δ) (n cap b : ℕ) : Prop
    extends g.world.Anchored c n cap b where
  held : ∀ id p, g.passes id = some p → g.world.acts p.epoch ≠ none
  done : ∀ id p, g.passes id = some p → g.finished p.epoch = true
  victims : ∀ id p, g.passes id = some p → ∀ victim ∈ p.plan.delete, victim < p.plan.retiredBelow
  /-- A pass that is confirmed, or can be. -/
  live : ∀ id p, g.passes id = some p → p.confirmed = true ∨ g.world.owner = p.epoch →
    p.plan.retiredBelow ≤ b
  successors : ∀ id p, g.passes id = some p → p.confirmed = true → ∀ m a,
    g.world.acts m = some a → p.epoch < m → ∀ span ∈ a.chain, p.plan.retiredBelow ≤ span.epoch
  unread : ∀ victim ∈ g.deleted, victim < b ∧ ∀ m a, g.world.acts m = some a →
    g.finished m = false → ∀ span ∈ a.chain, span.epoch ≠ victim

section Safety

variable {c : Contents σ δ} {g : GcWorld σ δ} {n cap b id : ℕ}

theorem gcInv_start (c : Contents σ δ) : GcInv c (start : GcWorld σ δ) 0 0 0 where
  toAnchored := World.anchored_start c
  held _ _ pass := by cases pass
  done _ _ pass := by cases pass
  victims _ _ pass := by cases pass
  live _ _ pass := by cases pass
  successors _ _ pass := by cases pass
  unread _ mem := by cases mem

theorem GcInv.claimed_pass (inv : GcInv c g n cap b) {p : Pass}
    (pass : g.passes id = some p) : p.epoch ≤ g.world.owner := by
  obtain ⟨a, active⟩ := ne_none_iff_exists'.mp (inv.held id p pass)
  exact inv.claimed p.epoch a active

/-- The plan of a pass is that of the chain over all epochs, whose newest is its own. -/
theorem gcPlan_eq_some {epoch nowMs graceMs : ℕ} {plan : EpochGc.Plan}
    (planned : g.gcPlan epoch recorded nowMs graceMs = some plan) :
    g.world.acts epoch ≠ none ∧ g.finished epoch = true ∧
      g.world.nonemptyEpochs.getLast? = some epoch ∧
      (∃ chain, build g.world.listings = .ok chain ∧
        chain.head?.map Span.epoch = some plan.retiredBelow) ∧
      ∀ victim ∈ plan.delete, victim < plan.retiredBelow := by
  unfold gcPlan at planned
  dsimp only at planned
  split at planned
  · cases planned
  · rename_i resident
    obtain ⟨active, done⟩ := not_or.mp resident
    have finished : g.finished epoch = true := by simpa using done
    unfold World.scanEpochs at planned
    cases newest : g.world.nonemptyEpochs.getLast? with
    | none =>
      simp only [newest] at planned
      cases planned
    | some newest_ =>
      cases built : build g.world.listings with
      | error =>
        simp only [newest, built] at planned
        cases planned
      | ok chain =>
        cases plan_ : calcRestorePlan chain.ltxFiles 0 with
        | error =>
          simp only [newest, built, plan_] at planned
          cases planned
        | ok files =>
          simp only [newest, built, plan_] at planned
          split at planned
          · cases planned
          · rename_i own
            obtain ⟨_, below⟩ := EpochGc.plan_spec planned
            refine ⟨by simpa using active, finished, congrArg some (not_not.mp own),
              ⟨chain, rfl, ?_⟩, below⟩
            rwa [← head?_map]

/-- What a change of the cell leaves of the passes. -/
theorem GcInv.cell (inv : GcInv c g n cap b) {action : Action δ} (legal : g.world.Legal c action)
    (guarded : g.world.Guarded action) : GcInv c (g.step c (.cell action)) n cap b := by
  have anchored := inv.toAnchored.step legal guarded
  cases action with
  | claim epoch =>
    refine ⟨anchored, inv.held, inv.done, inv.victims, fun id p pass live => ?_, inv.successors,
      inv.unread⟩
    refine inv.live id p pass (live.imp_right fun owner => ?_)
    have before := inv.claimed_pass pass
    have now : max g.world.owner epoch = p.epoch := owner
    omega
  | activate epoch paged txn =>
    rcases World.step_activate c g.world epoch paged txn with same | ⟨a, _, _, ok, eq⟩
    · have none_ : g.step c (.cell (.activate epoch paged txn)) = g :=
        congrArg (fun w => { g with world := w }) same
      rw [none_]
      exact inv
    · have above := inv.activation_above ok
      have new : g.step c (.cell (.activate epoch paged txn))
          = { g with world := { g.world with
              acts := update g.world.acts epoch (some a) } } :=
        congrArg (fun w => { g with world := w }) eq
      rw [eq] at anchored
      rw [new]
      refine ⟨anchored, fun id p pass => ?_, inv.done, inv.victims, inv.live,
        fun id p pass confirmed m d active behind span mem => ?_, fun victim mem =>
          ⟨(inv.unread victim mem).1, fun m d active unfinished span inside => ?_⟩⟩
      · show update g.world.acts epoch (some a) p.epoch ≠ none
        by_cases here : p.epoch = epoch
        · rw [here, update_self]
          exact some_ne_none a
        · rw [update_of_ne here]
          exact inv.held id p pass
      · rcases update_eq_some active with ⟨_, rfl⟩ | ⟨_, old⟩
        · exact (inv.live id p pass (.inl confirmed)).trans (above span mem)
        · exact inv.successors id p pass confirmed m d old behind span mem
      · rcases update_eq_some active with ⟨_, rfl⟩ | ⟨_, old⟩
        · have low := (inv.unread victim mem).1
          exact (low.trans_le (above span inside)).ne'
        · exact (inv.unread victim mem).2 m d old unfinished span inside
  | upload =>
    exact ⟨anchored, inv.held, inv.done, inv.victims, inv.live, inv.successors, inv.unread⟩

/-- What is known of a pass where the base is `b`. -/
structure Passing (g : GcWorld σ δ) (b : ℕ) (p : Pass) : Prop where
  held : g.world.acts p.epoch ≠ none
  done : g.finished p.epoch = true
  victims : ∀ victim ∈ p.plan.delete, victim < p.plan.retiredBelow
  live : p.confirmed = true ∨ g.world.owner = p.epoch → p.plan.retiredBelow ≤ b
  successors : p.confirmed = true → ∀ m a, g.world.acts m = some a → p.epoch < m →
    ∀ span ∈ a.chain, p.plan.retiredBelow ≤ span.epoch

/-- A pass that is new or further on, where the base is the same or a higher one. -/
theorem GcInv.put (inv : GcInv c g n cap b) {n' cap' b' : ℕ} {p : Pass} {mark : Option ℕ}
    (le : b ≤ b') (anchored : g.world.Anchored c n' cap' b') (passing : g.Passing b' p) :
    GcInv c { g with mark, passes := update g.passes id (some p) } n' cap' b' := by
  have all : ∀ {id' q}, update g.passes id (some p) id' = some q → g.Passing b' q := by
    intro id' q pass
    rcases update_eq_some pass with ⟨_, rfl⟩ | ⟨_, old⟩
    · exact passing
    · exact ⟨inv.held id' q old, inv.done id' q old, inv.victims id' q old,
        fun live => (inv.live id' q old live).trans le, inv.successors id' q old⟩
  exact ⟨anchored, fun _ _ pass => (all pass).held, fun _ _ pass => (all pass).done,
    fun _ _ pass => (all pass).victims, fun _ _ pass => (all pass).live,
    fun _ _ pass => (all pass).successors, fun victim mem =>
      ⟨(inv.unread victim mem).1.trans_le le, (inv.unread victim mem).2⟩⟩

/-- A pass with a plan: the base it found is the new anchor, if its owner is the last one. -/
theorem GcInv.scan (inv : GcInv c g n cap b) {epoch : ℕ} {plan : EpochGc.Plan} {nowMs graceMs : ℕ}
    (planned : g.gcPlan epoch recorded nowMs graceMs = some plan) :
    ∃ n cap b, GcInv c
      { g with passes := update g.passes id (some ⟨epoch, plan, false, false⟩) } n cap b := by
  obtain ⟨resident, finished, newest, ⟨_, built, head⟩, below⟩ := gcPlan_eq_some planned
  have passing : ∀ {b'}, (g.world.owner = epoch → plan.retiredBelow ≤ b') →
      g.Passing b' ⟨epoch, plan, false, false⟩ := fun live =>
    ⟨resident, finished, below, fun now => live (now.resolve_left Bool.false_ne_true),
      fun confirmed => absurd confirmed Bool.false_ne_true⟩
  by_cases owner : g.world.owner = epoch
  · obtain ⟨_, _, _, base, last, _, built', found, ends, _⟩ := inv.newest_found newest
    cases built.symm.trans built'
    have base_eq : base = plan.retiredBelow := Option.some.inj (found.bottom.symm.trans head)
    exact ⟨epoch, last, base, inv.put found.above (inv.rebase owner found ends)
      (passing fun _ => base_eq.ge)⟩
  · exact ⟨n, cap, b, inv.put le_rfl inv.toAnchored (passing fun now => absurd now owner)⟩

/-- A pass goes on: nothing changes but what it has done. -/
theorem GcInv.advance (inv : GcInv c g n cap b) {p : Pass} {confirmed recorded : Bool}
    {mark : Option ℕ} (pass : g.passes id = some p)
    (confirms : confirmed = true → p.confirmed = true ∨ g.world.owner = p.epoch) :
    GcInv c { g with
      mark
      passes := update g.passes id (some { p with confirmed, recorded }) } n cap b := by
  refine inv.put le_rfl inv.toAnchored ⟨inv.held id p pass, inv.done id p pass,
    inv.victims id p pass, fun live => inv.live id p pass (live.elim confirms .inr),
    fun now m a active behind => ?_⟩
  rcases confirms now with before | owner
  · exact inv.successors id p pass before m a active behind
  · -- Who is the owner has no successor yet.
    have claimed := inv.claimed m a active
    exact absurd (claimed.trans owner.le) behind.not_ge

/-- **Every guarded step keeps what is deleted unread.** -/
theorem GcInv.step (inv : GcInv c g n cap b) {action : GcAction δ} (legal : g.Legal c action)
    (guarded : g.Guarded action) : ∃ n cap b, GcInv c (g.step c action) n cap b := by
  cases action with
  | cell => exact ⟨n, cap, b, inv.cell legal guarded⟩
  | finish epoch =>
    have more : ∀ e, g.finished e = true → update g.finished epoch true e = true := by
      intro e done
      by_cases here : e = epoch
      · rw [here, update_self]
      · rwa [update_of_ne here]
    refine ⟨n, cap, b, inv.toAnchored, inv.held, fun id p pass => more _ (inv.done id p pass),
      inv.victims, inv.live, inv.successors, fun victim mem => ⟨(inv.unread victim mem).1,
        fun m a active unfinished => (inv.unread victim mem).2 m a active ?_⟩⟩
    by_contra done
    rw [Bool.not_eq_false] at done
    exact Bool.false_ne_true (unfinished.symm.trans (more m done))
  | scan id epoch recorded nowMs graceMs =>
    unfold GcWorld.step
    dsimp only
    split
    · rename_i planned
      exact inv.scan planned
    · exact ⟨n, cap, b, inv⟩
  | confirm id =>
    unfold GcWorld.step
    dsimp only
    split
    · rename_i pass
      split
      · rename_i owner
        exact ⟨n, cap, b, inv.advance pass fun _ => .inr owner⟩
      · exact ⟨n, cap, b, inv⟩
    · exact ⟨n, cap, b, inv⟩
  | record id =>
    unfold GcWorld.step
    dsimp only
    split
    · rename_i pass
      split
      · exact ⟨n, cap, b, inv.advance pass .inl⟩
      · exact ⟨n, cap, b, inv⟩
    · exact ⟨n, cap, b, inv⟩
  | delete id victim =>
    unfold GcWorld.step
    dsimp only
    split
    · rename_i p pass
      split
      · rename_i ready
        obtain ⟨confirmed, _, planned⟩ := ready
        have retired := inv.victims id p pass victim planned
        have low := retired.trans_le (inv.live id p pass (.inl confirmed))
        refine ⟨n, cap, b, inv.toAnchored.delete low, inv.held, inv.done, inv.victims, inv.live,
          inv.successors, fun v mem => ?_⟩
        rcases mem_cons.mp mem with rfl | old
        · refine ⟨low, fun m a active unfinished span inside => ?_⟩
          rcases lt_trichotomy m p.epoch with lower | rfl | behind
          · cases unfinished.symm.trans (guarded p pass m a active lower)
          · cases unfinished.symm.trans (inv.done id p pass)
          · exact (retired.trans_le
              (inv.successors id p pass confirmed m a active behind span inside)).ne'
        · exact inv.unread v old
      · exact ⟨n, cap, b, inv⟩
    · exact ⟨n, cap, b, inv⟩

theorem Reachable.gcInv (reachable : Reachable c Guarded g) : ∃ n cap b, GcInv c g n cap b := by
  induction reachable with
  | start => exact ⟨0, 0, 0, gcInv_start c⟩
  | step _ legal guarded ih =>
    obtain ⟨n, cap, b, inv⟩ := ih
    exact inv.step legal guarded

/-- **What a pass deletes is never read again.**  No chain has an epoch below the base of a
confirmed pass; an epoch that was deleted is in no chain, and in none that an activation still
reads. -/
theorem Reachable.deleted_unread (reachable : Reachable c Guarded g) :
    (∀ id p, g.passes id = some p → p.confirmed = true →
      ∀ chain, build g.world.listings = .ok chain →
        ∀ span ∈ chain, p.plan.retiredBelow ≤ span.epoch) ∧
    ∀ victim ∈ g.deleted,
      (∀ chain, build g.world.listings = .ok chain →
        ∀ span ∈ chain, span.epoch ≠ victim) ∧
      ∀ m a, g.world.acts m = some a → g.finished m = false →
        ∀ span ∈ a.chain, span.epoch ≠ victim := by
  obtain ⟨_, _, _, inv⟩ := reachable.gcInv
  refine ⟨fun id p pass confirmed chain built span mem => ?_, fun victim mem =>
    ⟨fun chain built span inside => ?_, (inv.unread victim mem).2⟩⟩
  · exact (inv.live id p pass (.inl confirmed)).trans (inv.build_above built span mem)
  · exact ((inv.unread victim mem).1.trans_le (inv.build_above built span inside)).ne'

end Safety

/-! ## A late marker and a late reader -/

def run (c : Contents σ δ) (g : GcWorld σ δ) (actions : List (GcAction δ)) : GcWorld σ δ :=
  actions.foldl (step c) g

theorem Reachable.run {actions : List (GcAction δ)} (reachable : Reachable c (fun _ _ => True) g)
    (legal : LegalRun (GcWorld.step c) (Legal c) g actions) :
    Reachable c (fun _ _ => True) (g.run c actions) :=
  legal.keeps (fun _ _ reachable legal => reachable.step legal trivial) reachable

instance decidableLegal (g : GcWorld ℕ (Option ℕ)) : ∀ action, Decidable (g.Legal register action)
  | .cell action => inferInstanceAs (Decidable (g.world.Legal register action))
  | .finish _ | .scan _ _ _ _ _ | .confirm _ | .record _ | .delete _ _ => .isTrue trivial

/-- The third epoch continues the first and stalls before its marker.  The second, a clone,
gets an object that ends behind; the fourth continues it, and plans to delete the first. -/
def lateMarker : List (GcAction (Option ℕ)) :=
  [.cell (.claim 1), .cell (.activate 1 false fun _ => some 1),
    .cell (.upload 1 ⟨⟨0, 1, 1, 0, none⟩, some 1⟩),
    .cell (.claim 2), .cell (.activate 2 false some),
    .cell (.claim 3), .cell (.activate 3 true fun _ => some 7),
    .cell (.upload 2 ⟨⟨1, 1, 3, 0, none⟩, some 3⟩),
    .cell (.claim 4), .cell (.activate 4 true fun _ => none),
    .cell (.upload 4 ⟨⟨0, 4, 4, 0, none⟩, none⟩), .finish 4,
    .scan 0 4 none 0 0, .confirm 0, .record 0,
    .cell (.upload 3 ⟨⟨0, 2, 2, 0, none⟩, none⟩),
    .cell (.upload 3 ⟨⟨0, 3, 3, 0, none⟩, some 7⟩)]

/-- The second epoch continues the first, and still reads it when the third, a clone, deletes
it. -/
def lateReader : List (GcAction (Option ℕ)) :=
  [.cell (.claim 1), .cell (.activate 1 false some), .finish 1,
    .cell (.upload 1 ⟨⟨0, 1, 1, 0, none⟩, some 1⟩),
    .cell (.claim 2), .cell (.activate 2 true some),
    .cell (.claim 3), .cell (.activate 3 false some), .finish 3,
    .cell (.upload 3 ⟨⟨0, 1, 1, 0, none⟩, some 1⟩),
    .scan 0 3 none 0 0, .confirm 0, .record 0, .delete 0 1]

theorem lateMarker_legal : LegalRun (step register) (Legal register) start lateMarker := by
  decide +kernel

theorem lateReader_legal : LegalRun (step register) (Legal register) start lateReader := by
  decide +kernel

/-- **A late marker brings back an epoch below a confirmed base.**  The pass of the fourth epoch
has confirmed the base 2 and recorded it.  Then the chain goes by the third epoch down to the
first, and once the pass deletes that one nothing can be restored.

**A late reader loses its chain.**  The pass of the third epoch deletes the first, which a fenced
activation of the second has not read to the end. -/
theorem lateMarker_reenters :
    (Reachable register (fun _ _ => True) (run register start lateMarker) ∧
      ((run register start lateMarker).passes 0).map
        (fun p => (p.confirmed, p.plan.retiredBelow, p.plan.delete)) = some (true, 2, [1]) ∧
      (run register start lateMarker).world.restored register = .ok ([1, 3, 4], 7) ∧
      (run register start (lateMarker ++ [.delete 0 1])).deleted = [1] ∧
      (run register start (lateMarker ++ [.delete 0 1])).world.restored register
        = .error .txNotAvailable) ∧
    Reachable register (fun _ _ => True) (run register start lateReader) ∧
      (run register start lateReader).deleted = [1] ∧
      (run register start lateReader).finished 2 = false ∧
      ((run register start lateReader).world.acts 2).map
        (fun a => (a.paged, a.chain.map Span.epoch)) = some (true, [1]) :=
  ⟨⟨Reachable.start.run lateMarker_legal, by decide +kernel, by decide +kernel, by decide +kernel,
    by decide +kernel⟩, Reachable.start.run lateReader_legal, by decide +kernel, by decide +kernel,
    by decide +kernel⟩

/-- `Guarded` by a computation: uploads are stable, and all lower epochs have finished. -/
def guardedCheck (g : GcWorld σ δ) : GcAction δ → Bool
  | .cell action => g.world.stableCheck action
  | .delete id _ => (g.passes id).all fun p =>
      (List.range p.epoch).all fun k => (g.world.acts k).isNone || g.finished k
  | _ => true

theorem GcInv.guarded {n cap b : ℕ} {action : GcAction δ} (inv : GcInv c g n cap b)
    (check : g.guardedCheck action = true) : g.Guarded action := by
  cases action with
  | cell action =>
    have stable := inv.toKept.stable check
    cases action with
    | upload =>
      exact fun k a _ active paged _ _ after before => stable k a active paged after before
    | _ => trivial
  | delete =>
    intro _ pass k a active lower
    simp only [guardedCheck, pass, all_some] at check
    simpa [active] using all_eq_true.mp check k (mem_range.mpr lower)
  | _ => trivial

theorem Reachable.run_checked {actions : List (GcAction δ)} (reachable : Reachable c Guarded g)
    (legal : LegalRun (GcWorld.step c) (fun g action => g.Legal c action ∧
      g.guardedCheck action = true) g
      actions) : Reachable c Guarded (g.run c actions) := by
  refine legal.keeps (fun _ _ reachable legal => ?_) reachable
  obtain ⟨_, _, _, inv⟩ := reachable.gcInv
  exact reachable.step legal.1 (inv.guarded legal.2)

/-- The third epoch continues the second, a clone, and deletes the first; the owner of the first
writes into it once more. -/
def lateWrite : List (GcAction (Option ℕ)) :=
  [.cell (.claim 1), .cell (.activate 1 false some), .finish 1,
    .cell (.upload 1 ⟨⟨0, 1, 1, 0, none⟩, some 1⟩),
    .cell (.claim 2), .cell (.activate 2 false some), .finish 2,
    .cell (.upload 2 ⟨⟨0, 1, 1, 0, none⟩, some 1⟩),
    .cell (.claim 3), .cell (.activate 3 true some),
    .cell (.upload 3 ⟨⟨0, 2, 2, 0, none⟩, none⟩), .finish 3,
    .scan 0 3 none 0 0, .confirm 0, .record 0, .delete 0 1,
    .cell (.upload 1 ⟨⟨0, 2, 2, 0, none⟩, some 2⟩)]

theorem lateWrite_legal :
    LegalRun (step register) (fun g action => g.Legal register action ∧
      g.guardedCheck action = true)
      start lateWrite := by
  decide +kernel

theorem lateWrite_unread :
    (run register start lateWrite).deleted = [1] ∧
      (run register start lateWrite).world.restored register = .ok ([2, 3], 1) ∧
      ∀ chain, build (run register start lateWrite).world.listings = .ok chain →
        ∀ span ∈ chain, span.epoch ≠ 1 :=
  ⟨by decide +kernel, by decide +kernel,
    ((Reachable.deleted_unread (Reachable.start.run_checked lateWrite_legal)).2 1
      (by decide +kernel)).1⟩

end GcWorld

end Celld.Replica
