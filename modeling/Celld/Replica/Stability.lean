import Celld.Replica.Activations

/-!
# What a chain restores

A chain *serves* states up to a transaction if its objects are pieces of them, each of which
goes on from another (`Serves`); then a restore over it succeeds and ends in the last state
(`Serves.restore_eq`).
-/

namespace Celld.Replica

open Wire Ltx List EpochChain

variable {σ δ : Type}

/-- The files of a chain. -/
def chainFiles (chain : EpochChain) : List FileInfo := chain.flatMap fun span =>
    allFiles span.levels

/-- What one epoch of a chain lists is in its store, in order, and a piece of the states. -/
structure SpanOk (c : Contents σ δ) (w : World σ δ) (states : ℕ → σ) (span : Span) : Prop where
  listed : ∀ level f, f ∈ span.levels level → f.level = level ∧ ∃ o ∈ w.store span.epoch, o.info = f
  order : ∀ level, (span.levels level).Pairwise FileInfo.Before
  lo : ∀ f ∈ allFiles span.levels, span.lo ≤ f.minTxid
  valid : ∀ f ∈ allFiles span.levels, 0 < f.minTxid ∧ f.minTxid ≤ f.maxTxid
  snapshot : ∀ f ∈ span.levels snapshotLevel, f.minTxid = 1
  carries : ∀ f ∈ allFiles span.levels, ∀ o ∈ w.store span.epoch, o.info.key = f.key →
    Carries c.apply states f.minTxid f.maxTxid o.content

/-- The chain serves the states up to the last one. -/
structure Serves (c : Contents σ δ) (w : World σ δ) (chain : EpochChain) (last : ℕ)
    (states : ℕ → σ) : Prop where
  spans : ∀ span ∈ chain, SpanOk c w states span
  /-- Only the oldest epoch starts at the first transaction; a newer one starts behind. -/
  apart : chain.Pairwise fun older newer => 1 < newer.lo ∧
    ∀ f ∈ allFiles older.levels, f.maxTxid < newer.lo
  grounded : ∀ f ∈ chainFiles chain, f.minTxid = 1 ∨ ∃ g ∈ chainFiles chain,
    f.minTxid ≤ g.maxTxid + 1 ∧ (g.maxTxid < f.maxTxid ∨ g.minTxid = 1)
  reaches : ∃ f ∈ chainFiles chain, f.maxTxid = last
  upTo : ∀ f ∈ chainFiles chain, f.maxTxid ≤ last

section Restoring

variable {c : Contents σ δ} {w : World σ δ} {chain : EpochChain} {last : ℕ} {states : ℕ → σ}
  {f : FileInfo}

theorem mem_chainFiles : f ∈ chainFiles chain ↔ ∃ span ∈ chain, f ∈ allFiles span.levels :=
  mem_flatMap

theorem mem_allFiles_ltxFiles : f ∈ allFiles chain.ltxFiles ↔ f ∈ chainFiles chain := by
  simp only [allFiles, ltxFiles, chainFiles, mem_flatMap]
  constructor
  · rintro ⟨level, inside, span, mem, here⟩
    exact ⟨span, mem, level, inside, here⟩
  · rintro ⟨span, mem, level, inside, here⟩
    exact ⟨level, inside, span, mem, here⟩

theorem mem_allFiles_of_mem {levels : Listing} {level : ℕ} (within : level ≤ snapshotLevel)
    (mem : f ∈ levels level) : f ∈ allFiles levels :=
  mem_flatMap.mpr ⟨level, mem_range.mpr (Nat.lt_succ_of_le within), mem⟩

theorem foldl_max_eq {numbers : List ℕ} {last : ℕ} (reaches : last ∈ numbers)
    (upTo : ∀ n ∈ numbers, n ≤ last) : numbers.foldl max 0 = last := by
  have fold : ∀ (numbers : List ℕ) start, start ≤ last → (start = last ∨ last ∈ numbers) →
      (∀ n ∈ numbers, n ≤ last) → numbers.foldl max start = last := by
    intro numbers
    induction numbers with
    | nil => exact fun start _ found _ => found.resolve_right not_mem_nil
    | cons n numbers ih =>
      intro start le found upTo
      obtain ⟨here, rest⟩ := forall_mem_cons.mp upTo
      refine ih (max start n) (max_le le here) ?_ rest
      rcases found with rfl | found
      · exact .inl (max_eq_left here)
      · rcases mem_cons.mp found with rfl | later
        · exact .inl (max_eq_right le)
        · exact .inr later
  exact fold numbers 0 (Nat.zero_le _) (.inr reaches) upTo

/-- Reads that all succeed. -/
theorem exists_mapM {α β : Type} {read : α → Except Error β} {P : α → β → Prop} {list : List α}
    (ok : ∀ a ∈ list, ∃ b, read a = .ok b ∧ P a b) :
    ∃ results, list.mapM read = .ok results ∧ List.Forall₂ P list results := by
  induction list with
  | nil => exact ⟨[], rfl, .nil⟩
  | cons a list ih =>
    obtain ⟨here, rest⟩ := forall_mem_cons.mp ok
    obtain ⟨b, eq, holds⟩ := here
    obtain ⟨results, run, all⟩ := ih rest
    refine ⟨b :: results, ?_, .cons holds all⟩
    rw [mapM_cons, eq, run]
    rfl

namespace Serves

variable (serves : Serves c w chain last states)

include serves

theorem maxTxid_eq : chain.maxTxid = last := by
  obtain ⟨f, mem, ends⟩ := serves.reaches
  exact foldl_max_eq (mem_map.mpr ⟨f, mem, ends⟩) (forall_mem_map.mpr serves.upTo)

/-- **A plan can be made from the listings of the chain.** -/
theorem plannable : Grounded chain.ltxFiles := by
  have files : ∀ {f}, f ∈ allFiles chain.ltxFiles → ∃ span ∈ chain, f ∈ allFiles span.levels :=
    fun mem => mem_chainFiles.mp (mem_allFiles_ltxFiles.mp mem)
  refine ⟨⟨fun level low => ?_, ?_, ?_, ?_⟩, ?_⟩
  · refine pairwise_flatMap.mpr ⟨fun span mem => ?_, ?_⟩
    · refine ((serves.spans span mem).order level).imp fun before => ?_
      rcases before with less | ⟨_, _⟩ <;> omega
    · refine serves.apart.imp_of_mem fun {older newer} inOld inNew apart f mem g mem' => ?_
      have ends := apart.2 f (mem_allFiles_of_mem low.le mem)
      have begins := (serves.spans newer inNew).lo g (mem_allFiles_of_mem low.le mem')
      have up := ((serves.spans older inOld).valid f (mem_allFiles_of_mem low.le mem)).2
      omega
  · refine pairwise_flatMap.mpr ⟨fun span mem => ?_, ?_⟩
    · have whole := (serves.spans span mem).snapshot
      refine ((serves.spans span mem).order _).imp_of_mem fun {f g} inF inG before => ?_
      have one := whole f inF
      have one' := whole g inG
      rcases before with less | ⟨_, le⟩
      · omega
      · exact le
    · -- Only the oldest epoch has snapshots.
      refine serves.apart.imp_of_mem fun {older newer} _ inNew apart f _ g mem' => ?_
      have one := (serves.spans newer inNew).snapshot g mem'
      have begins := (serves.spans newer inNew).lo g (mem_allFiles_of_mem le_rfl mem')
      have behind := apart.1
      omega
  · intro f mem
    obtain ⟨span, inside, here⟩ := mem_flatMap.mp mem
    exact (serves.spans span inside).snapshot f here
  · intro f mem
    obtain ⟨span, inside, here⟩ := files mem
    exact (serves.spans span inside).valid f here
  · intro f mem
    refine (serves.grounded f (mem_allFiles_ltxFiles.mp mem)).imp_right ?_
    rintro ⟨g, inside, follows⟩
    exact ⟨g, mem_allFiles_ltxFiles.mpr inside, follows⟩

/-- A file is read from the epoch that lists it. -/
theorem readFile_ok (mem : f ∈ chainFiles chain) : ∃ d, w.readFile chain f = .ok d ∧
    Carries c.apply states f.minTxid f.maxTxid d := by
  obtain ⟨span, inside, here⟩ := mem_chainFiles.mp mem
  have ok := serves.spans span inside
  obtain ⟨front, back, eq⟩ := append_of_mem inside
  have routed : chain.span? f.minTxid = some span := by
    have later : ∀ newer ∈ back.reverse, (!decide (newer.lo ≤ f.minTxid)) = true := by
      intro newer mem
      have apart := serves.apart
      rw [eq] at apart
      have behind := (pairwise_cons.mp (pairwise_append.mp apart).2.1).1 newer
        (mem_reverse.mp mem)
      have ends := behind.2 f here
      have up := (ok.valid f here).2
      rw [Bool.not_eq_true', decide_eq_false_iff_not]
      omega
    have found : chain.reverse.find? (fun span => span.lo ≤ f.minTxid) = some span := by
      refine find?_eq_some_iff_append.mpr ⟨decide_eq_true (ok.lo f here), back.reverse,
        front.reverse, ?_, later⟩
      rw [eq, reverse_append, reverse_cons, append_assoc]
      rfl
    rw [span?, found]
    rfl
  obtain ⟨level, _, at_⟩ := mem_flatMap.mp here
  obtain ⟨_, _, stored, info⟩ := ok.listed level f at_
  obtain ⟨found, mem_, same, opened⟩ := openLtxFile_of_mem stored (congrArg FileInfo.key info)
  refine ⟨found.content, ?_, ok.carries f here found mem_ same⟩
  rw [World.readFile, routed]
  exact opened

/-- **A restore over the chain ends in the last state.** -/
theorem restore_eq : w.restore c chain = .ok (states last) := by
  obtain ⟨top, inside, _⟩ := serves.reaches
  have some_ : allFiles chain.ltxFiles ≠ [] :=
    ne_nil_of_mem (mem_allFiles_ltxFiles.mpr inside)
  obtain ⟨plan, end_, planned, nonempty, reach, members, all⟩ :=
    calcRestorePlan_ok serves.plannable some_
  have last_ : end_ = last := by
    obtain ⟨f, mem, _⟩ := reach.exists_last nonempty
    have upTo := serves.upTo f (mem_allFiles_ltxFiles.mp (members f mem))
    have above := all top (mem_allFiles_ltxFiles.mpr inside)
    omega
  have read : ∀ f ∈ plan, ∃ d, w.readFile chain f = .ok d ∧
      Carries c.apply states f.minTxid f.maxTxid d := fun f mem =>
    serves.readFile_ok (mem_allFiles_ltxFiles.mp (members f mem))
  obtain ⟨_, run, carries⟩ := exists_mapM read
  have positive : ∀ f ∈ plan, 0 < f.minTxid := fun f mem =>
    (serves.plannable.valid f (members f mem)).1
  have replayed := replay_eq carries positive nonempty reach c.blank
  rw [World.restore, planned]
  simp only [bind, Except.bind, run, replayed, last_]

end Serves

end Restoring

/-! ## Where an epoch begins -/

section Epochs

variable {c : Contents σ δ} {w : World σ δ} {e cap lo : ℕ} {a : Activation σ δ} {f : FileInfo}

/-- All that was uploaded to the epoch is there. -/
structure World.EpochOk (c : Contents σ δ) (w : World σ δ) (e : ℕ) (a : Activation σ δ) : Prop where
  pieces : ∀ o ∈ w.store e, Piece c a (w.store e) o
  first : a.history.first = if a.paged then a.cut + 1 else 1

/-- What the epoch lists of the transactions up to a cap. -/
abbrev World.clipped (w : World σ δ) (e cap : ℕ) : Listing := (listing (w.store e)).clip (cap + 1)

theorem World.EpochOk.mem_listed (ok : w.EpochOk c e a) :
    f ∈ allFiles (listing (w.store e)) ↔ ∃ o ∈ w.store e, o.info = f :=
  mem_allFiles_listing fun o mem => (ok.pieces o mem).level

theorem World.EpochOk.mem_clip (ok : w.EpochOk c e a) :
    f ∈ allFiles (w.clipped e cap) ↔
      (∃ o ∈ w.store e, o.info = f) ∧ f.maxTxid ≤ cap := by
  rw [mem_allFiles_clip, ok.mem_listed, Nat.lt_succ_iff]

/-- **An epoch begins with a full image or with its first transaction**, however it is
clipped. -/
theorem World.EpochOk.begins_clip (ok : w.EpochOk c e a)
    (begins : (w.clipped e cap).begins = some lo) :
    lo = 1 ∨ lo = a.history.first := by
  obtain ⟨⟨_, mem, eq⟩, least⟩ := begins_eq_some_iff.mp begins
  obtain ⟨⟨o, stored, rfl⟩, _⟩ := ok.mem_clip.mp mem
  have piece := ok.pieces o stored
  rcases piece.aligned with one | first | ⟨earlier, mem_, _⟩
  · exact .inl (eq.symm.trans one)
  · exact .inr (eq.symm.trans first)
  · -- What it goes on from begins earlier.
    have valid := (ok.pieces earlier mem_).valid
    have up := piece.valid
    have lower := least earlier.info (ok.mem_clip.mpr ⟨⟨earlier, mem_, rfl⟩, by omega⟩)
    omega

/-- The clipped epoch as a span of states that go on like its own. -/
theorem World.EpochOk.spanOk (ok : w.EpochOk c e a)
    (begins : (w.clipped e cap).begins = some lo) {states : ℕ → σ}
    (same : ∀ t, lo ≤ t + 1 → states t = a.history.stateAt c.apply t) :
    SpanOk c w states ⟨e, lo, w.clipped e cap⟩ := by
  have least := (begins_eq_some_iff.mp begins).2
  have of_file : ∀ f ∈ allFiles (w.clipped e cap),
      ∃ o ∈ w.store e, o.info = f := fun f mem => (ok.mem_clip.mp mem).1
  refine ⟨fun level f mem => ?_, fun level => ?_, least, fun f mem => ?_, fun f mem => ?_,
    fun f mem o stored named => ?_⟩
  · have listed := mem_listing.mp (mem_filter.mp mem).1
    exact ⟨listed.2, listed.1⟩
  · exact (pairwise_listing (w.store e) level).filter _
  · obtain ⟨o, stored, rfl⟩ := of_file f mem
    exact (ok.pieces o stored).valid
  · obtain ⟨⟨o, stored, rfl⟩, level⟩ := mem_listing.mp (mem_filter.mp mem).1
    exact (ok.pieces o stored).snapshot level
  · obtain ⟨low, high⟩ := txids_of_key named
    have piece := ok.pieces o stored
    rw [← low, ← high]
    refine piece.carries.congr piece.valid.2 fun t after _ => (same t ?_).symm
    have begins_ := least f mem
    omega

end Epochs

/-! ## What the walk finds -/

namespace World

/-- What a paged activation continues is still there, and no epoch between the two ends where
it does. -/
structure Linked (c : Contents σ δ) (w : World σ δ) (k : ℕ) (a : Activation σ δ) : Prop where
  below : a.source < k
  source : ∃ b, w.acts a.source = some b ∧ b.history.first ≤ a.cut ∧
    a.history.base = b.history.stateAt c.apply a.cut
  ends : ∃ o ∈ w.store a.source, o.info.maxTxid = a.cut
  between : ∀ e, a.source < e → e < k → ∀ o ∈ w.store e, o.info.maxTxid ≠ a.cut

structure StableInv (c : Contents σ δ) (w : World σ δ) : Prop extends Kept c w where
  whole : ∀ e, w.store e = w.uploaded e
  linked : ∀ k a, w.acts k = some a → a.paged = true → w.Linked c k a

section Walking

variable {c : Contents σ δ} {w : World σ δ} {e cap lo : ℕ} {a b : Activation σ δ}
  {chain : EpochChain} {states : ℕ → σ}

theorem StableInv.epochOk (inv : StableInv c w) (active : w.acts e = some a) : w.EpochOk c e a := by
  refine ⟨?_, inv.first e a active⟩
  rw [inv.whole e]
  exact inv.pieces e a active

/-- The chain of an epoch that opens with a full image is the epoch alone. -/
theorem EpochOk.serves (ok : w.EpochOk c e a)
    (begins : (w.clipped e cap).begins = some 1)
    (ends : ∃ o ∈ w.store e, o.info.maxTxid = cap) :
    Serves c w [⟨e, 1, w.clipped e cap⟩] cap (a.history.stateAt c.apply) := by
  have mem_files : ∀ {f}, f ∈ chainFiles [⟨e, 1, w.clipped e cap⟩] ↔
      (∃ o ∈ w.store e, o.info = f) ∧ f.maxTxid ≤ cap := by
    intro f
    rw [chainFiles, flatMap_singleton, ok.mem_clip]
  refine ⟨?_, pairwise_singleton _ _, fun f mem => ?_, ?_, fun f mem => (mem_files.mp mem).2⟩
  · intro _ mem
    rw [mem_singleton.mp mem]
    exact ok.spanOk begins fun _ _ => rfl
  · obtain ⟨⟨o, stored, rfl⟩, _⟩ := mem_files.mp mem
    have piece := ok.pieces o stored
    rcases piece.aligned with one | first | ⟨earlier, mem_, _⟩
    · exact .inl one
    · -- The full image reaches past the first transaction.
      obtain ⟨⟨_, inside, one⟩, _⟩ := begins_eq_some_iff.mp begins
      obtain ⟨⟨image, stored_, rfl⟩, _⟩ := ok.mem_clip.mp inside
      have last := (ok.pieces image stored_).last
      refine .inr ⟨image.info, mem_files.mpr (ok.mem_clip.mp inside), ?_, .inr one⟩
      omega
    · have up := piece.valid.2
      exact .inr ⟨earlier.info, mem_files.mpr ⟨⟨earlier, mem_, rfl⟩, by omega⟩, by omega,
        .inl (by omega)⟩
  · obtain ⟨o, stored, eq⟩ := ends
    exact ⟨o.info, mem_files.mpr ⟨⟨o, stored, rfl⟩, eq.le⟩, eq⟩

/-- **A continued epoch goes on from the chain it continues.** -/
theorem EpochOk.serves_append (ok : w.EpochOk c e a) (paged : a.paged = true)
    (older : Serves c w chain a.cut states) (starts : b.history.first ≤ a.cut)
    (same : ∀ t, b.history.first ≤ t + 1 → states t = b.history.stateAt c.apply t)
    (base : a.history.base = b.history.stateAt c.apply a.cut)
    (begins : (w.clipped e cap).begins = some a.history.first)
    (ends : ∃ o ∈ w.store e, o.info.maxTxid = cap) :
    ∃ states', Serves c w (chain ++ [⟨e, a.history.first, w.clipped e cap⟩])
      cap states' ∧ ∀ t, a.history.first ≤ t + 1 → states' t = a.history.stateAt c.apply t := by
  have first : a.history.first = a.cut + 1 := by
    rw [ok.first, paged]
    rfl
  let states' := fun t => if t ≤ a.cut then states t else a.history.stateAt c.apply t
  have own : ∀ t, a.history.first ≤ t + 1 → states' t = a.history.stateAt c.apply t := by
    intro t _
    by_cases at_ : t ≤ a.cut
    · have cut : t = a.cut := by omega
      subst cut
      refine (if_pos le_rfl).trans ?_
      rw [same _ (by omega), ← base, History.stateAt_of_lt (by omega)]
    · exact if_neg at_
  have old : ∀ t, t ≤ a.cut → states t = states' t := fun t upTo => (if_pos upTo).symm
  have mem_files : ∀ {f}, f ∈ chainFiles
      (chain ++ [⟨e, a.history.first, w.clipped e cap⟩]) ↔
      f ∈ chainFiles chain ∨ (∃ o ∈ w.store e, o.info = f) ∧ f.maxTxid ≤ cap := by
    intro f
    rw [chainFiles, flatMap_append, mem_append, flatMap_singleton, ok.mem_clip]
    rfl
  have least := (begins_eq_some_iff.mp begins).2
  have above : ∀ o ∈ w.store e, o.info.maxTxid ≤ cap → a.cut < o.info.minTxid := by
    intro o stored upTo
    have lower := least o.info (ok.mem_clip.mpr ⟨⟨o, stored, rfl⟩, upTo⟩)
    omega
  have positive : 0 < a.cut := by
    obtain ⟨f, mem, eq⟩ := older.reaches
    obtain ⟨span, inside, here⟩ := mem_chainFiles.mp mem
    have valid := (older.spans span inside).valid f here
    omega
  refine ⟨states', ⟨?_, ?_, fun f mem => ?_, ?_, fun f mem => ?_⟩, own⟩
  · intro span mem
    rcases mem_append.mp mem with here | here
    · have spanOk := older.spans span here
      refine ⟨spanOk.listed, spanOk.order, spanOk.lo, spanOk.valid, spanOk.snapshot,
        fun f mem o stored named => ?_⟩
      refine (spanOk.carries f mem o stored named).congr (spanOk.valid f mem).2 fun t _ upTo => ?_
      have last := older.upTo f (mem_chainFiles.mpr ⟨span, here, mem⟩)
      exact old t (upTo.trans last)
    · rw [mem_singleton.mp here]
      exact ok.spanOk begins own
  · refine pairwise_append.mpr ⟨older.apart, pairwise_singleton _ _, ?_⟩
    intro span here _ newest
    rw [mem_singleton.mp newest]
    refine ⟨show 1 < a.history.first by omega, fun f mem => ?_⟩
    have last := older.upTo f (mem_chainFiles.mpr ⟨span, here, mem⟩)
    show f.maxTxid < a.history.first
    omega
  · rcases mem_files.mp mem with here | ⟨⟨o, stored, rfl⟩, upTo⟩
    · refine (older.grounded f here).imp_right ?_
      rintro ⟨g, inside, follows⟩
      exact ⟨g, mem_files.mpr (.inl inside), follows⟩
    · have piece := ok.pieces o stored
      have behind := above o stored upTo
      have up := piece.valid.2
      rcases piece.aligned with _ | _ | ⟨earlier, mem_, _⟩
      · omega
      · obtain ⟨g, inside, cut⟩ := older.reaches
        exact .inr ⟨g, mem_files.mpr (.inl inside), by omega, .inl (by omega)⟩
      · exact .inr ⟨earlier.info, mem_files.mpr (.inr ⟨⟨earlier, mem_, rfl⟩, by omega⟩), by omega,
          .inl (by omega)⟩
  · obtain ⟨o, stored, eq⟩ := ends
    exact ⟨o.info, mem_files.mpr (.inr ⟨⟨o, stored, rfl⟩, eq.le⟩), eq⟩
  · rcases mem_files.mp mem with here | ⟨_, upTo⟩
    · obtain ⟨o, stored, eq⟩ := ends
      have last := older.upTo f here
      have behind := (ok.pieces o stored).last
      omega
    · exact upTo

/-- The walk from an epoch, clipped to the transactions up to `cap`, finds the chain. -/
def Walks (w : World σ δ) (e cap lo : ℕ) (chain : EpochChain) : Prop :=
  ∀ newer, (if lo = 1 then ⟨e, lo, w.clipped e cap⟩ :: newer
    else walk (w.below e) (⟨e, lo, w.clipped e cap⟩ :: newer)) = chain ++ newer

/-- **The walk from an epoch finds what serves its states.** -/
theorem StableInv.walk_serves (inv : StableInv c w) (active : w.acts e = some a)
    (begins : (w.clipped e cap).begins = some lo)
    (ends : ∃ o ∈ w.store e, o.info.maxTxid = cap) :
    ∃ chain states, w.Walks e cap lo chain ∧
      chain.getLast? = some ⟨e, lo, w.clipped e cap⟩ ∧
      Serves c w chain cap states ∧
      ∀ t, a.history.first ≤ t + 1 → states t = a.history.stateAt c.apply t := by
  induction e using Nat.strong_induction_on generalizing a cap lo with
  | _ e ih =>
    have ok := inv.epochOk active
    by_cases one : lo = 1
    · subst one
      exact ⟨_, _, fun newer => if_pos rfl, rfl, ok.serves begins ends, fun _ _ => rfl⟩
    · have atFirst := (ok.begins_clip begins).resolve_left one
      have paged : a.paged = true := by
        by_contra cloned
        rw [ok.first, if_neg cloned] at atFirst
        exact one atFirst
      have first : a.history.first = a.cut + 1 := by
        rw [ok.first, paged]
        rfl
      have linked := inv.linked e a active paged
      obtain ⟨_, active', starts, base⟩ := linked.source
      have okSource := inv.epochOk active'
      have some_ : w.store a.source ≠ [] := by
        obtain ⟨o, stored, _⟩ := linked.ends
        exact ne_nil_of_mem stored
      have found : ∃ f ∈ allFiles (listing (w.store a.source)), f.maxTxid = a.cut := by
        obtain ⟨o, stored, eq⟩ := linked.ends
        exact ⟨o.info, okSource.mem_listed.mpr ⟨o, stored, rfl⟩, eq⟩
      obtain ⟨_, begins'⟩ := exists_begins_clip found
      obtain ⟨chain, states, runs, _, serves, same⟩ :=
        ih a.source linked.below active' begins' linked.ends
      subst atFirst
      obtain ⟨states', serves', same'⟩ := ok.serves_append paged serves starts same base begins ends
      refine ⟨_, states', fun newer => ?_, getLast?_concat, serves', same'⟩
      -- The epochs between the two are skipped, and the source is the next one.
      rw [if_neg one, walk_below_skip linked.below first linked.between, below_succ some_,
        walk_link first found begins', runs, append_assoc]
      rfl

/-- A newest object. -/
theorem exists_last {objects : List (Object δ)} (some_ : objects ≠ []) :
    ∃ last, (∃ o ∈ objects, o.info.maxTxid = last) ∧ ∀ o ∈ objects, o.info.maxTxid ≤ last := by
  cases last : (objects.map fun o => o.info.maxTxid).max? with
  | none => exact absurd (map_eq_nil_iff.mp (max?_eq_none_iff.mp last)) some_
  | some last_ =>
    obtain ⟨mem, upTo⟩ := max?_eq_some_iff.mp last
    exact ⟨last_, mem_map.mp mem, forall_mem_map.mp upTo⟩

/-- What a walk from the newest epoch finds is the chain over all epochs. -/
theorem EpochOk.build_eq {last : ℕ} (ok : w.EpochOk c e a)
    (newest : w.nonemptyEpochs.getLast? = some e) (ends : ∃ o ∈ w.store e, o.info.maxTxid = last)
    (upTo : ∀ o ∈ w.store e, o.info.maxTxid ≤ last) :
    ∃ lo, (w.clipped e last).begins = some lo ∧
      ∀ chain, w.Walks e last lo chain → chain ≠ [] →
        build w.listings = .ok chain := by
  obtain ⟨within, some_, empty⟩ := getLast?_nonemptyEpochs newest
  have unclipped : w.clipped e last = listing (w.store e) := by
    funext level
    refine filter_eq_self.mpr fun f mem => decide_eq_true ?_
    obtain ⟨⟨o, stored, rfl⟩, _⟩ := mem_listing.mp mem
    exact Nat.lt_succ_of_le (upTo o stored)
  have files : allFiles (listing (w.store e)) ≠ [] := by
    obtain ⟨o, stored, _⟩ := ends
    exact ne_nil_of_mem (ok.mem_listed.mpr ⟨o, stored, rfl⟩)
  obtain ⟨lo, begins, walked⟩ := walk_newest e (w.below e) files
  rw [← unclipped] at begins
  refine ⟨lo, begins, fun chain runs nonempty => ?_⟩
  have spans : walk w.listings.reverse [] = chain := by
    rw [reverse_listings, below_of_empty (Nat.succ_le_succ within) (fun e' after before =>
      empty e' after (Nat.lt_succ_iff.mp before)), below_succ some_, walked, ← append_nil chain,
      ← runs [], unclipped]
  simp only [build, spans, if_neg nonempty]

/-- **The chain over all epochs serves the newest one.** -/
theorem StableInv.newest_serves (inv : StableInv c w)
    (newest : w.nonemptyEpochs.getLast? = some e) :
    ∃ a chain last states, w.acts e = some a ∧ build w.listings = .ok chain ∧
      chain.getLast?.map Span.epoch = some e ∧ Serves c w chain last states ∧
      (∃ o ∈ w.store e, o.info.maxTxid = last) ∧ (∀ o ∈ w.store e, o.info.maxTxid ≤ last) ∧
      a.history.first ≤ last ∧ states last = a.history.stateAt c.apply last := by
  obtain ⟨_, some_, _⟩ := getLast?_nonemptyEpochs newest
  obtain ⟨a, active⟩ := inv.active some_
  have ok := inv.epochOk active
  obtain ⟨last, ends, upTo⟩ := exists_last some_
  obtain ⟨_, begins, built⟩ := ok.build_eq newest ends upTo
  obtain ⟨chain, states, runs, top, serves, same⟩ := inv.walk_serves active begins ends
  have nonempty : chain ≠ [] := by
    rintro rfl
    cases top
  have first : a.history.first ≤ last := by
    obtain ⟨o, stored, eq⟩ := ends
    rw [← eq]
    exact (ok.pieces o stored).last
  refine ⟨a, chain, last, states, active, built chain runs nonempty, ?_, serves, ends, upTo, first,
    same last (Nat.le_succ_of_le first)⟩
  rw [top]
  rfl

end Walking

/-! ## Stability -/

/-- No object lands between a continued epoch and its source that ends where the source did. -/
def Stable (w : World σ δ) : Action δ → Prop
  | .upload epoch o => ∀ k a, w.acts k = some a → a.paged = true → a.source < epoch → epoch < k →
      o.info.maxTxid ≠ a.cut
  | _ => True

section Stability

variable {c : Contents σ δ} {w : World σ δ} {e : ℕ}

theorem stableInv_start (c : Contents σ δ) : StableInv c start where
  toKept := kept_start c
  whole _ := rfl
  linked _ _ active := by cases active

/-- An activation is linked to the newest epoch. -/
theorem StableInv.linked_new (inv : StableInv c w) {paged : Bool} {txn : ℕ → δ}
    {a : Activation σ δ} (within : e ≤ w.owner) (ok : w.activation c e paged txn = .ok a)
    (pages : a.paged = true) : w.Linked c e a := by
  rcases activation_cases ok with rfl | ⟨n, chain, _, newest, before, built, restored, rfl | rfl⟩
  · cases pages
  · cases pages
  · obtain ⟨b, _, last, states, active, built', top, serves, ends, _, first, state⟩ :=
      inv.newest_serves newest
    cases built.symm.trans built'
    cases restored.symm.trans serves.restore_eq
    obtain ⟨_, _, empty⟩ := getLast?_nonemptyEpochs newest
    have source : Activation.source
        ⟨chain, true, ⟨states last, chain.maxTxid + 1, Function.update txn (chain.maxTxid + 1)
          (c.marker (chain.maxTxid + 1) (states last))⟩⟩ = n := by
      simp only [Activation.source, top, Option.getD_some]
    have cut : chain.maxTxid = last := serves.maxTxid_eq
    refine ⟨?_, ⟨b, ?_, ?_, ?_⟩, ?_, ?_⟩
    · rw [source]
      exact before
    · rw [source]
      exact active
    · show b.history.first ≤ chain.maxTxid
      rw [cut]
      exact first
    · show states last = b.history.stateAt c.apply chain.maxTxid
      rw [cut]
      exact state
    · rw [source]
      show ∃ o ∈ w.store n, o.info.maxTxid = chain.maxTxid
      rw [cut]
      exact ends
    · rw [source]
      intro e' after upTo' o stored
      rw [empty e' after (upTo'.le.trans within)] at stored
      cases stored

/-- **Every stable step keeps the links.** -/
theorem StableInv.step {action : Action δ} (inv : StableInv c w) (legal : w.Legal c action)
    (stable : w.Stable action) : StableInv c (w.step c action) := by
  have kept := inv.toKept.step legal
  cases action with
  | claim => exact ⟨kept, inv.whole, fun k a active paged =>
    ⟨(inv.linked k a active paged).below, (inv.linked k a active paged).source,
      (inv.linked k a active paged).ends, (inv.linked k a active paged).between⟩⟩
  | activate epoch paged txn =>
    rcases step_activate c w epoch paged txn with same | ⟨a, within, idle, ok, eq⟩
    · rw [same]
      exact inv
    · rw [eq] at kept ⊢
      refine ⟨kept, inv.whole, fun k b active pages => ?_⟩
      have linked : w.Linked c k b := by
        rcases update_eq_some active with ⟨rfl, rfl⟩ | ⟨_, old⟩
        · exact inv.linked_new within ok pages
        · exact inv.linked k b old pages
      obtain ⟨d, active', rest⟩ := linked.source
      have other : b.source ≠ epoch := by
        intro same
        rw [same, idle] at active'
        cases active'
      exact ⟨linked.below, ⟨d, (Function.update_of_ne other _ _).trans active', rest⟩, linked.ends,
        linked.between⟩
  | upload epoch =>
    refine ⟨kept, fun k => ?_, fun k a active paged => ?_⟩
    · show Function.update w.store epoch _ k = Function.update w.uploaded epoch _ k
      rw [inv.whole epoch, funext inv.whole]
    · have linked := inv.linked k a active paged
      refine ⟨linked.below, linked.source, ?_, fun e' after before o' mem => ?_⟩
      · obtain ⟨old, stored, eq⟩ := linked.ends
        obtain ⟨kept_, mem, same⟩ := exists_mem_update stored
        exact ⟨kept_, mem, (txids_of_key same).2.trans eq⟩
      · rcases mem_of_mem_update mem with ⟨rfl, rfl⟩ | old
        · exact stable k a active paged after before
        · exact linked.between e' after before o' old

theorem Reachable.stableInv (reachable : Reachable c Stable w) : StableInv c w := by
  induction reachable with
  | start => exact stableInv_start c
  | step _ legal stable ih => exact ih.step legal stable

/-- **Later restores give what the newest activation made of its own.**  The chain over all
epochs that hold objects restores the image that the activation of the newest one restored,
with the transactions it uploaded applied. -/
theorem Reachable.restores_newest (reachable : Reachable c Stable w)
    (newest : w.nonemptyEpochs.getLast? = some e) :
    ∃ a chain last, w.acts e = some a ∧ build w.listings = .ok chain ∧
      (∃ o ∈ w.store e, o.info.maxTxid = last) ∧ (∀ o ∈ w.store e, o.info.maxTxid ≤ last) ∧
      w.restore c chain = .ok (a.history.stateAt c.apply last) := by
  obtain ⟨a, chain, last, _, active, built, _, serves, ends, upTo, _, state⟩ :=
    reachable.stableInv.newest_serves newest
  exact ⟨a, chain, last, active, built, ends, upTo, state ▸ serves.restore_eq⟩

end Stability

/-! ## A late clone -/

/-- The second epoch clones the first and writes late; the third one continued the first. -/
def lateClone : List (Action (Option ℕ)) :=
  [.claim 1, .activate 1 false (fun _ => some 1), .upload 1 ⟨⟨0, 1, 1, 0, none⟩, some 1⟩,
    .claim 2, .activate 2 false (fun _ => some 9),
    .claim 3, .activate 3 true (fun _ => none), .upload 3 ⟨⟨0, 2, 2, 0, none⟩, none⟩,
    .upload 2 ⟨⟨0, 1, 1, 0, none⟩, some 9⟩]

theorem lateClone_legal : LegalRun (step register) (fun w action => w.Legal register action ∧ True)
    start lateClone := by
  decide +kernel

/-- **A late clone takes the place of what was continued.**  The activation of the third epoch
restored the 1 of the first, and wrote nothing.  Once the clone has landed, the chain over all
epochs goes by the second, and restores its 9. -/
theorem lateClone_restored :
    Reachable register (fun _ _ => True) (run register start lateClone) ∧
      summary register (run register start lateClone) 3 2 = some (true, 1, 1, 2, 1) ∧
      (run register start lateClone).restored register = .ok ([2, 3], 9) :=
  ⟨Reachable.start.run lateClone_legal, by decide +kernel, by decide +kernel⟩

/-- `Stable` as a computation over the claimed epochs. -/
def stableCheck (w : World σ δ) : Action δ → Bool
  | .upload epoch o => (List.range (w.owner + 1)).all fun k => (w.acts k).all fun a =>
      !a.paged || !decide (a.source < epoch ∧ epoch < k) || o.info.maxTxid ≠ a.cut
  | _ => true

theorem Kept.stable {c : Contents σ δ} {w : World σ δ} {action : Action δ} (kept : Kept c w)
    (check : w.stableCheck action = true) : w.Stable action := by
  cases action with
  | upload =>
    intro k a active paged after before
    have checked := all_eq_true.mp check k
      (mem_range.mpr (Nat.lt_succ_of_le (kept.claimed k a active)))
    simpa [active, paged, after, before] using checked
  | _ => trivial

theorem Reachable.run_checked {c : Contents σ δ} {w : World σ δ} {actions : List (Action δ)}
    (reachable : Reachable c Stable w)
    (legal : LegalRun (World.step c) (fun w action => w.Legal c action ∧
      w.stableCheck action = true) w
      actions) : Reachable c Stable (w.run c actions) :=
  legal.keeps (fun _ _ reachable legal => reachable.step legal.1 (reachable.kept.stable legal.2))
    reachable

/-- The third epoch continues the first, whose owner then folds what it has uploaded; the
clone in between lands too, and ends elsewhere. -/
def lateFold : List (Action (Option ℕ)) :=
  [.claim 1, .activate 1 false some, .upload 1 ⟨⟨0, 1, 1, 0, none⟩, some 1⟩,
    .upload 1 ⟨⟨0, 2, 2, 0, none⟩, some 2⟩, .claim 2, .activate 2 false (fun _ => some 9),
    .claim 3, .activate 3 true some, .upload 3 ⟨⟨0, 3, 3, 0, none⟩, none⟩,
    .upload 3 ⟨⟨0, 4, 4, 0, none⟩, some 4⟩, .upload 1 ⟨⟨1, 1, 2, 0, none⟩, some 2⟩,
    .upload 2 ⟨⟨0, 1, 1, 0, none⟩, some 9⟩]

theorem lateFold_legal :
    LegalRun (step register) (fun w action => w.Legal register action ∧ w.stableCheck action = true)
      start lateFold := by
  decide +kernel

/-- The third epoch is restored as its owner left it. -/
theorem lateFold_restores_newest :
    (run register start lateFold).restored register = .ok ([1, 3], 4) ∧
    ∃ a chain last, (run register start lateFold).acts 3 = some a ∧
      build (run register start lateFold).listings = .ok chain ∧
      (∃ o ∈ (run register start lateFold).store 3, o.info.maxTxid = last) ∧
      (∀ o ∈ (run register start lateFold).store 3, o.info.maxTxid ≤ last) ∧
      (run register start lateFold).restore register chain
        = .ok (a.history.stateAt register.apply last) :=
  ⟨by decide +kernel,
    Reachable.restores_newest (Reachable.start.run_checked lateFold_legal) (by decide +kernel)⟩

end World

end Celld.Replica
