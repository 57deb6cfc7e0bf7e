import Celld.Replica.Plan

/-!
# The cuts of a replica

A cut is a transaction that a restore can end at exactly.  `cutsOf` finds the cuts in one
pass over the objects in the order of their ends; the planner searches level by level, with
cursors that never go back.  They agree: there is a plan up to a transaction if and only if
it is a cut (`calcRestorePlan_iff_cut`).
-/

namespace Celld.Replica

open List Ltx Std.ExtTreeSet Wire FileInfo

/-- A file adds its end to the cuts that are known. -/
def settleCut (reached : Std.ExtTreeSet ℕ compare) (f : FileInfo) : Std.ExtTreeSet ℕ compare :=
  if f.minTxid = 0 ∨ f.maxTxid < f.minTxid then reached
  else if reached.toList.any fun r => f.minTxid - 1 ≤ r ∧ r < f.maxTxid then
    reached.insert f.maxTxid
  else reached

/-- Every transaction a restore can end at exactly, ascending. -/
def cutsOf (files : List FileInfo) : List ℕ :=
  let files := files.mergeSort fun f g =>
    f.maxTxid < g.maxTxid ∨ f.maxTxid = g.maxTxid ∧ f.minTxid ≤ g.minTxid
  ((files.foldl settleCut (Std.ExtTreeSet.empty.insert 0)).erase 0).toList

/-- The first cut at or after a transaction, and the plan that ends there. -/
def calcRestorePlanAtOrAfter (ltxFiles : ℕ → List FileInfo) (txid : ℕ) :
    Except Error (ℕ × List FileInfo) :=
  match (cutsOf (allFiles ltxFiles)).find? fun cut => txid ≤ cut with
  | none => .error .txNotAvailable
  | some cut => do return (cut, ← calcRestorePlan ltxFiles cut)

/-- A run of files from the first transaction ends at the transaction. -/
def Reached (files : List FileInfo) (r : ℕ) : Prop :=
  ∃ plan, (∀ f ∈ plan, f ∈ files) ∧ Extends minTxid maxTxid 0 plan r

section Runs

variable {files done : List FileInfo} {f g : FileInfo} {plan : List FileInfo} {r s : ℕ}

theorem Reached.mono (reached : Reached done r) (more : ∀ f ∈ done, f ∈ files) :
    Reached files r := by
  obtain ⟨plan, members, run⟩ := reached
  exact ⟨plan, fun f mem => more f (members f mem), run⟩

theorem Reached.step (reached : Reached files r) (mem : f ∈ files) (near : f.minTxid ≤ r + 1)
    (less : r < f.maxTxid) : Reached files f.maxTxid := by
  obtain ⟨plan, members, run⟩ := reached
  refine ⟨plan ++ [f], ?_, run.append ⟨near, less, rfl⟩⟩
  intro g inside
  rcases mem_append.mp inside with old | last
  · exact members g old
  · rwa [mem_singleton.mp last]

/-- What is reached at all is reached by a last file. -/
theorem exists_last_step (run : Extends minTxid maxTxid s plan r)
    (some_ : plan ≠ []) : ∃ front f m, plan = front ++ [f] ∧
      Extends minTxid maxTxid s front m ∧ f.minTxid ≤ m + 1 ∧ m < f.maxTxid ∧
      f.maxTxid = r ∧ ∀ g ∈ front, g.maxTxid ≤ m := by
  induction plan generalizing s with
  | nil => exact absurd rfl some_
  | cons f plan ih =>
    by_cases none_ : plan = []
    · subst none_
      exact ⟨[], f, s, rfl, rfl, run.1, run.2.1, run.2.2, by rintro _ ⟨⟩⟩
    · obtain ⟨front, g, m, rfl, before, near, less, ends, below⟩ := ih run.2.2 none_
      refine ⟨f :: front, g, m, rfl, ⟨run.1, run.2.1, before⟩, near, less, ends, ?_⟩
      exact forall_mem_cons.mpr ⟨before.le, below⟩

/-- Files come in the order of their ends, so a file extends only what is known. -/
theorem mem_settleCut {reached : Std.ExtTreeSet ℕ compare}
    (known : ∀ r, r ∈ reached ↔ Reached done r) (valid : 0 < f.minTxid ∧ f.minTxid ≤ f.maxTxid)
    (last : ∀ g ∈ done, g.maxTxid ≤ f.maxTxid) :
    r ∈ settleCut reached f ↔ Reached (done ++ [f]) r := by
  have old : ∀ {s}, Reached done s → Reached (done ++ [f]) s := fun reached =>
    reached.mono fun g mem => mem_append_left _ mem
  have extended : (reached.toList.any fun r => f.minTxid - 1 ≤ r ∧ r < f.maxTxid) = true ↔
      ∃ m, Reached done m ∧ f.minTxid ≤ m + 1 ∧ m < f.maxTxid := by
    simp only [any_eq_true, mem_toList, known, decide_eq_true_eq]
    refine exists_congr fun m => and_congr_right fun _ => and_congr_left fun _ => ?_
    omega
  have split : Reached (done ++ [f]) r ↔
      Reached done r ∨ f.maxTxid = r ∧ ∃ m, Reached done m ∧ f.minTxid ≤ m + 1 ∧ m < f.maxTxid := by
    constructor
    · rintro ⟨plan, members, run⟩
      by_cases none_ : plan = []
      · subst none_
        exact .inl ⟨[], by rintro _ ⟨⟩, run⟩
      obtain ⟨front, g, m, rfl, before, near, less, ends, below⟩ := exists_last_step run none_
      have mine : ∀ h ∈ done ++ [f], h ∈ done ∨ h = f := by simp
      have upTo : g.maxTxid ≤ f.maxTxid := by
        rcases mine g (members g (by simp)) with mem | rfl
        · exact last g mem
        · exact le_rfl
      have known_ : Reached done m := by
        refine ⟨front, fun h mem => ?_, before⟩
        rcases mine h (members h (mem_append_left _ mem)) with inside | rfl
        · exact inside
        · have earlier := below h mem
          omega
      rcases mine g (members g (by simp)) with mem | rfl
      · exact .inl (ends ▸ known_.step mem near less)
      · exact .inr ⟨ends, m, known_, near, less⟩
    · rintro (known_ | ⟨rfl, m, known_, near, less⟩)
      · exact old known_
      · exact (old known_).step (by simp) near less
  rw [split, settleCut, if_neg (by omega), ← extended]
  by_cases here : (reached.toList.any fun r => f.minTxid - 1 ≤ r ∧ r < f.maxTxid) = true
  · rw [if_pos here, mem_insert, known, Nat.compare_eq_eq, or_comm]
    simp only [here, and_true]
  · rw [if_neg here, known]
    exact (or_iff_left fun both => here both.2).symm

theorem mem_foldl_settleCut {rest : List FileInfo} {reached : Std.ExtTreeSet ℕ compare}
    (known : ∀ r, r ∈ reached ↔ Reached done r)
    (valid : ∀ f ∈ rest, 0 < f.minTxid ∧ f.minTxid ≤ f.maxTxid)
    (order : (done ++ rest).Pairwise fun f g => f.maxTxid ≤ g.maxTxid) :
    r ∈ rest.foldl settleCut reached ↔ Reached (done ++ rest) r := by
  induction rest generalizing done reached with
  | nil =>
    rw [append_nil]
    exact known r
  | cons f rest ih =>
    obtain ⟨here, later⟩ := forall_mem_cons.mp valid
    have last : ∀ g ∈ done, g.maxTxid ≤ f.maxTxid := fun g mem =>
      (pairwise_append.mp order).2.2 g mem f mem_cons_self
    rw [append_cons] at order ⊢
    exact ih (fun r => mem_settleCut known here last) later order

/-- **A cut is the end of a run of files from the first transaction.** -/
theorem mem_cutsOf (valid : ∀ f ∈ files, 0 < f.minTxid ∧ f.minTxid ≤ f.maxTxid) :
    r ∈ cutsOf files ↔ 0 < r ∧ Reached files r := by
  let before : FileInfo → FileInfo → Bool := fun f g =>
    f.maxTxid < g.maxTxid ∨ f.maxTxid = g.maxTxid ∧ f.minTxid ≤ g.minTxid
  have order : (files.mergeSort before).Pairwise fun f g => f.maxTxid ≤ g.maxTxid := by
    refine (pairwise_mergeSort ?_ ?_ files).imp fun {f g} less => ?_
    · intro f g _
      simp only [before, decide_eq_true_eq]
      omega
    · intro f g
      simp only [before, Bool.or_eq_true, decide_eq_true_eq]
      omega
    · simp only [before, decide_eq_true_eq] at less
      omega
  let zero : Std.ExtTreeSet ℕ compare := Std.ExtTreeSet.empty.insert 0
  have start : ∀ r, r ∈ zero ↔ Reached [] r := by
    intro r
    have alone : Reached [] r ↔ 0 = r := by
      constructor
      · rintro ⟨_, members, run⟩
        rwa [eq_nil_iff_forall_not_mem.mpr fun f mem => absurd (members f mem) not_mem_nil]
          at run
      · exact fun zero => ⟨[], by rintro _ ⟨⟩, zero⟩
    rw [alone, mem_insert, Nat.compare_eq_eq]
    exact or_iff_left not_mem_empty
  have folded := mem_foldl_settleCut (r := r) start
    (fun f mem => valid f (mem_mergeSort.mp mem)) (by simpa using order)
  have same : Reached ([] ++ files.mergeSort before) r ↔ Reached files r :=
    ⟨fun reached => reached.mono fun f mem => by simpa using mem,
      fun reached => reached.mono fun f mem => by simpa using mem⟩
  show r ∈ (((files.mergeSort before).foldl settleCut zero).erase 0).toList ↔ _
  rw [mem_toList, mem_erase, folded, same, Nat.pos_iff_ne_zero]
  exact and_congr_left fun _ => not_congr (Nat.compare_eq_eq.trans eq_comm)

/-- Where nothing goes on from what is reached, every cut is reached. -/
theorem Reached.le (reached : Reached files r)
    (done : ∀ f ∈ files, f.maxTxid ≤ r → f.maxTxid ≤ s ∨ s + 1 < f.minTxid) : r ≤ s := by
  obtain ⟨plan, members, run⟩ := reached
  induction plan using List.reverseRecOn generalizing r with
  | nil =>
    have zero : 0 = r := run
    omega
  | append_singleton plan f ih =>
    obtain ⟨_, _, _, same, before, _, less, rfl, _⟩ := exists_last_step run (by simp)
    obtain ⟨rfl, ⟨⟩⟩ := append_inj' same rfl
    have early := ih (fun h mem upTo => done h mem (upTo.trans less.le))
      (fun h mem => members h (mem_append_left _ mem)) before
    rcases done f (members f (by simp)) le_rfl with there | _
    · exact there
    · omega

end Runs

/-- What the client lists: in the order of ranges, with whole snapshots, and with room to
count on from every transaction. -/
structure Listed (ltxFiles : ℕ → List FileInfo) : Prop where
  order : ∀ level ≤ snapshotLevel, (ltxFiles level).Pairwise fun f g =>
    f.minTxid < g.minTxid ∨ f.minTxid = g.minTxid ∧ f.maxTxid ≤ g.maxTxid
  whole : ∀ f ∈ ltxFiles snapshotLevel, f.minTxid = 1
  valid : ∀ f ∈ allFiles ltxFiles, 1 ≤ f.minTxid ∧ f.minTxid ≤ f.maxTxid ∧ f.maxTxid < 2 ^ 64 - 1

section Cuts

variable {ltxFiles : ℕ → List FileInfo} {target : ℕ} {plan : List FileInfo}

theorem Listed.ascending (listing : Listed ltxFiles) : Ascending ltxFiles where
  ascending level low := (listing.order level low.le).imp fun {f g} before => by omega
  snapshots := (listing.order _ le_rfl).imp_of_mem fun {f g} inF inG before => by
    have one := listing.whole f inF
    have one' := listing.whole g inG
    omega
  whole := listing.whole
  valid f mem := ⟨(listing.valid f mem).1, (listing.valid f mem).2.1⟩

theorem Listed.mem_cuts (listing : Listed ltxFiles) :
    target ∈ cutsOf (allFiles ltxFiles) ↔ 0 < target ∧ Reached (allFiles ltxFiles) target :=
  mem_cutsOf listing.ascending.valid

/-- **There is a plan up to a transaction if and only if it is a cut.** -/
theorem Listed.plan_iff (listing : Listed ltxFiles) (some_ : 0 < target) :
    ((∃ plan, calcRestorePlan ltxFiles target = .ok plan) ↔ target ∈ cutsOf (allFiles ltxFiles)) ∧
    ∀ plan, calcRestorePlan ltxFiles target = .ok plan → (∀ f ∈ plan, f ∈ allFiles ltxFiles) ∧
      Extends minTxid maxTxid 0 plan target := by
  obtain ⟨plan, last, run, members, ended, ok_iff⟩ := listing.ascending.plan target
  have nonzero : target ≠ 0 := some_.ne'
  have upTo : last ≤ target := by
    by_cases none_ : plan = []
    · subst none_
      have zero : 0 = last := run
      omega
    · obtain ⟨f, mem, rfl⟩ := run.exists_last none_
      exact (members f mem).2.resolve_left nonzero
  have inside : ∀ f ∈ plan, f ∈ allFiles ltxFiles := fun f mem => (members f mem).1
  rw [listing.mem_cuts]
  refine ⟨⟨?_, fun cut => ?_⟩, fun result ok => ?_⟩
  · rintro ⟨result, ok⟩
    obtain ⟨rfl, _, there, _⟩ := (ok_iff result).mp ok
    exact ⟨some_, result, inside, le_antisymm upTo there ▸ run⟩
  · have there : target ≤ last := by
      rcases ended with ⟨_, there⟩ | done
      · exact there
      · exact cut.2.le fun f mem upTo => done f mem (.inr upTo)
    refine ⟨plan, (ok_iff plan).mpr ⟨rfl, ?_, there, fun zero => absurd zero nonzero⟩⟩
    rintro rfl
    have zero : 0 = last := run
    omega
  · obtain ⟨rfl, _, there, _⟩ := (ok_iff result).mp ok
    exact ⟨inside, le_antisymm upTo there ▸ run⟩

/-- **The planner finds the cuts, and only those.**  Without a target it ends at the largest
cut, unless an object of a level starts beyond it. -/
theorem calcRestorePlan_iff_cut (listing : Listed ltxFiles) :
    (∀ target, 0 < target →
      ((∃ plan, calcRestorePlan ltxFiles target = .ok plan) ↔ target ∈ cutsOf (allFiles ltxFiles)) ∧
      ∀ plan, calcRestorePlan ltxFiles target = .ok plan → (∀ f ∈ plan, f ∈ allFiles ltxFiles) ∧
        Extends minTxid maxTxid 0 plan target) ∧
    ((∃ plan, calcRestorePlan ltxFiles 0 = .ok plan) ↔
      ∃ top ∈ cutsOf (allFiles ltxFiles), (∀ cut ∈ cutsOf (allFiles ltxFiles), cut ≤ top) ∧
        ∀ level < snapshotLevel, ∀ f ∈ ltxFiles level, f.minTxid ≤ top + 1) ∧
    (∀ plan, calcRestorePlan ltxFiles 0 = .ok plan → (∀ f ∈ plan, f ∈ allFiles ltxFiles) ∧
      ∃ top ∈ cutsOf (allFiles ltxFiles), (∀ cut ∈ cutsOf (allFiles ltxFiles), cut ≤ top) ∧
        Extends minTxid maxTxid 0 plan top) ∧
    ∀ txid, (∃ cut ∈ cutsOf (allFiles ltxFiles), txid ≤ cut) →
      ∃ cut plan, calcRestorePlanAtOrAfter ltxFiles txid = .ok (cut, plan) ∧ txid ≤ cut ∧
        (∀ other ∈ cutsOf (allFiles ltxFiles), txid ≤ other → cut ≤ other) ∧
        Extends minTxid maxTxid 0 plan cut := by
  refine ⟨fun target some_ => listing.plan_iff some_, ?_⟩
  obtain ⟨plan, last, run, members, ended, ok_iff⟩ := listing.ascending.plan 0
  have inside : ∀ f ∈ plan, f ∈ allFiles ltxFiles := fun f mem => (members f mem).1
  have cuts_le : ∀ cut ∈ cutsOf (allFiles ltxFiles), cut ≤ last := fun cut mem =>
    (listing.mem_cuts.mp mem).2.le fun f listed _ =>
      ended.resolve_left (fun targeted => targeted.1 rfl) f listed (.inl rfl)
  have isCut : plan ≠ [] ↔ last ∈ cutsOf (allFiles ltxFiles) := by
    rw [listing.mem_cuts]
    constructor
    · intro nonempty
      obtain ⟨f, mem, rfl⟩ := run.exists_last nonempty
      have bounds := listing.valid f (inside f mem)
      exact ⟨by omega, plan, inside, run⟩
    · rintro ⟨above, _⟩ rfl
      have zero : 0 = last := run
      omega
  refine ⟨⟨?_, ?_⟩, fun result ok => ?_, fun txid some_ => ?_⟩
  · rintro ⟨result, ok⟩
    obtain ⟨_, nonempty, _, gapless⟩ := (ok_iff result).mp ok
    exact ⟨last, isCut.mp nonempty, cuts_le, gapless rfl⟩
  · rintro ⟨top, mem, greatest, gapless⟩
    have nonempty : plan ≠ [] := by
      rintro rfl
      have zero : 0 = last := run
      have above := (listing.mem_cuts.mp mem).1
      have below := cuts_le top mem
      omega
    have top_eq : top = last := le_antisymm (cuts_le top mem) (greatest last (isCut.mp nonempty))
    exact ⟨plan, (ok_iff plan).mpr ⟨rfl, nonempty, Nat.zero_le _, fun _ => top_eq ▸ gapless⟩⟩
  · obtain ⟨rfl, nonempty, _⟩ := (ok_iff result).mp ok
    exact ⟨inside, last, isCut.mp nonempty, cuts_le, run⟩
  · obtain ⟨other, mem, after⟩ := some_
    cases found : (cutsOf (allFiles ltxFiles)).find? fun cut => txid ≤ cut with
    | none => exact absurd (decide_eq_true after) (find?_eq_none.mp found other mem)
    | some cut =>
        obtain ⟨at_, _, _, split, earlier⟩ := find?_eq_some_iff_append.mp found
        have cutMem := mem_of_find?_eq_some found
        obtain ⟨exists_, ends⟩ := listing.plan_iff (listing.mem_cuts.mp cutMem).1
        obtain ⟨result, ok⟩ := exists_.mpr cutMem
        refine ⟨cut, result, ?_, of_decide_eq_true at_, ?_, (ends result ok).2⟩
        · simp only [calcRestorePlanAtOrAfter, found, ok]
          rfl
        · -- The cuts are ascending, so what is before the first is too early.
          intro other mem after
          have order : (cutsOf (allFiles ltxFiles)).Pairwise fun a b => compare a b = .lt :=
            ordered_toList
          rw [split] at mem order
          rcases mem_append.mp mem with before | here
          · have early := earlier other before
            simp [after] at early
          · rcases mem_cons.mp here with rfl | later
            · exact le_rfl
            · have rising := (pairwise_cons.mp (pairwise_append.mp order).2.1).1 other later
              exact (Nat.compare_eq_lt.mp rising).le

end Cuts

/-- Two objects of one transaction each and one over both: the second transaction is a cut. -/
theorem overlapping_cut : ∃ ltxFiles : ℕ → List FileInfo, 2 ∈ cutsOf (allFiles ltxFiles) := by
  let ltxFiles : ℕ → List FileInfo := fun level =>
    if level = 0 then [⟨0, 1, 1, 0, none⟩, ⟨0, 2, 2, 0, none⟩] else if level = 1
      then [⟨1, 1, 2, 0, none⟩] else []
  have listing : Listed ltxFiles := ⟨by decide +kernel, by decide +kernel, by decide +kernel⟩
  have planned : calcRestorePlan ltxFiles 2 = .ok [⟨1, 1, 2, 0, none⟩] := by decide +kernel
  exact ⟨ltxFiles, ((calcRestorePlan_iff_cut listing).1 2 (by decide)).1.mp ⟨_, planned⟩⟩

end Celld.Replica
