import Celld.Export.Deliveries
import Celld.Export.Reset

/-!
# The state is a function of the record set

The state of a stream does not depend on the order its records arrived in, but for two ties the
consumer breaks by arrival: two `rows` records of one open table at one position above its
snapshot, and two watermarks that carry a chain on from where it is to different positions.
Without such a tie, any two deliveries of a collection leave the same state.
-/

namespace Celld.Export

open List RecordKey

theorem max?_perm {l l' : List Position} (perm : l.Perm l') : l.max? = l'.max? :=
  Option.ext fun a => by
    simp only [max?_eq_some_iff, perm.mem_iff]

theorem min?_perm {l l' : List Position} (perm : l.Perm l') : l.min? = l'.min? :=
  Option.ext fun a => by
    simp only [min?_eq_some_iff, perm.mem_iff]

theorem bestCut_perm {cs cs' : List Cut} (perm : cs.Perm cs')
    (ranks : ∀ c ∈ cs, ∀ c' ∈ cs, c.rank = c'.rank → c = c') : bestCut cs = bestCut cs' := by
  cases found : bestCut cs with
  | none =>
    have empty : cs = [] := eq_nil_iff_forall_not_mem.mpr fun c mem => by
      simpa [found] using (bestCut_greatest cs).1 c mem
    subst empty
    rw [nil_perm.mp perm, bestCut, foldl_nil]
  | some best =>
    obtain ⟨mem, greatest⟩ := (bestCut_greatest cs).2 best found
    refine (bestCut_eq_some (perm.mem_iff.mp mem) fun c memC => ?_).symm
    have memC := perm.mem_iff.mpr memC
    rcases (greatest c memC).lt_or_eq with below | level
    · exact .inr (by simpa [Cut.beats] using below)
    · exact .inl (ranks c memC best mem level)

section

variable {V : Type}

/-- The records of a stream that replace or change rows are told apart by their keys. -/
def Keyed (records : List (Entry V)) : Prop :=
  ∀ e ∈ records, ∀ e' ∈ records, e.body.kind ∈ [Kind.rows, .snapshot, .snapshotEnd] →
    e.body.kind = e'.body.kind → e.position = e'.position → e.origin = e'.origin →
    tableOf e.body = tableOf e'.body →
    snapshotOf e.body = snapshotOf e'.body → e = e'

/-- Where a chain of an epoch's watermarks can be, whichever of them it takes. -/
inductive Reaches (records : List (Entry V)) (epoch : ℕ) : Option Position → Prop
  | start : Reaches records epoch none
  | carry {reached : Option Position} {w : WatermarkBody} : Reaches records epoch reached →
      w ∈ watermarks records → w.continues records epoch reached →
      Reaches records epoch (some w.through)

/-- No tie that arrival order would break. -/
structure Clear (records : List (Entry V)) : Prop where
  /-- The changes of an open table that are applied at one position come from one origin. -/
  rows : ∀ tg, isOpen records tg → ∀ e ∈ liveRows records tg (cutFor records tg),
    ∀ e' ∈ liveRows records tg (cutFor records tg), e.position = e'.position → e.origin = e'.origin
  /-- The watermarks that carry a chain on from where it is carry it to one position. -/
  marks : ∀ epoch reached, Reaches records epoch reached → ∀ w ∈ watermarks records,
    ∀ w' ∈ watermarks records, w.continues records epoch reached →
    w'.continues records epoch reached → w.through = w'.through

variable {records records' : List (Entry V)} {tg : TableGen}

/-! ## Cuts and generations -/

theorem mem_cuts {c : Cut} (mem : c ∈ cuts records) :
    (⟨c.position, c.origin, .snapshotEnd c.end_⟩ : Entry V) ∈ records := by
  obtain ⟨_, _, cut⟩ := mem_filterMap.mp mem
  unfold cutOf at cut
  split at cut
  case h_1 body snapshot =>
    split_ifs at cut
    cases cut
    rwa [← snapshot]
  case h_2 => cases cut

theorem Keyed.ranks (keyed : Keyed records) {c c' : Cut} (mem : c ∈ cuts records)
    (mem' : c' ∈ cuts records) (level : c.rank = c'.rank) : c = c' := by
  simp only [Cut.rank, EmbeddingLike.apply_eq_iff_eq, Prod.mk.injEq] at level
  have same := keyed _ (mem_cuts mem) _ (mem_cuts mem') (by simp [Body.kind]) rfl level.1 level.2.1
    rfl (congrArg some level.2.2)
  rcases c with ⟨_, _⟩
  rcases c' with ⟨_, _⟩
  simpa using same

theorem streamCut_mem {c : Cut} (found : streamCut records = some c) : c ∈ cuts records :=
  (mem_filter.mp ((bestCut_greatest _).2 c found).1).1

theorem snapshotData_eq_some {c : Cut} {e : Entry V} {data : TableRows V}
    (holds : e.snapshotData c tg = some data) :
    e = ⟨c.position, c.origin, .snapshot c.end_.snapshotId data⟩ ∧ data.tableGen = tg := by
  unfold Entry.snapshotData at holds
  split at holds
  case h_1 id data' body =>
    split_ifs at holds with mine
    cases holds
    simp only [Bool.and_eq_true, decide_eq_true_eq] at mine
    rcases e with ⟨position, origin, _⟩
    simp_all
  case h_2 => cases holds

theorem rowsData_eq_some {body : Body V} {data : TableRows V}
    (changes : body.rowsData tg = some data) : body = .rows data ∧ data.tableGen = tg := by
  cases body with
  | rows =>
    simp only [Body.rowsData] at changes
    split_ifs at changes with mine
    cases changes
    exact ⟨rfl, mine⟩
  | _ => cases changes

theorem mem_liveRows {cut : Option Cut} {e : Entry V}
    (mem : e ∈ liveRows records tg cut) : e ∈ records ∧ (e.body.rowsData tg).isSome := by
  rw [liveRows, (perm_insertionSort _ _).mem_iff, mem_filter] at mem
  exact ⟨mem.1, (Bool.and_eq_true _ _ ▸ mem.2).1⟩

section Permutation

variable (perm : records.Perm records')

include perm

theorem cutOf_perm : cutOf records = cutOf records' := by
  funext e
  simp only [cutOf, perm.countP_eq]

theorem cuts_perm : (cuts records).Perm (cuts records') := by
  rw [cuts, cuts, cutOf_perm perm]
  exact perm.filterMap _

theorem streamCut_perm (keyed : Keyed records) :
    streamCut records = streamCut records' :=
  bestCut_perm ((cuts_perm perm).filter _) fun _ mem _ mem' level =>
    keyed.ranks (mem_filter.mp mem).1 (mem_filter.mp mem').1 level

theorem cutFor_perm (keyed : Keyed records) (tg : TableGen) :
    cutFor records tg = cutFor records' tg := by
  rw [cutFor, cutFor, ← streamCut_perm perm keyed]
  have all_cuts : ∀ c ∈ (cuts records).filter (fun c => c.end_.scope = .tables &&
      tg ∈ c.end_.tables) ++ (streamCut records).toList, c ∈ cuts records := by
    intro c mem
    rcases mem_append.mp mem with table | stream
    · exact (mem_filter.mp table).1
    · exact streamCut_mem (Option.mem_toList.mp stream)
  exact bestCut_perm (((cuts_perm perm).filter _).append_right _) fun c mem c' mem' level =>
    keyed.ranks (all_cuts c mem) (all_cuts c' mem') level

theorem isOpen_perm (tg : TableGen) :
    isOpen records tg = isOpen records' tg := by
  have opened : openedAt records tg = openedAt records' tg :=
    min?_perm ((perm.filter _).map _)
  simp only [isOpen, superseded, opened, perm.any_eq]

/-! ## Rows -/

/-- The records of a snapshot hold each table once. -/
theorem snapshotRows_perm (keyed : Keyed records) (c : Cut)
    (tg : TableGen) : records.filterMap (Entry.snapshotData c tg) =
      records'.filterMap (Entry.snapshotData c tg) := by
  have always : ∀ l : List (TableRows V), l.Pairwise fun _ _ => True :=
    fun l => pairwise_iff_getElem.mpr fun _ _ _ _ _ => trivial
  refine List.Perm.eq_of_pairwise (fun data data' mem mem' _ _ => ?_) (always _) (always _)
    (perm.filterMap _)
  obtain ⟨_, memE, holds⟩ := mem_filterMap.mp mem
  obtain ⟨_, memE', holds'⟩ := mem_filterMap.mp mem'
  obtain ⟨rfl, table⟩ := snapshotData_eq_some holds
  obtain ⟨rfl, table'⟩ := snapshotData_eq_some holds'
  have same := keyed _ memE _ (perm.mem_iff.mpr memE') (by simp [Body.kind]) rfl rfl rfl
    (by simp only [tableOf, table, table']) rfl
  simpa using same

/-- Changes at one position are one record. -/
theorem liveRows_perm (keyed : Keyed records) {cut : Option Cut}
    (origins : ∀ e ∈ liveRows records tg cut, ∀ e' ∈ liveRows records tg cut,
      e.position = e'.position → e.origin = e'.origin) :
    liveRows records tg cut = liveRows records' tg cut := by
  have sorted : (liveRows records tg cut).Perm (liveRows records' tg cut) :=
    (perm_insertionSort _ _).trans ((perm.filter _).trans (perm_insertionSort _ _).symm)
  have total : Std.Total fun a b : Entry V => a.position ≤ b.position := ⟨fun a b => le_total _ _⟩
  have trans : IsTrans (Entry V) fun a b => a.position ≤ b.position :=
    ⟨fun _ _ _ => le_trans⟩
  refine List.Perm.eq_of_pairwise (fun e e' mem mem' le ge => ?_)
    (pairwise_insertionSort _ _) (pairwise_insertionSort _ _) sorted
  have position := le_antisymm le ge
  have mem' := sorted.mem_iff.mpr mem'
  have origin := origins e mem e' mem' position
  obtain ⟨memE, changes⟩ := mem_liveRows mem
  obtain ⟨memE', changes'⟩ := mem_liveRows mem'
  obtain ⟨_, rows⟩ := Option.isSome_iff_exists.mp changes
  obtain ⟨_, rows'⟩ := Option.isSome_iff_exists.mp changes'
  obtain ⟨body, table⟩ := rowsData_eq_some rows
  obtain ⟨body', table'⟩ := rowsData_eq_some rows'
  exact keyed e memE e' memE' (by simp [body, Body.kind]) (by simp [body, body', Body.kind])
    position origin (by simp [body, body', tableOf, table, table'])
    (by simp [body, body', snapshotOf])

section

variable [Ord V] [Std.TransOrd V]

theorem tableState_perm (keyed : Keyed records) (clear : Clear records)
    (isOpen : isOpen records tg) : tableState records tg = tableState records' tg := by
  have live := liveRows_perm perm keyed (clear.rows tg isOpen)
  rw [cutFor_perm perm keyed tg] at live
  simp only [tableState, cutFor_perm perm keyed tg, live, snapshotRows_perm perm keyed]

end

/-! ## Certification and gaps -/

theorem matches_perm (w : WatermarkBody) :
    w.matches_ records = w.matches_ records' := by
  have inRange := (perm.filter (·.isSent)).filter fun e => w.spans e.position
  simp only [WatermarkBody.matches_, inRange.length_eq, (inRange.map (·.position)).dedup.length_eq]

/-- The watermark that is found may differ; where it leads does not. -/
theorem chain_perm (clear : Clear records) (epoch fuel : ℕ) {reached : Option Position}
    (reaches : Reaches records epoch reached) :
    chain records epoch fuel reached = chain records' epoch fuel reached := by
  have marks : (watermarks records).Perm (watermarks records') := perm.filterMap _
  have continues : ∀ w reached, WatermarkBody.continues w records epoch reached =
      w.continues records' epoch reached := by
    intro w reached
    simp only [WatermarkBody.continues, matches_perm perm w]
  induction fuel generalizing reached with
  | zero => rfl
  | succ fuel ih =>
    simp only [chain, ← continues]
    have both : ((watermarks records).find? (·.continues records epoch reached)).isSome =
        ((watermarks records').find? (·.continues records epoch reached)).isSome := by
      rw [isSome_find?, isSome_find?, marks.any_eq]
    cases found : (watermarks records).find? (·.continues records epoch reached) <;>
      cases found' : (watermarks records').find? (·.continues records epoch reached) <;>
      rw [found, found'] at both
    case succ.some.some w w' =>
      have mem := mem_of_find?_eq_some found
      have on := find?_some found
      have on' := find?_some found'
      have through := clear.marks epoch reached reaches w mem w'
        (marks.mem_iff.mpr (mem_of_find?_eq_some found')) on on'
      simp only [← through]
      exact ih (reaches.carry mem on)
    all_goals cases both

theorem certify_perm (clear : Clear records) :
    certify records = certify records' := by
  funext epoch
  have count : (watermarks records).length = (watermarks records').length :=
    (perm.filterMap _).length_eq
  rw [certify, certify, count]
  exact chain_perm perm clear epoch _ .start

theorem gapOf_perm (keyed : Keyed records)
    (clear : Clear records) : gapOf records = gapOf records' := by
  have coveredEq : covered records = covered records' := by
    funext epoch txid
    rw [covered, covered, streamCut_perm perm keyed]
  have beyondEq : beyond records = beyond records' := by
    funext epoch txid
    rw [beyond, beyond, certify_perm perm clear]
  funext e
  rw [gapOf, gapOf, coveredEq, beyondEq, certify_perm perm clear]

/-! ## One stream -/

theorem undeleted_perm :
    (undeleted records).Perm (undeleted records') ∧ deletedAt records = deletedAt records' := by
  have deleted : deletedAt records = deletedAt records' := max?_perm ((perm.filter _).map _)
  rw [undeleted, undeleted, deleted]
  exact ⟨perm.filter _, rfl⟩

section

variable [Ord V] [Std.TransOrd V]

/-- A state with its gaps as a set. -/
def StreamState.view (s : StreamState V) : (TableGen → Option (TableState V)) ×
    (TableGen → Bool) × (ℕ → Option Position) × Set Gap × Option Position × Option Position :=
  (s.tables, s.uncertain, s.certified, {gap | gap ∈ s.gaps}, s.deletedAt, s.snapshotAt)

theorem derive_perm (keyed : Keyed (undeleted records))
    (clear : Clear (undeleted records)) : (derive records).view = (derive records').view := by
  obtain ⟨kept, deleted⟩ := undeleted_perm perm
  have tables : (derive records).tables = (derive records').tables := by
    funext tg
    simp only [derive, ← isOpen_perm kept]
    cases opened : isOpen (undeleted records) tg
    · rfl
    · simp only [tableState_perm kept keyed clear opened]
  have uncertain : (derive records).uncertain = (derive records').uncertain := by
    funext tg
    simp only [derive, isOpen_perm kept, cutFor_perm kept keyed, kept.any_eq]
  have gaps : {gap | gap ∈ (derive records).gaps} = {gap | gap ∈ (derive records').gaps} := by
    ext gap
    simp only [derive, gapOf_perm kept keyed clear, Set.mem_ofPred_eq]
    exact (kept.filterMap _).mem_iff
  simp only [StreamState.view, tables, uncertain, gaps, Prod.mk.injEq, true_and]
  exact ⟨certify_perm kept clear, deleted, by simp only [derive, streamCut_perm kept keyed]⟩

end

end Permutation

/-! ## Every stream -/

theorem StreamId.recoveredMatches_perm {candidates candidates' : List StreamId}
    (perm : candidates.Perm candidates') (s recovered : StreamId) (head : Position) :
    s.recoveredMatches recovered head candidates =
      s.recoveredMatches recovered head candidates' := by
  simp only [StreamId.recoveredMatches, (perm.filter _).all_eq]

variable {held held' : List (Filed V)}

theorem adopted_perm (perm : held.Perm held') : adopted held = adopted held' := by
  funext stream e
  simp only [adopted, StreamId.recoveredMatches_perm (perm.map _), (perm.map _).any_eq]

theorem filedUnder_perm (perm : held.Perm held') (stream : StreamId) :
    (filedUnder held stream).Perm (filedUnder held' stream) :=
  (perm.filter _).map _

theorem recordsOf_perm (perm : held.Perm held') (stream : StreamId) :
    (recordsOf held stream).Perm (recordsOf held' stream) := by
  have applies : appliesTo held stream = appliesTo held' stream := by
    funext r
    simp only [appliesTo, StreamId.recoveredMatches_perm (perm.map _)]
  rw [recordsOf, recordsOf, adopted_perm perm, applies]
  split
  · exact (filedUnder_perm perm stream).filter _
  · exact (filedUnder_perm perm stream).append ((perm.filter _).map _)

theorem mem_recordsOf {stream : StreamId} {e : Entry V} (mem : e ∈ recordsOf held stream) :
    e ∈ held.map (·.entry) := by
  rw [recordsOf] at mem
  have filed : ∀ e ∈ filedUnder held stream, e ∈ held.map (·.entry) := fun e mem =>
    (filter_sublist.map _).subset mem
  split_ifs at mem
  · exact filed e (mem_filter.mp mem).1
  · rcases mem_append.mp mem with own | applied
    · exact filed e own
    · exact (filter_sublist.map _).subset applied

/-- A stream reads its own records, and `recovered` records of others. -/
theorem Keyed.recordsOf {stream : StreamId} (keyed : Keyed (filedUnder held stream)) :
    Keyed (undeleted (recordsOf held stream)) := by
  have own : ∀ e ∈ undeleted (Export.recordsOf held stream),
      e.body.kind ∈ [Kind.rows, .snapshot, .snapshotEnd] → e ∈ filedUnder held stream := by
    intro e mem kind
    have mem := (mem_filter.mp mem).1
    rw [Export.recordsOf] at mem
    split_ifs at mem
    · exact (mem_filter.mp mem).1
    · refine (mem_append.mp mem).resolve_right fun applied => ?_
      obtain ⟨r, memR, rfl⟩ := mem_map.mp applied
      have applies := (mem_filter.mp memR).2
      cases body : r.entry.body <;> simp_all [appliesTo, Body.kind]
  intro e mem e' mem' kind same
  exact keyed e (own e mem kind) e' (own e' mem' (same ▸ kind)) kind same

theorem stateOf_perm [Ord V] [Std.TransOrd V] (perm : held.Perm held') (stream : StreamId)
    (keyed : Keyed (filedUnder held stream))
    (clear : (stateOf held stream).isSome → Clear (undeleted (recordsOf held stream))) :
    (stateOf held stream).map StreamState.view = (stateOf held' stream).map StreamState.view := by
  have present : (stream ∈ held.map (·.stream)) = (stream ∈ held'.map (·.stream)) :=
    propext (perm.map _).mem_iff
  have gone : facetDeleted held stream = facetDeleted held' stream := perm.any_eq
  have away : fullyAdopted held stream = fullyAdopted held' stream := by
    simp only [fullyAdopted, adopted_perm perm, (filedUnder_perm perm stream).all_eq]
  simp only [stateOf, ← present, ← gone, ← away] at clear ⊢
  split at clear
  case isTrue shown =>
    rw [if_pos shown, if_pos shown]
    exact congrArg some (derive_perm (recordsOf_perm perm stream) keyed.recordsOf (clear rfl))
  case isFalse hidden => rw [if_neg hidden, if_neg hidden]

/-! ## Any two deliveries -/

variable [DecidableEq V]

/-- The records of a collection as a consumer files them, each once. -/
def filings (sizes : Sizes V) (maxBytes : ℕ) (collection : List (Record V)) : List (Filed V) :=
  ((collection.map (whole sizes maxBytes)).map Record.filed).dedup

variable {sizes : Sizes V} {maxBytes : ℕ} {collection : List (Record V)}

theorem Distinct.keyed (distinct : Distinct collection) (stream : StreamId) :
    Keyed (filedUnder (filings sizes maxBytes collection) stream) := by
  have source : ∀ e ∈ filedUnder (filings sizes maxBytes collection) stream,
      ∃ r ∈ collection, (whole sizes maxBytes r).filed = ⟨stream, e⟩ := by
    intro e mem
    obtain ⟨_, memX, rfl⟩ := mem_map.mp mem
    obtain ⟨memX, under⟩ := mem_filter.mp memX
    rw [filings, mem_dedup, map_map] at memX
    obtain ⟨r, memR, rfl⟩ := mem_map.mp memX
    exact ⟨r, memR, by rw [← of_decide_eq_true under]; rfl⟩
  have plain : ∀ body : Body V, body.kind ∈ [Kind.rows, .snapshot, .snapshotEnd] →
      targetOf body = none ∧ bulkOf body = [] := by
    intro body kind
    cases body <;> first | exact ⟨rfl, rfl⟩ | simp [Body.kind] at kind
  intro e mem e' mem' kind same position origin table snapshot
  obtain ⟨r, memR, filed⟩ := source e mem
  obtain ⟨r', memR', filed'⟩ := source e' mem'
  have key : of (whole sizes maxBytes r) = of (whole sizes maxBytes r') := by
    simp only [Record.filed, Record.entry, Filed.mk.injEq] at filed filed'
    obtain ⟨stream_eq, rfl⟩ := filed
    obtain ⟨stream_eq', rfl⟩ := filed'
    have here := plain _ kind
    have there := plain _ (same ▸ kind)
    simp only at position origin table snapshot same here there
    simp only [of, stream_eq, stream_eq', position, origin, table, snapshot, same, here,
      there]
  have files := (distinct.whole_filed memR memR' key).1
  rw [filed, filed'] at files
  simpa using files

variable [Ord V] [Std.TransOrd V]

/-- A delivery leaves the state of the collection's records. -/
theorem Delivers.state_eq {delivery : List (Record V)} (distinct : Distinct collection)
    (delivers : Delivers sizes maxBytes collection delivery) (stream : StreamId)
    (clear : (stateOf (filings sizes maxBytes collection) stream).isSome →
      Clear (undeleted (recordsOf (filings sizes maxBytes collection) stream))) :
    (stateOf (filings sizes maxBytes collection) stream).map StreamState.view =
      ((({} : Consumer V).ingestAll delivery).2.state stream).map StreamState.view := by
  obtain ⟨-, nodup, filed⟩ := delivers.filed distinct
  refine stateOf_perm ?_ stream (distinct.keyed stream) clear
  refine (perm_ext_iff_of_nodup (nodup_dedup _) nodup).mpr fun x => ?_
  rw [mem_dedup, filed]

/-- Any two deliveries of a collection whose live streams have no tie leave the same state. -/
theorem Consumer.state_same (distinct : Distinct collection)
    (clear : ∀ stream, (stateOf (filings sizes maxBytes collection) stream).isSome →
      Clear (undeleted (recordsOf (filings sizes maxBytes collection) stream)))
    {delivery delivery' : List (Record V)} (delivers : Delivers sizes maxBytes collection delivery)
    (delivers' : Delivers sizes maxBytes collection delivery') :
    (({} : Consumer V).ingestAll delivery).1 = .ok () ∧
      (({} : Consumer V).ingestAll delivery').1 = .ok () ∧
      ∀ stream, ((({} : Consumer V).ingestAll delivery).2.state stream).map StreamState.view =
        ((({} : Consumer V).ingestAll delivery').2.state stream).map StreamState.view :=
  ⟨(delivers.filed distinct).1, (delivers'.filed distinct).1, fun stream =>
    (delivers.state_eq distinct stream (clear stream)).symm.trans
      (delivers'.state_eq distinct stream (clear stream))⟩

end

/-! ## Two watermarks of one start -/

/-- A record of one stream. -/
def recordAt (position : Position) (body : Body ℕ) : Record ℕ :=
  { envelope :=
      { stream := { script := "s", class_ := "c", cell := "x", incarnation := 1 }
        position := position }
    body := body }

/-- Lengths that count rows. -/
def rowCounts : Sizes ℕ := ⟨fun r => r.rows.length, fun _ => 1⟩

/-- The link of a process, its watermark, and the first watermark of the process that resumed the
epoch, whose own link was lost. -/
def twoStarts : List (Record ℕ) :=
  [recordAt ⟨1, 1, 0⟩ (.link { startTxid := 1 }),
    recordAt ⟨1, 1, 0⟩ (.watermark ⟨none, ⟨1, 1, 0⟩, 1, 1⟩),
    recordAt ⟨1, 2, 0⟩ (.watermark ⟨none, ⟨1, 2, 0⟩, 1, 1⟩)]

/-- The position the epoch is certified to is that of the watermark that came first. -/
theorem Consumer.twoStarts_differ : Distinct twoStarts ∧
    Delivers rowCounts 1 twoStarts twoStarts ∧ Delivers rowCounts 1 twoStarts twoStarts.reverse ∧
    ((({} : Consumer ℕ).ingestAll twoStarts).2.state (recordAt ⟨1, 1, 0⟩ (.bulk [])).stream).map
      (·.certified 1) = some (some ⟨1, 1, 0⟩) ∧
    ((({} : Consumer ℕ).ingestAll twoStarts.reverse).2.state
      (recordAt ⟨1, 1, 0⟩ (.bulk [])).stream).map (·.certified 1) = some (some ⟨1, 2, 0⟩) := by
  have once := delivers_flatMap rowCounts 1 twoStarts
  have uncut : (twoStarts.flatMap fun r => (split rowCounts 1 r).wire) = twoStarts := by
    decide +kernel
  rw [uncut] at once
  refine ⟨⟨by decide +kernel, by decide +kernel⟩, once, ?_, by decide +kernel, by decide +kernel⟩
  intro f
  rw [mem_reverse]
  exact once f

/-- Two rows, cut into two fragments, and the watermark that counts them. -/
def cutRows : List (Record ℕ) :=
  [recordAt ⟨1, 1, 0⟩ (.rows ⟨"t", 1, ["id"], ["id"], [⟨.insert, [1], [1]⟩, ⟨.insert, [2], [2]⟩]⟩),
    recordAt ⟨1, 1, 1⟩ (.watermark ⟨none, ⟨1, 1, 1⟩, 1, 1⟩)]

theorem cutRows_clear (stream : StreamId) :
    Clear (undeleted (recordsOf (filings rowCounts 1 cutRows) stream)) := by
  have source : ∀ e ∈ undeleted (recordsOf (filings rowCounts 1 cutRows) stream),
      e ∈ cutRows.map Record.entry := by
    intro e mem
    have filed := mem_recordsOf (mem_filter.mp mem).1
    rwa [show (filings rowCounts 1 cutRows).map (·.entry) = cutRows.map Record.entry by
      decide +kernel] at filed
  have live : ∀ e ∈ cutRows.map Record.entry, e.origin = .live := by decide +kernel
  have only : ∀ w ∈ watermarks (cutRows.map Record.entry), w.through = ⟨1, 1, 1⟩ := by
    decide +kernel
  have ends : ∀ w ∈ watermarks (undeleted (recordsOf (filings rowCounts 1 cutRows) stream)),
      w.through = ⟨1, 1, 1⟩ := by
    intro w mem
    obtain ⟨e, memE, body⟩ := mem_watermarks.mp mem
    exact only w (mem_watermarks.mpr ⟨e, source e memE, body⟩)
  constructor
  · intro tg _ e mem e' mem' _
    rw [live e (source e (mem_liveRows mem).1), live e' (source e' (mem_liveRows mem').1)]
  · intro _ _ _ w mem w' mem' _ _
    rw [ends w mem, ends w' mem']

/-- The fragments in order, and backwards with every one twice. -/
theorem Consumer.cutRows_same :
    (({} : Consumer ℕ).ingestAll (cutRows.flatMap fun r => (split rowCounts 1 r).wire)).1 = .ok () ∧
      (({} : Consumer ℕ).ingestAll ((cutRows.flatMap fun r => (split rowCounts 1 r).wire).reverse ++
        cutRows.flatMap fun r => (split rowCounts 1 r).wire)).1 = .ok () ∧
      ∀ stream, ((({} : Consumer ℕ).ingestAll
          (cutRows.flatMap fun r => (split rowCounts 1 r).wire)).2.state stream).map
            StreamState.view =
        ((({} : Consumer ℕ).ingestAll
          ((cutRows.flatMap fun r => (split rowCounts 1 r).wire).reverse ++
            cutRows.flatMap fun r => (split rowCounts 1 r).wire)).2.state stream).map
            StreamState.view := by
  have once := delivers_flatMap rowCounts 1 cutRows
  refine Consumer.state_same ⟨by decide +kernel, by decide +kernel⟩
    (fun stream _ => cutRows_clear stream) once fun f => ?_
  rw [mem_append, mem_reverse, or_self]
  exact once f

end Celld.Export
