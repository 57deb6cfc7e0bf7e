import Celld.Moves.Alarm

/-!
# Node-wide decisions

The deadline of the queues is the one place that takes a cell off both of them.  A generation
swap nominates resident cells only, and stops the nominated ones.  The lists of dormant cells to
release are computed before the first release, so each release has to find its cell still dormant;
a release changes no phase, which is all it takes.

The fence takes every permit and both queues away before it visits the cells.  Until a cell is
visited, the books see it as holding its slot and nothing else (`Ledger.revoked`).
-/

namespace Celld

open List Std.ExtTreeMap Ledger

/-- The phase of a cell of the table. -/
def Core.phaseAt (c : Core) (id : CellId) : Option Phase := (c.cells[id]?).map (·.phase)

namespace CoreTurn

variable {G : Grants} {r : Rules} {t : CoreTurn} {id : CellId} {cell : Cell}

/-! ## Requested evictions and load -/

/-- Only an admitted eviction touches its cell, and it begins as a shed one does. -/
theorem admitEviction_turn (ready : Bool) (id : CellId) :
    Turns G r t (t.admitEviction ready id).2 := by
  unfold admitEviction
  split
  · exact .refl
  split
  · exact .refl
  split
  · exact .refl
  split
  · exact .refl
  · exact .refl
  split
  · exact .refl
  split
  · exact .refl
  · exact .refl
  · exact .refl
  · split
    · rename_i eq
      exact evictPass id false eq
    · rename_i eq
      exact evictPass id false eq
  · exact .refl

/-- The admission is answered first, and an eviction that begins notes who asked. -/
theorem evictRequested_turn (ready : Bool) (request : RequestId) (id : CellId) :
    Turns G r t (t.evictRequested ready request id) := by
  let admitted := admitEviction { t with effects := [] } ready id
  let answer : Except EvictError EvictionAdmission :=
    admitted.1.map fun op => if op.isSome then .pending else .absent
  have started : Turns G r { t with effects := [] } admitted.2 := admitEviction_turn ready id
  have answered : Turns G r t (t.push (.evictionAdmission request answer)) := table_push rfl
  -- The effects the admission caused stand behind the answer it was given.
  have caused : Moves G (t.push (.evictionAdmission request answer)).view
      (admitted.2.view.behind (t.effects ++ [.evictionAdmission request answer])) := by
    have moved := started.1.behind (.refl _) (t.effects ++ [.evictionAdmission request answer])
    simp only [View.behind, view, append_nil] at moved
    exact moved
  have view : (t.evictRequested ready request id).view
      = admitted.2.view.behind (t.effects ++ [.evictionAdmission request answer]) := by
    unfold evictRequested
    dsimp only
    split <;> rfl
  have books : (t.evictRequested ready request id).ledger = admitted.2.ledger := by
    unfold evictRequested
    dsimp only
    split <;> rfl
  rw [Turns, view, books]
  exact ⟨answered.1.trans caused, started.2⟩

/-- A load sample evicts what is idle, or sets a floor and sheds toward it. -/
theorem loadSampled_turn (drops : r.drops) (load : Load) (nowMonoMs : ℕ) :
    Turns G r t (t.loadSampled load nowMonoMs) := by
  have shed : ∀ u : CoreTurn, u.view = t.view → u.ledger = t.ledger →
      Turns G r t u.shedTowardFloor := by
    intro u view books
    rw [Turns, ← view, ← books]
    exact shedTowardFloor_turn
  unfold loadSampled
  dsimp only
  split
  · exact (pumpCapacity_turn (t := { t with
      memoryHeadroom := _, latches := _, shedReason := _, shedding := _, shedCut := none })
        drops).trans
      (evictIdle_turn _)
  split
  · exact .refl
  · exact shed _ rfl rfl

/-! ## Sockets and routes -/

/-- A socket is noted on its cell, or closed at once: nothing booked changes. -/
theorem websocketOpened_turn (websocket : WebSocketId) (kind : WebSocketKind) :
    Turns G r t (t.websocketOpened id websocket kind) := by
  unfold websocketOpened
  split
  · exact .refl
  dsimp only
  split
  · exact table_push rfl
  split
  · exact table_push rfl
  · exact table_modifyCell _ fun _ => rfl

theorem websocketClosed_turn (websocket : WebSocketId) :
    Turns G r t (t.websocketClosed id websocket) := by
  have closed : Turns G r t (t.modifyCell id fun cell =>
      { cell with websockets := cell.websockets.erase websocket }) :=
        table_modifyCell _ fun _ => rfl
  exact closed.trans shedOne_turn

/-- A cached lease may be forgotten at any time. -/
theorem uncache_moves (owner : NodeId) :
    Moves G t.view (view { t with nodeLeaseCache := t.nodeLeaseCache.erase owner }) := by
  have erased : Moves G (t.viewWith "" (t.view.cellAt ""))
      (CoreTurn.viewWith { t with nodeLeaseCache := t.nodeLeaseCache.erase owner } ""
        (t.view.cellAt "")) := cacheErase_hand owner
  have same : ∀ u : CoreTurn, u.view.cellAt = t.view.cellAt →
      u.viewWith "" (t.view.cellAt "") = u.view := by
    intro u eq
    rw [← eq]
    exact viewWith_getD u ""
  rw [same t rfl, same { t with nodeLeaseCache := t.nodeLeaseCache.erase owner } rfl] at erased
  exact erased

/-- A route that a send found stale is forgotten, with the lease it was read from. -/
theorem invalidateRemote_turn (drops : r.drops) (node : NodeId) (epoch : Epoch) :
    Turns G r t (t.invalidateRemote id node epoch) := by
  let uncached : CoreTurn := { t with nodeLeaseCache := t.nodeLeaseCache.erase node }
  have erased : Turns G r t uncached := ⟨uncache_moves node, .refl _⟩
  refine erased.trans ?_
  unfold invalidateRemote
  dsimp only
  split
  · exact .refl
  rename_i cell mem
  split
  · rename_i phase
    split
    · have parked : ∀ u : CoreTurn, u.view = uncached.view → u.ledger = uncached.ledger →
          Turns G r uncached ((u.setPhase cell .inactive).2.putCell id
            (u.setPhase cell .inactive).1) := by
        intro u view books
        have hands : Hands G r u id cell cell (u.setPhase cell .inactive) :=
          hand_park (.refl (.inl (by rw [phase]; rfl))) (.inr (.inr (by simp [Cell.asks, phase])))
            (.inl drops) rfl
        exact (hands.stored.congr view books).turn mem
      split
      · exact parked _ rfl rfl
      · exact parked _ rfl rfl
    · exact .refl
  · exact .refl

/-! ## Deadlines -/

/-- The requests of a queued cell are all told that the node is full. -/
theorem refuseQueued_spec (t : CoreTurn) (cell : Cell) :
    (t.refuseQueued cell).view
        = t.view.emit (cell.requests.toList.map (.complete · (.error .capacityExhausted))) ∧
      (t.refuseQueued cell).ledger = t.ledger := by
  have folded : ∀ (l : List RequestId) (t : CoreTurn),
      let u := l.foldl (fun t request => CoreTurn.push { t with
          requestCells := t.requestCells.erase request
          capacityRequests := t.capacityRequests.erase request }
        (.complete request (.error .capacityExhausted))) t
      u.view = t.view.emit (l.map (.complete · (.error .capacityExhausted))) ∧
          u.ledger = t.ledger := by
    intro l
    induction l with
    | nil => intro t; simp [View.emit]
    | cons request l ih =>
      intro t
      obtain ⟨view, books⟩ := ih (CoreTurn.push { t with
        requestCells := t.requestCells.erase request
        capacityRequests := t.capacityRequests.erase request }
        (.complete request (.error .capacityExhausted)))
      refine ⟨view.trans ?_, books⟩
      simp [View.emit, CoreTurn.view, push]
  exact folded _ t

theorem refuseQueued_hand (queued : Cell) :
    Hands G r t id cell cell (cell, t.refuseQueued queued) := by
  obtain ⟨view, books⟩ := refuseQueued_spec t queued
  refine hand_note _ ?_ view books
  intro _ mem
  obtain ⟨_, _, rfl⟩ := mem_map.mp mem
  rfl

/-- A cell that leaves the queue falls back on a phase that holds nothing. -/
theorem queuedFallback_isParked (cell : Cell) : (queuedFallback cell).isParked = true := by
  unfold queuedFallback
  split <;> rfl

/-- A queued cell whose time is up refuses its callers, and leaves unless it waits for itself. -/
theorem expireQueued_turn (drops : r.drops) (generation : ℕ) :
    Turns G r t (t.expireQueued id generation) := by
  unfold expireQueued
  split
  · exact .refl
  rename_i cell mem
  split
  · exact .refl
  split
  · exact .refl
  rename_i waits
  have queued : cell.phase.isQueued = true := by
    simp only [Bool.and_eq_true, decide_eq_true_eq, not_and_or, not_not] at waits
    rcases waits with phase | phase <;> rw [phase] <;> rfl
  let waited : Cell := { cell with requests := ∅, queuedGeneration := none }
  let refused := t.refuseQueued cell
  have begun : Hands G r t id cell cell (waited, refused) :=
    (refuseQueued_hand cell).trans (hand_touch waited rfl)
  dsimp only
  split
  · exact begun.stored.turn mem
  · rename_i unasked
    simp only [Bool.or_eq_true, not_or, Bool.not_eq_true] at unasked
    let unqueued : CoreTurn := { refused with
      activationWaiters := refused.activationWaiters.filter (· ≠ id)
      capacityWaiters := refused.capacityWaiters.filter (· ≠ id) }
    have left : Shifts r (refused.ledgerWith id waited)
        (unqueued.ledgerWith id { waited with phase := .inactive }) :=
      shift_retire queued (left_filter _ id _) (left_filter _ id _) (.inl drops)
        (.inr (.inl unasked.2)) rfl
    have forgets : waited.Forgets { waited with waitingActivation := none, waitingFor := none } :=
      ⟨rfl, rfl, .inl rfl, .inr rfl, .inr rfl⟩
    have settled : Hands G r unqueued id waited { waited with phase := .inactive }
        (unqueued.setPhase { waited with waitingActivation := none, waitingFor := none }
          (queuedFallback waited)) :=
      hand_settle forgets queued rfl (queuedFallback_isParked waited)
    refine Turns.trans ?_ (settleIf_turn cell.resumeDemand)
    exact Stores.turn mem
      ⟨begun.1.trans settled.stored.1, (begun.2.trans left).trans settled.stored.2⟩

/-- An error answer grants nothing. -/
theorem ownerRead_error_within (node : NodeId) (op : OpId) (nowMs : ℕ) (failure : Failure) :
    (Grants.ownerRead node op nowMs (.error failure)).Within G where
  claim := by rintro _ _ ⟨_, _, eq, _⟩; cases eq
  confirm := by rintro _ _ ⟨_, _, _, _, eq, _⟩; cases eq
  lease := by rintro _ _ _ ⟨_, eq, _⟩; cases eq
  recover := False.elim
  resume := False.elim
  proven := False.elim

/-- A failed lease read grants nothing. -/
theorem nodeLeaseRead_error_within (op : OpId) (failure : Failure) :
    (Grants.nodeLeaseRead op (.error failure)).Within G where
  claim := by rintro _ _ ⟨_, _, _, _, _, eq, _⟩; cases eq
  confirm := False.elim
  lease := False.elim
  recover := by rintro _ _ ⟨_, _, _, _, eq, _⟩; cases eq
  resume := False.elim
  proven := False.elim

/-- A failed log recovery grants nothing. -/
theorem nodeLogRecovered_error_within (op : OpId) (failure : Failure) :
    (Grants.nodeLogRecovered op (.error failure)).Within G where
  claim := by rintro _ _ ⟨eq, _⟩; cases eq
  confirm := False.elim
  lease := False.elim
  recover := False.elim
  resume := False.elim
  proven := False.elim

/-- A failed ownership write grants nothing. -/
theorem ownerCasCompleted_error_within (op : OpId) (failure : Failure) :
    (Grants.ownerCasCompleted op (.error failure)).Within G where
  claim := False.elim
  confirm := by rintro _ _ ⟨eq, _⟩; cases eq
  lease := False.elim
  recover := False.elim
  resume := False.elim
  proven := False.elim

/-- A deadline is handled as the failed completion of its operation. -/
theorem expireCellOperation_turn (drops : r.drops) (op : OpId) {nowMs : ℕ} (sound : t.CacheSound)
    (past : nowMs ≤ t.nowMs) (once : ReleasesOnce r t.toCore op) :
    Turns G r t (t.expireCellOperation op nowMs) := by
  unfold expireCellOperation
  split
  · exact .refl
  split
  · exact .refl
  split
  · exact ownerReleased_turn drops _ _ once
  split
  · exact successorAdopted_turn drops _ _
  split
  · exact settleAlarm_turn _ _ _ _
  split
  · exact .refl
  split
  · exact (ownerRead_turn drops op 0 _ sound (Nat.zero_le _)).mono
      ((ownerRead_error_within ..).when _)
  · exact (nodeLeaseRead_turn drops op nowMs _).mono ((nodeLeaseRead_error_within ..).when _)
  · exact (nodeLogRecovered_turn drops op _).mono ((nodeLogRecovered_error_within ..).when _)
  · exact capacityPeersRead_turn drops _ _ _
  · exact (ownerCasCompleted_turn drops op _).mono ((ownerCasCompleted_error_within ..).when _)
  · exact (ownerRead_turn drops op nowMs _ sound past).mono ((ownerRead_error_within ..).when _)
  · exact runtimeStartTimedOut_turn _
  · exact published_turn drops _ _
  · exact durabilityChecked_turn _ _
  · exact .refl

/-! ## Releases -/

/-- A cell that is put back with its phase moves no phase. -/
theorem phaseAt_putCell (t : CoreTurn) (id : CellId) (cell : Cell) (key : CellId)
    (same : t.phaseAt id = some cell.phase) : (t.putCell id cell).phaseAt key = t.phaseAt key := by
  by_cases eq : id = key
  · subst eq
    rw [same]
    simp [Core.phaseAt, putCell]
  · simp [Core.phaseAt, putCell, Std.ExtTreeMap.getElem?_insert, eq]

/-- Releases of cells that are dormant when the first one starts: a release leaves
every phase alone, so the last cell is still dormant when its turn comes. -/
theorem releases_turn {release : CoreTurn → CellId × Epoch → CoreTurn}
    (step : ∀ (t : CoreTurn) (p : CellId × Epoch) (cell : Cell), t.cells[p.1]? = some cell →
      cell.phase = .dormant p.2 → Turns G r t (release t p))
    (keeps : ∀ (t : CoreTurn) (p : CellId × Epoch) (id : CellId),
      (release t p).phaseAt id = t.phaseAt id)
    (l : List (CellId × Epoch)) (dormant : ∀ p ∈ l, t.phaseAt p.1 = some (.dormant p.2)) :
    Turns G r t (l.foldl release t) := by
  induction l generalizing t with
  | nil => exact .refl
  | cons p l ih =>
    have first : t.phaseAt p.1 = some (.dormant p.2) := dormant p (by simp)
    obtain ⟨cell, mem, phase⟩ := Option.map_eq_some_iff.mp first
    refine (step t p cell mem phase).trans (ih ?_)
    intro q member
    rw [keeps]
    exact dormant q (by simp [member])

/-- A drain releases a dormant broker. -/
theorem releaseQueue_turn (t : CoreTurn) (p : CellId × Epoch) (cell : Cell)
    (mem : t.cells[p.1]? = some cell) (phase : cell.phase = .dormant p.2) :
    Turns G r t (t.releaseQueue p) := by
  unfold releaseQueue
  rw [mem]
  exact (releaseOwner_hand phase).stored.turn mem

/-- Its release leaves every phase as it is, so the next on the list is dormant still. -/
theorem releaseQueue_phaseAt (t : CoreTurn) (p : CellId × Epoch) (id : CellId) :
    (t.releaseQueue p).phaseAt id = t.phaseAt id := by
  unfold releaseQueue
  split
  · rfl
  · rename_i cell mem
    refine phaseAt_putCell _ _ _ id ?_
    have same : t.phaseAt p.1 = some cell.phase := by rw [Core.phaseAt, mem]; rfl
    exact same

/-- A drain or a rebalance gives a dormant cell to a successor. -/
theorem releaseDormant_turn (t : CoreTurn) (p : CellId × Epoch) (cell : Cell)
    (mem : t.cells[p.1]? = some cell) (phase : cell.phase = .dormant p.2) :
    Turns G r t (t.releaseDormant p) := by
  let offered : Cell := { cell with handoff := !t.draining }
  let closing : CoreTurn := if cell.websockets.isEmpty then t
    else t.push (.cancelCellActivity p.1 [] cell.websockets.keys none false)
  have touched : Hands G r t p.1 cell cell (offered, t) := hand_touch _ rfl
  have closed : Hands G r t p.1 offered offered (offered, closing) := by
    unfold closing
    split
    · exact .refl
    · exact hand_note [_] (by simp [CellEffect.inert]) rfl rfl
  have released : Hands G r closing p.1 offered offered (closing.releaseOwner p.1 offered p.2) :=
    releaseOwner_hand phase
  have chain := (touched.trans closed).trans released
  rw [Hands, viewWith_of_get mem, ledgerWith_of_get mem, ← putCell_view, ← putCell_ledger] at chain
  have same : (t.releaseDormant p).view
        = ((closing.releaseOwner p.1 offered p.2).2.putCell p.1
            (closing.releaseOwner p.1 offered p.2).1).view ∧
      (t.releaseDormant p).ledger
        = ((closing.releaseOwner p.1 offered p.2).2.putCell p.1
            (closing.releaseOwner p.1 offered p.2).1).ledger := by
    unfold releaseDormant
    rw [mem]
    by_cases quiet : cell.websockets.isEmpty
    · simp only [closing, quiet, if_true]
      exact ⟨rfl, rfl⟩
    · simp only [closing, quiet]
      exact ⟨rfl, rfl⟩
  rw [Turns, same.1, same.2]
  exact chain

theorem releaseDormant_phaseAt (t : CoreTurn) (p : CellId × Epoch) (id : CellId) :
    (t.releaseDormant p).phaseAt id = t.phaseAt id := by
  unfold releaseDormant
  split
  · rfl
  · rename_i cell mem
    have same : t.phaseAt p.1 = some cell.phase := by rw [Core.phaseAt, mem]; rfl
    have kept := phaseAt_putCell (t.cellOp p.1).2 p.1
      { cell with releasing := some t.nextOp, handoff := !t.draining } id same
    dsimp only
    split <;> exact kept

/-- The cells a drain lists are dormant, at the epoch listed. -/
theorem dormantCells_phaseAt {keep : CellId → Cell → Bool} {p : CellId × Epoch}
    (mem : p ∈ dormantCells t.toCore keep) : t.phaseAt p.1 = some (.dormant p.2) := by
  unfold dormantCells at mem
  obtain ⟨⟨_, _⟩, listed, kept⟩ := mem_filterMap.mp mem
  have found := mem_toList_iff_getElem?_eq_some.mp listed
  dsimp only at kept
  split at kept
  · rename_i phase
    split at kept
    · cases kept
      rw [Core.phaseAt, found]
      exact congrArg some phase
    · cases kept
  · cases kept

/-- A rebalance releases dormant cells that no request waits for. -/
theorem rebalance_turn (authoritative : Bool) (count : ℕ) :
    Turns G r t (t.rebalance authoritative count) := by
  unfold rebalance
  split
  · exact .refl
  · refine releases_turn releaseDormant_turn releaseDormant_phaseAt _ ?_
    intro _ mem
    exact dormantCells_phaseAt ((mem_insertionSort _).mp (mem_of_mem_take mem))

/-! ## The generation swap -/

/-- The table holds the cell as a resident one. -/
def ResidentAt (t : CoreTurn) (id : CellId) : Prop :=
  (t.ledger.cellAt id).phase.isResident = true

/-- A nomination marks a resident cell and moves no phase. -/
theorem nominateSwap_turn (resident : t.ResidentAt id) :
    Turns G r t (t.nominateSwap id) ∧
      ∀ key, ((t.nominateSwap id).ledger.cellAt key).phase = (t.ledger.cellAt key).phase := by
  unfold nominateSwap modifyCell
  split
  · exact ⟨.refl, fun _ => rfl⟩
  · rename_i cell found
    rw [ResidentAt, ledger_cellAt_of_get found] at resident
    let nominated : Cell := { cell with swapping := true, quiescing := true }
    let next : CoreTurn :=
      { t.putCell id nominated with quiescingCells := t.quiescingCells.insert id }
    have touched : Hands G r t id cell cell (nominated, t) :=
      hand_forget ⟨rfl, rfl, .inl rfl, .inl rfl, .inl rfl⟩
        ⟨rfl, .inl rfl, .inl rfl, rfl, .inr resident⟩
    have books : next.ledger = t.ledgerWith id nominated := putCell_ledger t id _
    refine ⟨touched.stored.turn found, ?_⟩
    rw [books]
    refine forall_put (P := fun key c => c.phase = (t.ledger.cellAt key).phase) ?_
      fun _ _ => rfl
    rw [ledger_cellAt_of_get found]

theorem nominateSwaps_turn (l : List CellId) (t : CoreTurn) (resident : ∀ id ∈ l, t.ResidentAt id) :
    Turns G r t (l.foldl nominateSwap t) := by
  induction l generalizing t with
  | nil => exact .refl
  | cons id l ih =>
    obtain ⟨turn, phases⟩ := nominateSwap_turn (resident id mem_cons_self)
    refine turn.trans (ih _ fun other mem => ?_)
    rw [ResidentAt, phases]
    exact resident other (mem_cons_of_mem _ mem)

/-- The stale cells that are listed are resident. -/
theorem staleCells_resident (t : CoreTurn) : ∀ id ∈ staleCells t.toCore, t.ResidentAt id := by
  intro id mem
  obtain ⟨⟨key, cell⟩, inside, rfl⟩ := mem_map.mp mem
  obtain ⟨listed, stale⟩ := mem_filter.mp inside
  have found : t.cells[key]? = some cell := mem_toList_iff_getElem?_eq_some.mp listed
  simp only [Bool.and_eq_true] at stale
  rw [ResidentAt, ledger_cellAt_of_get found]
  exact stale.1.1.1.1

/-- A resident cell of the table carries the mark of the swap. -/
def SwapsAt (t : CoreTurn) (id : CellId) : Prop :=
  (t.ledger.cellAt id).phase.isResident = true → (t.ledger.cellAt id).swapping = true

/-- The nominated cells that are listed carry the mark. -/
theorem nominatedCells_swaps (t : CoreTurn) : ∀ id ∈ nominatedCells t.toCore, t.SwapsAt id := by
  intro id mem
  obtain ⟨⟨key, cell⟩, inside, rfl⟩ := mem_map.mp mem
  obtain ⟨listed, nominated⟩ := mem_filter.mp inside
  have found : t.cells[key]? = some cell := mem_toList_iff_getElem?_eq_some.mp listed
  simp only [Bool.and_eq_true] at nominated
  intro _
  rw [ledger_cellAt_of_get found]
  exact nominated.1.1

/-- A nominated cell is stopped under the mark that lets it start again without a permit. -/
theorem swapCell_turn (gated : CellId → Bool) (forcedByAge : Bool) (swaps : t.SwapsAt id) :
    Turns G r t (swapCell gated forcedByAge t id) ∧
      ∀ key, t.SwapsAt key → (swapCell gated forcedByAge t id).SwapsAt key := by
  unfold swapCell
  split
  · exact ⟨.refl, fun _ kept => kept⟩
  rename_i cell found
  have seen := ledger_cellAt_of_get found
  split
  · rename_i epoch phase
    have marked : cell.swapping = true := by
      have mark := swaps
      rw [SwapsAt, seen, phase] at mark
      exact mark rfl
    -- Both branches put one cell back, and a resident one still has its mark.
    have stored : ∀ (u : CoreTurn) (next : Cell), Hands G r t id cell cell (next, u) →
        u.cells = t.cells → (next.phase.isResident = true → next.swapping = true) →
        Turns G r t (u.putCell id next) ∧ ∀ key, t.SwapsAt key →
            (u.putCell id next).SwapsAt key := by
      intro u next hands cells mark
      refine ⟨hands.stored.turn found, fun key kept => ?_⟩
      rw [SwapsAt, putCell_ledger]
      refine forall_put (P := fun key c => t.SwapsAt key →
        c.phase.isResident = true →
          c.swapping = true) (fun _ => mark) (fun other _ kept => ?_) key kept
      have same : u.ledger.cellAt other = t.ledger.cellAt other := by simp only [ledger, cells]
      rwa [same]
    split
    · have stopped : Hands G r t id cell cell (t.stopRuntime id cell epoch .swap false) :=
        stopRuntime_hand (.of_kept rfl (by rw [phase]; rfl)) (by rw [phase]; rfl) fun _ => marked
      exact stored
        { (t.stopRuntime id cell epoch .swap false).2 with quiescingCells := _ } _ stopped
        rfl fun resident => by cases resident
    split
    · obtain ⟨turn, kept⟩ := stored t { cell with swapCancelled := true } (hand_touch _ rfl) rfl
        fun _ => marked
      exact ⟨turn.trans (table_push rfl), kept⟩
    · exact ⟨.refl, fun _ kept => kept⟩
  · exact ⟨.refl, fun _ kept => kept⟩

theorem swapCells_turn (gated : CellId → Bool) (forcedByAge : Bool) (l : List CellId)
    (t : CoreTurn) (swaps : ∀ id ∈ l, t.SwapsAt id) :
    Turns G r t (l.foldl (swapCell gated forcedByAge) t) := by
  induction l generalizing t with
  | nil => exact .refl
  | cons id l ih =>
    obtain ⟨turn, kept⟩ := swapCell_turn gated forcedByAge
      (swaps id mem_cons_self)
    exact turn.trans (ih _ fun other mem => kept other (swaps other (mem_cons_of_mem _ mem)))

/-- The swap pump nominates stale cells, then stops the nominated ones that it may. -/
theorem pumpSwap_turn (authoritative : Bool) (gated : CellId → Bool) :
    Turns G r t (t.pumpSwap authoritative gated) := by
  unfold pumpSwap
  split
  · exact .refl
  · dsimp only
    refine (nominateSwaps_turn _ t fun id mem => ?_).trans
      (swapCells_turn gated _ _ _ (nominatedCells_swaps _))
    exact staleCells_resident t id (mem_of_mem_take mem)

/-! ## The fence -/

/-- The books do not see what the fence does before it parks a cell. -/
theorem stopForFence_spec (t : CoreTurn) (id : CellId) (cell : Cell) (phase : Phase) :
    Moves G (t.viewWith id cell) ((t.stopForFence id phase).viewWith id cell) ∧
      (t.stopForFence id phase).ledger = t.ledger := by
  have stopped : ∀ (u : CoreTurn) (epoch : Epoch), u.view = t.view →
      Moves G (t.viewWith id cell)
        ((u.op.2.push (.stopRuntime u.op.1 id epoch .fence false)).viewWith id cell) := by
    intro u epoch same
    have move := Move.stopUntracked (G := G) (v := u.viewWith id cell) id epoch
    rw [viewWith, ← same]
    exact .single move
  unfold stopForFence
  dsimp only
  split
  · exact ⟨stopped _ _ (by split <;> rfl), by split <;> rfl⟩
  · exact ⟨.of_eq (by split <;> rfl), by split <;> rfl⟩

theorem dropPhaseOp_spec (t : CoreTurn) (cell : Cell) :
    (t.dropPhaseOp cell).view = t.view ∧ (t.dropPhaseOp cell).ledger = t.ledger := by
  unfold dropPhaseOp
  split <;> exact ⟨rfl, rfl⟩

/-- The fence drops what a cell waits for and leaves the books alone. -/
theorem retireForFence_spec (t : CoreTurn) (id : CellId) (cell retired : Cell) :
    Moves G (t.viewWith id cell) ((t.retireForFence retired).viewWith id cell) ∧
      (t.retireForFence retired).ledger = t.ledger := by
  have evicted : Moves G (t.viewWith id cell) ((t.fenceEviction retired).viewWith id cell) ∧
      (t.fenceEviction retired).ledger = t.ledger := by
    unfold fenceEviction
    have finished : ∀ op result,
      Moves G (t.viewWith id cell) ((t.finishEviction op result).viewWith id cell)
        ∧ (t.finishEviction op result).ledger = t.ledger := by
      intro op result
      have hands : Hands G .free t id cell cell
          (cell, t.finishEviction op result) := finishEviction_hand op result
      exact ⟨hands.1, finishEviction_toLedger t op result⟩
    split
    · exact finished _ _
    · exact finished _ _
    · exact ⟨.refl _, rfl⟩
  obtain ⟨opView, opBooks⟩ := dropPhaseOp_spec (t.fenceEviction retired) retired
  obtain ⟨view, books⟩ := dropFiring_spec ((t.fenceEviction retired).dropPhaseOp retired) retired
  refine ⟨evicted.1.trans (.of_eq ?_), books.trans (opBooks.trans evicted.2)⟩
  rw [viewWith, viewWith, retireForFence, view, opView]

/-- The fence stops the runtime of a cell, whatever the cell was doing. -/
theorem fenceCell_moves (t : CoreTurn) (id : CellId) : Moves G t.view (t.fenceCell id).view := by
  unfold fenceCell
  split
  · exact .refl _
  rename_i cell mem
  dsimp only
  rw [putCell_view, ← viewWith_of_get mem, ← dropCell_viewWith]
  let stopped := (t.dropCell id).stopForFence id cell.phase
  have answered : Hands G .free stopped id cell cell
      (stopped.finishRequests id cell (.error .nodeFenced)) := finishRequests_hand _
  refine (((stopForFence_spec _ id cell cell.phase).1.trans answered.1).trans
    (retireForFence_spec _ id _ (stopped.finishRequests id cell (.error .nodeFenced)).1).1).trans ?_
  exact (move_park (.refl _) rfl).trans (move_touch id ⟨rfl, rfl, .inl rfl, .inr rfl, .inr rfl⟩)

/-- A fenced cell holds nothing. -/
theorem fenceCell_visits (t : CoreTurn) (id : CellId) :
    Visits (!·.isParked) (· = .fenced) t id (t.fenceCell id) := by
  unfold fenceCell
  split
  · rename_i absent
    exact .inl ⟨rfl, by simp [ledger, absent, Phase.isParked]⟩
  rename_i cell found
  have seen := ledger_cellAt_of_get found
  refine .inr ?_
  let stopped := (t.dropCell id).stopForFence id cell.phase
  obtain ⟨kept, books⟩ := finishRequests_spec stopped id cell (.error .nodeFenced)
  have touches := Cell.Touches.of_kept kept
  let finished := (stopped.finishRequests id cell (.error .nodeFenced)).1
  let answered := (stopped.finishRequests id cell (.error .nodeFenced)).2
  refine ⟨{ finished.enter .fenced with
    waitingFor := none
    waitingActivation := none
    alarm := none
    alarmWake := false
    websockets := ∅ }, rfl, ?_, ?_⟩
  · rw [seen]
    exact touches.confirming
  · refine putCell_rebook (u := answered.retireForFence finished) (fun base => ?_)
      (by rw [seen]; exact touches.phase.symm) rfl
    rw [ledgerWith_congr (retireForFence_spec (G := .none) answered id cell finished).2, books,
      ledgerWith_congr (stopForFence_spec (G := .none) (t.dropCell id) id cell cell.phase).2,
        dropCell_ledgerWith]

/-- A cell that is fenced is booked alike before and after the books are revoked. -/
theorem revoked_rebook (v : Ledger) (id : CellId) (next : Cell) (fenced : next.phase = .fenced) :
    (v.rebook id next).revoked = v.revoked.rebook id next := by
  have kept : { next with phase := next.phase.revoked } = next := by
    have same : next.phase.revoked = next.phase := by rw [fenced]; rfl
    rw [same]
  ext1
  case cellAt =>
    funext key
    by_cases same : key = id
    · subst same
      simpa [revoked, rebook, put] using kept
    · simp [revoked, rebook, put, Function.update_of_ne same]
  case occupied =>
    simp only [rebook, revoked, Phase.rebook, Phase.revoked_occupiesCapacity]
  all_goals rfl

theorem revoked_holdsActivation (phase : Phase) : phase.revoked.holdsActivation = false := by
  unfold Phase.revoked
  split
  · rename_i parked
    cases phase <;> first | rfl | cases parked
  split <;> rfl

/-- To fence one cell is one step of the revoked books. -/
theorem revoked_shift (v : Ledger) (id : CellId) (next : Cell) (calm : r.calm v)
    (fenced : next.phase = .fenced) (confirming : next.confirming = (v.cellAt id).confirming) :
    Shifts r v.revoked (v.rebook id next).revoked := by
  obtain ⟨unqueued, _, _⟩ := Phase.revoked_holds_nothing (v.cellAt id).phase
  have idle := revoked_holdsActivation (v.cellAt id).phase
  rw [revoked_rebook _ _ _ fenced]
  refine .single (.move id next (.inl unqueued) (by rw [fenced]; rfl) ?_ ?_ ?_
    (.inr fun holds => ?_) ⟨confirming, calm.imp_right fun unmarked => .inl (unmarked id)⟩)
  · rw [Cell.requiresPermit, fenced]
    simp [Phase.requiresActivationPermit]
  · simp [fenced, Phase.isSwapStop]
  · simp [fenced, Phase.occupiesCapacity]
  · cases idle.symm.trans holds

/-- Books in which every cell is parked have nothing left to revoke. -/
theorem revoked_of_parked {v : Ledger} (parked : ∀ key, (v.cellAt key).phase.isParked = true)
    (permits : v.activationPermits = ∅) (activation : v.activationWaiters = [])
    (capacity : v.capacityWaiters = []) : v.revoked = v := by
  ext1
  case cellAt =>
    funext key
    simp [revoked, Phase.revoked, parked key]
  case activationPermits => exact permits.symm
  case activationWaiters => exact activation.symm
  case capacityWaiters => exact capacity.symm
  all_goals rfl

/-- **The fence takes everything away**: slots, permits, queues. -/
theorem fenceCells_turn (calm : r.calm t.ledger) : Turns G r t t.clearForFence.fenceCells := by
  obtain ⟨folded, parked, permits, activation, capacity⟩ := sweep_fold fenceCell_visits
    (fun _ fenced => by rw [fenced]; rfl) revoked_shift t.cells.keys t.clearForFence calm
    fun _ unparked => mem_keys_of_busy (!·.isParked) rfl unparked
  rw [revoked_of_parked (fun key => by simpa using parked key) permits activation
    capacity] at folded
  exact ⟨Trail.foldl view fenceCell fenceCell_moves _ t.clearForFence,
    (Trail.single (.revoke calm)).trans folded⟩

end CoreTurn

end Celld
