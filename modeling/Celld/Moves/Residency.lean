import Celld.Admission.Ledger

/-!
# Requests and evictions

This file and the ones after it go through the handlers of the core, one lemma a function, in the
order of the modules that define them.  Each says two things at once: what the handler does to the
cells is a chain of moves, and what it does to the books of admission is a chain of shifts.  A
function on a cell in hand is stated as `Hands`, between the cell it was given, put back where it
came from, and the cell it returns; a function on the table is stated as `Turns`.

The cell in hand is stated from two cells.  `base` is the cell as it stood before the caller took
an activation off it, which still carries the activation.  `booked` is the cell as the books have
it.  Mostly the three are equal.  A cell that was just taken off its queue is booked in a phase
that no longer waits there, and a function that changes its phase cannot tell the difference: what
it reads of the phase before is whether it occupied a slot.
-/

namespace Celld

open Function Std.ExtTreeMap Phase

variable {cell : Cell}

/-- What an edit of a cell in place leaves alone. -/
def Cell.kept (cell : Cell) : Phase × Option (Epoch × ℕ) × Option OpId × Option Activation ×
    Option ColdStart × Bool × Bool :=
  (cell.phase, cell.provenPosition, cell.releasing, cell.waitingFor, cell.waitingActivation,
    cell.confirming, cell.swapping)

theorem Cell.Forgets.of_kept {next : Cell} (same : next.kept = cell.kept) : cell.Forgets next := by
  simp only [Cell.kept, Prod.mk.injEq] at same
  exact ⟨same.1, same.2.1, .inl same.2.2.1, .inl same.2.2.2.1, .inl same.2.2.2.2.1⟩

theorem Cell.Touches.of_kept {next : Cell} (same : next.kept = cell.kept) : cell.Touches next := by
  simp only [Cell.kept, Prod.mk.injEq] at same
  exact ⟨same.1, .inl same.2.2.2.1, .inl same.2.2.2.2.1, same.2.2.2.2.2.1, .inl same.2.2.2.2.2.2⟩

/-- The cell in hand stands in no queue that it would have to leave. -/
structure Cell.Loose (r : Rules) (base booked cell : Cell) : Prop where
  keeps : base.Forgets cell
  stands : booked.Stands cell
  settled : booked.phase.isQueued = false ∨ r.requeues

theorem Cell.Loose.refl {r : Rules} (settled : cell.phase.isQueued = false ∨ r.requeues) :
    cell.Loose r cell cell := ⟨.refl _, .refl _, settled⟩

theorem Cell.Loose.of_kept {r : Rules} {next : Cell} (same : next.kept = cell.kept)
    (settled : cell.phase.isQueued = false ∨ r.requeues) : cell.Loose r cell next :=
  ⟨.of_kept same, (Cell.Touches.of_kept same).stands, settled⟩

namespace CoreTurn

variable {G : Grants} {r : Rules} {t u w : CoreTurn} {id : CellId} {base booked cell next : Cell}
  {p q : Cell × CoreTurn} {epoch : Epoch} {phase : Phase}

/-! ## The view and the books of a turn -/

/-- The view of a turn. -/
def view (t : CoreTurn) : View where
  node := t.node
  config := t.config
  nowMs := t.nowMs
  nowMonoMs := t.nowMonoMs
  cache owner := t.nodeLeaseCache[owner]?
  cellAt id := (t.cells[id]?).getD {}
  nextOp := t.nextOp
  effects := t.effects

/-- The view of a turn whose handler holds a cell. -/
def viewWith (t : CoreTurn) (id : CellId) (cell : Cell) : View := t.view.put id cell

/-- The books of a turn. -/
def ledger (t : CoreTurn) : Ledger where
  cellAt id := (t.cells[id]?).getD {}
  occupied := t.occupied
  activationPermits := t.activationPermits
  activationWaiters := t.activationWaiters
  capacityWaiters := t.capacityWaiters
  confirmingCells := t.confirmingCells
  confirming := t.confirming
  maxResident := t.config.maxResident
  maxActivations := t.config.maxActivations

/-- The books of a turn whose handler holds a cell. -/
def ledgerWith (t : CoreTurn) (id : CellId) (cell : Cell) : Ledger := t.ledger.put id cell

/-- What a handler does to the cell it holds and to the rest of the turn. -/
abbrev Hands (G : Grants) (r : Rules) (t : CoreTurn) (id : CellId) (base booked : Cell)
    (p : Cell × CoreTurn) : Prop :=
  Moves G (t.viewWith id base) (p.2.viewWith id p.1) ∧
    Shifts r (t.ledgerWith id booked) (p.2.ledgerWith id p.1)

/-- What a handler does to a turn. -/
abbrev Turns (G : Grants) (r : Rules) (t u : CoreTurn) : Prop :=
  Moves G t.view u.view ∧ Shifts r t.ledger u.ledger

/-- What a handler does to the cell it holds, with the cell put back at the end. -/
abbrev Stores (G : Grants) (r : Rules) (t : CoreTurn) (id : CellId) (base booked : Cell)
    (u : CoreTurn) : Prop :=
  Moves G (t.viewWith id base) u.view ∧ Shifts r (t.ledgerWith id booked) u.ledger

theorem Hands.refl : Hands G r t id cell cell (cell, t) := ⟨.refl _, .refl _⟩

theorem Hands.trans (first : Hands G r t id base booked p) (second : Hands G r p.2 id p.1 p.1 q) :
    Hands G r t id base booked q := ⟨first.1.trans second.1, first.2.trans second.2⟩

theorem Stores.trans (first : Stores G r t id base booked u) (second : Turns G r u w) :
    Stores G r t id base booked w := ⟨first.1.trans second.1, first.2.trans second.2⟩

theorem Hands.store (first : Hands G r t id base booked p) (second : Stores G r p.2 id p.1 p.1 u) :
    Stores G r t id base booked u := ⟨first.1.trans second.1, first.2.trans second.2⟩

theorem Turns.refl : Turns G r t t := ⟨.refl _, .refl _⟩

theorem Turns.trans (first : Turns G r t u) (second : Turns G r u w) : Turns G r t w :=
  ⟨first.1.trans second.1, first.2.trans second.2⟩

theorem Turns.mono {H : Grants} (within : G.Within H) (turns : Turns G r t u) : Turns H r t u :=
  ⟨turns.1.mono within, turns.2⟩

theorem Turns.foldl {α : Type} (f : CoreTurn → α → CoreTurn) (step : ∀ t a, Turns G r t (f t a))
    (l : List α) (t : CoreTurn) : Turns G r t (l.foldl f t) :=
  ⟨.foldl view f (fun t a => (step t a).1) l t, .foldl ledger f (fun t a => (step t a).2) l t⟩

section Entries

variable (t) (id) (cell)

@[simp] theorem viewWith_cellAt :
    (t.viewWith id cell).cellAt id = cell := update_self _ _ _

@[simp] theorem viewWith_put (next : Cell) :
    (t.viewWith id cell).put id next = t.viewWith id next := by
  simp only [viewWith, View.put, update_idem]

@[simp] theorem ledgerWith_cellAt :
    (t.ledgerWith id cell).cellAt id = cell := update_self _ _ _

@[simp] theorem ledgerWith_put (next : Cell) :
    (t.ledgerWith id cell).put id next = t.ledgerWith id next := by
  simp only [ledgerWith, Ledger.put, update_idem]

theorem cells_insert : (fun k => ((t.cells.insert id cell)[k]?).getD ({} : Cell))
      = update (fun k => (t.cells[k]?).getD ({} : Cell)) id cell := by
  funext k
  by_cases eq : id = k
  · subst eq; simp
  · simp [update_of_ne (Ne.symm eq), getElem?_insert, eq]

theorem cells_erase : update (fun k => ((t.cells.erase id)[k]?).getD ({} : Cell)) id cell
      = update (fun k => (t.cells[k]?).getD ({} : Cell)) id cell := by
  funext k
  by_cases eq : id = k
  · subst eq; simp
  · simp [update_of_ne (Ne.symm eq), getElem?_erase, eq]

theorem putCell_view : (t.putCell id cell).view = t.viewWith id cell := by
  simp only [viewWith, View.put, view, putCell, cells_insert]

theorem putCell_ledger : (t.putCell id cell).ledger = t.ledgerWith id cell := by
  simp only [ledgerWith, Ledger.put, ledger, putCell, cells_insert]

theorem dropCell_viewWith : (t.dropCell id).viewWith id cell = t.viewWith id cell := by
  simp only [viewWith, View.put, view, dropCell, cells_erase]

theorem dropCell_ledgerWith : (t.dropCell id).ledgerWith id cell = t.ledgerWith id cell := by
  simp only [ledgerWith, Ledger.put, ledger, dropCell, cells_erase]

theorem viewWith_getD : t.viewWith id ((t.cells[id]?).getD {}) = t.view := by
  simp only [viewWith, View.put, view, update_eq_self]

theorem ledgerWith_getD : t.ledgerWith id ((t.cells[id]?).getD {}) = t.ledger := by
  simp only [ledgerWith, Ledger.put, ledger, update_eq_self]

end Entries

theorem viewWith_of_get (found : t.cells[id]? = some cell) : t.viewWith id cell = t.view := by
  have same := viewWith_getD t id
  rwa [found] at same

theorem view_cellAt_of_get (found : t.cells[id]? = some cell) : t.view.cellAt id = cell := by
  simp [view, found]

theorem ledgerWith_of_get (found : t.cells[id]? = some cell) : t.ledgerWith id cell = t.ledger := by
  have same := ledgerWith_getD t id
  rwa [found] at same

theorem ledger_cellAt_of_get (found : t.cells[id]? = some cell) : t.ledger.cellAt id = cell := by
  simp [ledger, found]

theorem ledgerWith_congr (same : u.ledger = t.ledger) (id : CellId) (cell : Cell) :
    u.ledgerWith id cell = t.ledgerWith id cell := by
  rw [ledgerWith, ledgerWith, same]

/-- The table holds no resident cell under `id`: a cell in hand is never the victim
of an eviction. -/
def Gone (t : CoreTurn) (id : CellId) : Prop :=
  ∀ cell, t.cells[id]? = some cell → cell.phase.isResident = false

theorem dropCell_gone (t : CoreTurn) (id : CellId) : (t.dropCell id).Gone id := by
  intro _ found
  simp [dropCell] at found

theorem gone_of_absent (absent : t.cells[id]? = none) : t.Gone id := by
  intro _ found
  rw [absent] at found
  cases found

theorem Hands.stored (hands : Hands G r t id base booked p) :
    Stores G r t id base booked (p.2.putCell id p.1) := by
  rw [Stores, putCell_view, putCell_ledger]
  exact hands

/-- Work on a cell of the table. -/
theorem Stores.turn (found : t.cells[id]? = some cell) (stores : Stores G r t id cell cell u) :
    Turns G r t u := by
  rwa [Stores, viewWith_of_get found, ledgerWith_of_get found] at stores

/-- Work on a cell taken from the table. -/
theorem Stores.drop (stores : Stores G r (t.dropCell id) id base booked u) :
    Stores G r t id base booked u := by
  rwa [Stores, dropCell_viewWith, dropCell_ledgerWith] at stores

/-- The same work on a turn that no one can tell from this one. -/
theorem Stores.congr (view : u.view = t.view) (books : u.ledger = t.ledger)
    (stores : Stores G r u id base booked w) : Stores G r t id base booked w := by
  rwa [Stores, viewWith, view, ledgerWith_congr books] at stores

/-- Work on a cell taken from the table and put back.  The books may take it for another one. -/
theorem handled_from (found : t.cells[id]? = some cell) (view : u.view = t.view)
    (shifts : Shifts r (t.ledgerWith id cell) (u.ledgerWith id booked))
    (hands : Hands G r (u.dropCell id) id cell booked p) : Turns G r t (p.2.putCell id p.1) := by
  have stores := hands.stored.drop
  rw [Stores, viewWith, view] at stores
  exact Stores.turn found ⟨stores.1, shifts.trans stores.2⟩

theorem handled (found : t.cells[id]? = some cell)
    (hands : Hands G r (t.dropCell id) id cell cell p) :
    Turns G r t (p.2.putCell id p.1) := hands.stored.drop.turn found

/-- Work on a cell that the table need not hold. -/
theorem handled_getD
    (hands : Hands G r (t.dropCell id) id ((t.cells[id]?).getD {}) ((t.cells[id]?).getD {}) p) :
    Turns G r t (p.2.putCell id p.1) := by
  have stores := hands.stored.drop
  rwa [Stores, viewWith_getD, ledgerWith_getD] at stores

theorem modifyCell_with (t : CoreTurn) (id : CellId) (f : Cell → Cell) (cell : Cell) :
    (t.modifyCell id f).viewWith id cell = t.viewWith id cell ∧
      (t.modifyCell id f).ledgerWith id cell = t.ledgerWith id cell := by
  unfold modifyCell
  split
  · exact ⟨rfl, rfl⟩
  · rw [viewWith, putCell_view, viewWith_put, ledgerWith, putCell_ledger, ledgerWith_put]
    exact ⟨rfl, rfl⟩

/-! ## Steps of a cell in hand -/

theorem move_touch (id : CellId) (keeps : cell.Forgets next) :
    Moves G (t.viewWith id cell) (t.viewWith id next) := by
  have move := Move.touch (G := G) (v := t.viewWith id cell) id next (by simpa using keeps)
  rw [viewWith_put] at move
  exact .single move

theorem shift_touch (id : CellId) (touches : cell.Touches next) :
    Shifts r (t.ledgerWith id cell) (t.ledgerWith id next) := by
  have shift := Shift.touch (r := r) (v := t.ledgerWith id cell) id next
    (by simpa using touches.phase) (by simpa using touches.waitingFor)
    (by simpa using touches.waitingActivation) (by simpa using touches.confirming)
    (by simpa using touches.swapping)
  rw [ledgerWith_put] at shift
  exact .single shift

/-- Edit a cell in hand that stays in its phase. -/
theorem hand_forget (keeps : cell.Forgets next) (touches : cell.Touches next) :
    Hands G r t id cell cell (next, t) := ⟨move_touch id keeps, shift_touch id touches⟩

theorem hand_touch (next : Cell) (same : next.kept = cell.kept) :
    Hands G r t id cell cell (next, t) :=
  hand_forget (.of_kept same) (.of_kept same)

theorem hand_startOp {effect : CellEffect}
    (move : Move G (t.viewWith id cell) ((t.viewWith id cell).startOp id next effect))
    (same : u.view = (t.view.emit [effect]).spend) :
    Moves G (t.viewWith id cell) (u.viewWith id next) := by
  have eq : (t.viewWith id cell).startOp id next effect = u.viewWith id next := by
    rw [View.startOp, viewWith_put, viewWith, viewWith, same]
    rfl
  rw [eq] at move
  exact .single move

theorem hand_note (effects : List CellEffect) (inert : ∀ effect ∈ effects, effect.inert = true)
    (view : u.view = t.view.emit effects) (books : u.ledger = t.ledger) :
    Hands G r t id cell cell (cell, u) := by
  have move := Move.note (G := G) (v := t.viewWith id cell) effects inert
  have eq : u.viewWith id cell = (t.viewWith id cell).emit effects := by
    rw [viewWith, view]; rfl
  rw [← eq] at move
  exact ⟨.single move, .of_eq (ledgerWith_congr books id cell).symm⟩

theorem table_note (effects : List CellEffect) (inert : ∀ effect ∈ effects, effect.inert = true)
    (view : u.view = t.view.emit effects) (books : u.ledger = t.ledger) : Turns G r t u := by
  refine ⟨?_, .of_eq books.symm⟩
  rw [view]
  exact .single (.note effects inert)

theorem table_push {effect : CellEffect} (inert : effect.inert = true) :
    Turns G r t (t.push effect) :=
  table_note [effect] (by simpa using inert) rfl rfl

/-- Edit a cell of the table. -/
theorem put_turn (found : t.cells[id]? = some cell) (next : Cell) (same : next.kept = cell.kept) :
    Turns G r t (t.putCell id next) := (hand_touch next same).stored.turn found

theorem table_modifyCell (f : Cell → Cell) (same : ∀ cell : Cell, (f cell).kept = cell.kept) :
    Turns G r t (t.modifyCell id f) := by
  unfold modifyCell
  split
  · exact .refl
  · rename_i cell found
    exact put_turn found (f cell) (same cell)

/-- What a cell in hand brings to a phase outside the queues. -/
structure Entry (r : Rules) (t : CoreTurn) (id : CellId) (base next : Cell) : Prop where
  settled : base.phase.isQueued = false ∨ r.requeues
  unqueued : next.phase.isQueued = false
  permitted : next.requiresPermit = true →
    (base.requiresPermit = true ∨ id ∈ t.activationPermits) ∨
      base.phase.isSwapStop = true ∧ next.swapping = base.swapping ∧
        next.phase.requiresActivationPermit true = false
  swaps : next.phase.isSwapStop = true → next.swapping = true
  room : next.phase.occupiesCapacity = true →
    base.phase.occupiesCapacity = true ∨ t.occupied < t.config.maxResident
  keeps : r.drops ∨ (base.phase.holdsActivation = true → next.phase.holdsActivation = true)
  carries : r.carries base next

/-- The books after a cell entered a phase. -/
def Rebooked (t u : CoreTurn) (cell : Cell) (phase : Phase) : Prop :=
  u.ledger = { t.ledger with occupied := cell.phase.rebook phase t.occupied }

theorem rebooked_setPhase (same : u.ledger = t.ledger) (cell : Cell)
    (phase : Phase) : Rebooked t (u.setPhase cell phase).2 cell phase := by
  change { u.ledger with occupied := cell.phase.rebook phase u.ledger.occupied } = _
  rw [same]
  rfl

theorem setPhase_ledger_of_eq (t : CoreTurn) (cell : Cell) (phase : Phase)
    (same : phase.occupiesCapacity = cell.phase.occupiesCapacity) :
    (t.setPhase cell phase).2.ledger = t.ledger := by
  have rebooked := rebooked_setPhase (t := t) rfl cell phase
  rw [Rebooked, rebook_of_eq same] at rebooked
  exact rebooked

theorem ledgerWith_rebook (occupies : cell.phase.occupiesCapacity = base.phase.occupiesCapacity)
    (rebooked : Rebooked t u cell next.phase) :
    u.ledgerWith id next = (t.ledgerWith id base).rebook id next := by
  have count :
      cell.phase.rebook next.phase t.occupied = base.phase.rebook next.phase t.occupied := by
    unfold rebook
    rw [occupies]
  rw [ledgerWith, show u.ledger = _ from rebooked, count, Ledger.rebook, ledgerWith_put,
    ledgerWith_cellAt]
  rfl

theorem shift_move (entry : Entry r t id base next)
    (occupies : cell.phase.occupiesCapacity = base.phase.occupiesCapacity)
    (rebooked : Rebooked t u cell next.phase) :
    Shifts r (t.ledgerWith id base) (u.ledgerWith id next) := by
  rw [ledgerWith_rebook occupies rebooked]
  exact .single (.move id next (by simpa using entry.settled) entry.unqueued
    (by rw [Ledger.holds, ledgerWith_cellAt]; exact entry.permitted) entry.swaps
    (by rw [ledgerWith_cellAt]; exact entry.room) (by simpa using entry.keeps)
    (by simpa using entry.carries))

/-- A cell may always be parked, if it may give up what it holds. -/
theorem Entry.park (settled : base.phase.isQueued = false ∨ r.requeues) (quiet : r.quiet base)
    (drops : r.drops ∨ base.phase.holdsActivation = false)
    (confirming : next.confirming = base.confirming) (free : next.phase.isFree = true) :
    Entry r t id base next where
  settled := settled
  unqueued := (free_of_isFree free).unqueued
  permitted requires := by
    rw [Cell.requiresPermit, (free_of_isFree free).unpermitted] at requires
    cases requires
  swaps stops := by
    rw [(free_of_isFree free).noStop] at stops
    cases stops
  room occupies := by
    rw [(free_of_isFree free).vacant] at occupies
    cases occupies
  keeps := drops.imp_right fun idle holds => by rw [idle] at holds; cases holds
  carries := quiet.carries confirming

/-- A cell with a permit goes on with its cold route. -/
theorem Entry.cold (settled : base.phase.isQueued = false ∨ r.requeues)
    (holds : base.requiresPermit = true ∨ id ∈ t.activationPermits)
    (cold : next.phase.isCold = true)
    (room : next.phase.occupiesCapacity = true →
      base.phase.occupiesCapacity = true ∨ t.occupied < t.config.maxResident)
    (carries : r.carries base next) : Entry r t id base next where
  settled := settled
  unqueued := (cold_of_isCold cold).unqueued
  permitted _ := .inl holds
  swaps stops := by
    rw [(cold_of_isCold cold).noStop] at stops
    cases stops
  room := room
  keeps := .inr fun _ => (cold_of_isCold cold).holds
  carries := carries

theorem isQueued_of_occupiesCapacity (occupies : phase.occupiesCapacity = true) :
    phase.isQueued = false := by
  cases phase <;> first | rfl | cases occupies

theorem asks_of_occupiesCapacity (occupies : cell.phase.occupiesCapacity = true) :
    cell.asks = false := by
  unfold Cell.asks
  cases found : cell.phase <;> rw [found] at occupies <;> first | rfl | cases occupies

/-- A cell that holds a slot keeps it. -/
theorem Entry.run (occupies : base.phase.occupiesCapacity = true)
    (unqueued : next.phase.isQueued = false)
    (permitted : next.requiresPermit = true → base.requiresPermit = true ∨
      base.phase.isSwapStop = true ∧ next.swapping = base.swapping ∧
        next.phase.requiresActivationPermit true = false)
    (swaps : next.phase.isSwapStop = true → next.swapping = true)
    (keeps : r.drops ∨ (base.phase.holdsActivation = true → next.phase.holdsActivation = true))
    (confirming : next.confirming = base.confirming) : Entry r t id base next where
  settled := .inl (isQueued_of_occupiesCapacity occupies)
  unqueued := unqueued
  permitted requires := (permitted requires).imp_left .inl
  swaps := swaps
  room _ := .inl occupies
  keeps := keeps
  carries := Rules.quiet.carries (.inr (.inr (asks_of_occupiesCapacity occupies))) confirming

theorem move_park (keeps : base.Forgets cell) (parked : phase.isParked = true) :
    Moves G (t.viewWith id base) (t.viewWith id (cell.enter phase)) := by
  have move := Move.park (G := G) (v := t.viewWith id base) id cell (by simpa using keeps) phase
    parked
  rw [viewWith_put] at move
  exact .single move

theorem shift_park (stands : booked.Stands cell)
    (settled : booked.phase.isQueued = false ∨ r.requeues) (quiet : r.quiet booked)
    (drops : r.drops ∨ booked.phase.holdsActivation = false) (free : phase.isFree = true)
    (rebooked : Rebooked t u cell phase) :
    Shifts r (t.ledgerWith id booked) (u.ledgerWith id (cell.enter phase)) :=
  shift_move (.park settled quiet drops stands.confirming free) stands.occupies rebooked

/-- Park a cell in hand. -/
theorem hand_park (loose : base.Loose r booked cell) (quiet : r.quiet booked)
    (drops : r.drops ∨ booked.phase.holdsActivation = false)
    (parked : phase.isParked = true) : Hands G r t id base booked (t.setPhase cell phase) :=
  ⟨move_park loose.keeps parked, shift_park loose.stands loose.settled quiet drops
    (isFree_of_isParked parked) rfl⟩

/-! ## Requests -/

/-- The cell in hand is not the one the table would record a request on. -/
theorem completeRequest_with (t : CoreTurn) (id : CellId) (request : RequestId)
    (result : Except RequestError Route) (cell : Cell) :
    (t.completeRequest id request result).viewWith id cell
        = (t.viewWith id cell).emit [.complete request result] ∧
      (t.completeRequest id request result).ledgerWith id cell = t.ledgerWith id cell := by
  unfold completeRequest
  rcases result with _ | route
  · exact ⟨rfl, rfl⟩
  · cases route with
    | «local» =>
      dsimp only
      have kept := modifyCell_with (CoreTurn.activateRequest
        { t with
          capacityRequests := t.capacityRequests.erase request
          handoffRequests := t.handoffRequests.erase request } request id) id
        (·.recordLocalRequest request t.nowMonoMs) cell
      exact ⟨congrArg (View.emit · [.complete request (.ok .local)]) kept.1, kept.2⟩
    | remote => exact ⟨rfl, rfl⟩

theorem completeRequest_hand (request : RequestId) (result : Except RequestError Route) :
    Hands G r t id cell cell (cell, t.completeRequest id request result) := by
  obtain ⟨view, books⟩ := completeRequest_with t id request result cell
  refine ⟨?_, .of_eq books.symm⟩
  rw [view]
  exact .single (.note _ (by simp [CellEffect.inert]))

theorem completeRequest_turn (request : RequestId) (result : Except RequestError Route) :
    Turns G r t (t.completeRequest id request result) := by
  unfold completeRequest
  rcases result with _ | route
  · exact table_push rfl
  · cases route with
    | «local» =>
      let active := CoreTurn.activateRequest
        { t with
          capacityRequests := t.capacityRequests.erase request
          handoffRequests := t.handoffRequests.erase request } request id
      have recorded : Turns G r active
          (active.modifyCell id (·.recordLocalRequest request active.nowMonoMs)) :=
        table_modifyCell _ fun _ => rfl
      exact recorded.trans (table_push rfl)
    | remote => exact table_push rfl

theorem finishRequest_kept (id : CellId) (result : Except RequestError Route) (p : Cell × CoreTurn)
    (request : RequestId) : (finishRequest id result p request).1.kept = p.1.kept := by
  unfold finishRequest
  dsimp only
  split <;> rfl

theorem finishRequest_hand (result : Except RequestError Route) (p : Cell × CoreTurn)
    (request : RequestId) : Hands G r p.2 id p.1 p.1 (finishRequest id result p request) :=
  (hand_touch _ (finishRequest_kept id result p request)).trans (completeRequest_hand
    (t := { p.2 with requestCells := p.2.requestCells.erase request }) request result)

theorem finishRequests_hand (result : Except RequestError Route) :
    Hands G r t id cell cell (t.finishRequests id cell result) := by
  have folded : ∀ (l : List RequestId) (p : Cell × CoreTurn),
      Hands G r p.2 id p.1 p.1 (l.foldl (finishRequest id result) p) := by
    intro l
    induction l with
    | nil => exact fun p => .refl
    | cons request l ih => exact fun p => (finishRequest_hand result p request).trans (ih _)
  have opened : Hands G r t id cell cell ({ cell with requests := ∅ }, t) := hand_touch _ rfl
  exact opened.trans (folded cell.requests.toList _)

theorem finishRequests_spec (t : CoreTurn) (id : CellId) (cell : Cell)
    (result : Except RequestError Route) :
    (t.finishRequests id cell result).1.kept = cell.kept ∧
      ∀ base, (t.finishRequests id cell result).2.ledgerWith id base = t.ledgerWith id base := by
  have folded : ∀ (l : List RequestId) (p : Cell × CoreTurn),
      (l.foldl (finishRequest id result) p).1.kept = p.1.kept ∧
        ∀ base, (l.foldl (finishRequest id result) p).2.ledgerWith id base =
            p.2.ledgerWith id base := by
    intro l
    induction l with
    | nil => exact fun p => ⟨rfl, fun _ => rfl⟩
    | cons request l ih =>
      intro p
      obtain ⟨kept, books⟩ := ih (finishRequest id result p request)
      refine ⟨kept.trans (finishRequest_kept id result p request), fun base => ?_⟩
      exact (books base).trans (completeRequest_with
        { p.2 with requestCells := p.2.requestCells.erase request } id request result base).2
  exact folded cell.requests.toList ({ cell with requests := ∅ }, t)

/-- Park a cell in hand and answer its callers. -/
theorem parkAndFinish_hand (loose : base.Loose r booked cell) (quiet : r.quiet booked)
    (drops : r.drops ∨ booked.phase.holdsActivation = false) (parked : phase.isParked = true)
    (result : Except RequestError Route) :
    Hands G r t id base booked
      ((t.setPhase cell phase).2.finishRequests id (t.setPhase cell phase).1 result) :=
  (hand_park loose quiet drops parked).trans (finishRequests_hand result)

theorem nextWriterEpoch_error {previous : Epoch} (loose : base.Loose r booked cell)
    (quiet : r.quiet booked) (drops : r.drops ∨ booked.phase.holdsActivation = false)
    (exhausted : t.nextWriterEpoch id cell previous = .error p) : Hands G r t id base booked p := by
  unfold nextWriterEpoch at exhausted
  split at exhausted
  · cases exhausted
  · rw [← Except.error.inj exhausted]
    exact parkAndFinish_hand loose quiet drops rfl _

theorem nextWriterEpoch_ok {previous : Epoch}
    (fresh : t.nextWriterEpoch id cell previous = .ok epoch) : epoch = previous + 1 := by
  unfold nextWriterEpoch at fresh
  split at fresh
  · rename_i found
    rw [← Except.ok.inj fresh]
    exact checkedSucc_eq_some found
  · cases fresh

/-! ## Evictions -/

theorem finishEviction_view (t : CoreTurn) (op : OpId) (result : Except EvictError EvictSuccess) :
    ∃ effects : List CellEffect, (∀ effect ∈ effects, effect.inert = true) ∧
      (t.finishEviction op result).view = t.view.emit effects := by
  unfold finishEviction
  split
  · exact ⟨[], by simp, by simp [View.emit]⟩
  · rename_i requests _
    refine ⟨requests.toList.map (.evictionFinished · result), ?_, rfl⟩
    intro effect mem
    obtain ⟨_, _, rfl⟩ := List.mem_map.mp mem
    rfl

@[simp] theorem finishEviction_toLedger (t : CoreTurn) (op : OpId)
    (result : Except EvictError EvictSuccess) : (t.finishEviction op result).ledger = t.ledger := by
  unfold finishEviction
  split <;> rfl

theorem finishEviction_hand (op : OpId) (result : Except EvictError EvictSuccess) :
    Hands G r t id cell cell (cell, t.finishEviction op result) := by
  obtain ⟨effects, inert, view⟩ := finishEviction_view t op result
  exact hand_note effects inert view (finishEviction_toLedger t op result)

theorem finishEviction_turn (op : OpId) (result : Except EvictError EvictSuccess) :
    Turns G r t (t.finishEviction op result) := by
  obtain ⟨effects, inert, view⟩ := finishEviction_view t op result
  exact table_note effects inert view (finishEviction_toLedger t op result)

/-- Return a cell whose eviction is off to service. -/
theorem hand_rescue {op : OpId} (phase : cell.phase = .ensuringDurability op epoch) :
    Hands G r t id cell cell (t.setPhase cell (.resident epoch)) := by
  have move := Move.rescue (G := G) (v := t.viewWith id cell) id cell (by simpa using .refl _) op
    epoch (by simpa using phase)
  have entry : Entry r t id cell (cell.enter (.resident epoch)) :=
    .run (by rw [phase]; rfl) rfl (fun requires => nomatch requires) (fun stops => nomatch stops)
      (.inr (by rw [phase]; exact fun holds => nomatch holds)) rfl
  rw [viewWith_put] at move
  exact ⟨.single move, shift_move entry rfl rfl⟩

theorem cancelEviction_hand {op : OpId} (phase : cell.phase = .ensuringDurability op epoch)
    (reason : EvictCancellation) :
    Hands G r t id cell cell (t.cancelEviction id cell epoch reason) := by
  have settled : Hands G r t id cell cell
      (cell, (t.dropOp op).finishEviction op (.error (.cancelled reason))) :=
    finishEviction_hand (t := t.dropOp op) op _
  have result := settled.trans (hand_rescue phase)
  simp only [cancelEviction, phase, op?]
  exact result

/-- An eviction that starts leaves the table as it was but for its victim. -/
theorem beginEviction_cases (t : CoreTurn) (victim : CellId) (rebalance : Bool) :
    (t.beginEviction victim rebalance).2 = t ∨
      ∃ cell epoch, t.cells[victim]? = some cell ∧ cell.phase = .resident epoch ∧
        (t.beginEviction victim rebalance).2.view
          = t.view.startOp victim
              (Cell.enter { cell with evictRebalance := rebalance }
                (.ensuringDurability t.nextOp epoch))
              (.ensureDurable t.nextOp victim epoch (!t.draining)) ∧
        (t.beginEviction victim rebalance).2.ledger
          = t.ledgerWith victim
              (Cell.enter { cell with evictRebalance := rebalance }
                (.ensuringDurability t.nextOp epoch)) ∧
        (t.beginEviction victim rebalance).2.requestCells = t.requestCells := by
  unfold beginEviction
  split
  · exact .inl rfl
  · rename_i cell found
    split
    · exact .inl rfl
    split
    · exact .inl rfl
    split
    · rename_i epoch phase
      split
      · exact .inl rfl
      split
      · exact .inl rfl
      · let evicted := Cell.enter { cell with evictRebalance := rebalance }
          (.ensuringDurability t.nextOp epoch)
        refine .inr ⟨cell, epoch, found, phase, ?_, ?_, rfl⟩
        · rw [View.startOp, ← viewWith, ← putCell_view t victim evicted]
          rfl
        · have kept := setPhase_ledger_of_eq t { cell with evictRebalance := rebalance }
            (.ensuringDurability t.nextOp epoch) (by rw [phase]; rfl)
          have put := putCell_ledger (t.setPhase { cell with evictRebalance := rebalance }
            (.ensuringDurability t.nextOp epoch)).2 victim evicted
          rw [ledgerWith, kept] at put
          exact put
    · exact .inl rfl

theorem Entry.evict {op : OpId} (phase : base.phase = .resident epoch)
    (found : next.phase = .ensuringDurability op epoch)
    (confirming : next.confirming = base.confirming) : Entry r t id base next := by
  refine .run (by rw [phase]; rfl) (by rw [found]; rfl) ?_ ?_ (.inr ?_) confirming
  · rw [Cell.requiresPermit, found]
    exact fun requires => nomatch requires
  · rw [found]
    exact fun stops => nomatch stops
  · rw [phase]
    exact fun holds => nomatch holds

/-- An eviction of one cell while the handler holds another, or none. -/
theorem evict_shift {rebalance : Bool} {victim : CellId} (found : t.cells[victim]? = some cell)
    (phase : cell.phase = .resident epoch) :
    Shifts r t.ledger (t.ledgerWith victim (Cell.enter { cell with evictRebalance := rebalance }
      (.ensuringDurability t.nextOp epoch))) := by
  have entry : Entry r t victim cell (Cell.enter { cell with evictRebalance := rebalance }
      (.ensuringDurability t.nextOp epoch)) := .evict phase rfl rfl
  have shifted := shift_move entry (rfl : cell.phase.occupiesCapacity = _)
    (by rw [Rebooked, rebook_of_eq (by rw [phase]; rfl)]; rfl)
  rwa [ledgerWith_of_get found] at shifted

theorem beginEviction_turn (victim : CellId) (rebalance : Bool) :
    Turns G r t (t.beginEviction victim rebalance).2 := by
  rcases beginEviction_cases t victim rebalance with same | ⟨_, epoch, found, phase, view, books, _⟩
  · rw [same]
    exact .refl
  · refine ⟨?_, books ▸ evict_shift found phase⟩
    rw [view]
    refine .single (.prove victim _ ?_ epoch _ ?_)
    · rw [view_cellAt_of_get found]; exact .of_kept rfl
    · rw [view_cellAt_of_get found]; exact phase

/-- The same eviction, started while the handler holds another cell. -/
theorem beginEviction_hand (gone : t.Gone id) (victim : CellId) (rebalance : Bool) :
    Hands G r t id cell cell (cell, (t.beginEviction victim rebalance).2) := by
  rcases beginEviction_cases t victim rebalance with same | ⟨found, epoch,
    mem, phase, view, books, _⟩
  · rw [same]
    exact .refl
  have other : victim ≠ id := by
    rintro rfl
    have settled := gone found mem
    rw [phase] at settled
    cases settled
  let evicted := Cell.enter { found with evictRebalance := rebalance }
    (.ensuringDurability t.nextOp epoch)
  constructor
  · have seen : (t.viewWith id cell).cellAt victim = found := by
      rw [← view_cellAt_of_get mem]
      exact update_of_ne other _ _
    have moved : (t.beginEviction victim rebalance).2.viewWith id cell
        = (t.viewWith id cell).startOp victim evicted
            (.ensureDurable t.nextOp victim epoch (!t.draining)) := by
      rw [viewWith, view]
      simp only [View.startOp, View.put, View.emit, View.spend, viewWith]
      rw [update_comm other]
    rw [moved]
    refine .single (.prove victim _ ?_ epoch _ ?_)
    · rw [seen]; exact .of_kept rfl
    · rw [seen]; exact phase
  · have seen : (t.putCell id cell).cells[victim]? = some found := by
      rw [← mem]
      simp [putCell, getElem?_insert, Ne.symm other]
    have moved : (t.beginEviction victim rebalance).2.ledgerWith id cell
        = (t.putCell id cell).ledgerWith victim evicted := by
      rw [ledgerWith, books, ledgerWith, ledgerWith, putCell_ledger, ledgerWith]
      simp only [Ledger.put]
      rw [update_comm other]
    rw [moved, ← putCell_ledger t id cell]
    exact evict_shift seen phase

theorem shedOne_turn : Turns G r t t.shedOne := by
  unfold shedOne
  split
  · exact .refl
  split
  · exact beginEviction_turn _ _
  · exact .refl

theorem shedOne_hand (gone : t.Gone id) : Hands G r t id cell cell (cell, t.shedOne) := by
  unfold shedOne
  split
  · exact .refl
  split
  · exact beginEviction_hand gone _ _
  · exact .refl

/-- Nothing is shed from a table without residents. -/
theorem shedOne_eq_self (empty : ∀ id, t.Gone id) : t.shedOne = t := by
  unfold shedOne
  split
  · rfl
  split
  · rename_i victim _
    rcases beginEviction_cases t victim t.rebalances with same | ⟨cell, _, found, phase, _⟩
    · exact same
    · have settled := empty victim cell found
      rw [phase] at settled
      cases settled
  · rfl

/-- A pass of a loop that evicts. -/
theorem evictPass (victim : CellId) (rebalance : Bool) {next : Except EvictRefusal OpId × CoreTurn}
    (eq : t.beginEviction victim rebalance = next) : Turns G r t next.2 :=
  eq ▸ beginEviction_turn victim rebalance

theorem evictIdleLoop_turn (nowMonoMs idleMs fuel : ℕ) (t : CoreTurn) :
    Turns G r t (evictIdleLoop nowMonoMs idleMs fuel t) := by
  induction fuel generalizing t with
  | zero => exact .refl
  | succ fuel ih =>
    unfold evictIdleLoop
    split
    · split
      · exact .refl
      · split
        · rename_i eq
          exact evictPass _ _ eq
        · rename_i eq
          exact (evictPass _ _ eq).trans (ih _)
    · exact .refl

theorem evictIdle_turn (nowMonoMs : ℕ) : Turns G r t (t.evictIdle nowMonoMs) := by
  unfold evictIdle
  split
  · exact .refl
  split
  · exact .refl
  · exact evictIdleLoop_turn _ _ _ _

theorem shedTowardFloorLoop_turn (fuel : ℕ) (t : CoreTurn) :
    Turns G r t (shedTowardFloorLoop fuel t) := by
  induction fuel generalizing t with
  | zero => exact .refl
  | succ fuel ih =>
    unfold shedTowardFloorLoop
    split
    · split
      · exact .refl
      · split
        · rename_i eq
          exact evictPass _ _ eq
        · rename_i eq
          exact (evictPass _ _ eq).trans (ih _)
    · exact .refl

theorem shedTowardFloor_turn : Turns G r t t.shedTowardFloor := by
  unfold shedTowardFloor
  split
  · exact .refl
  · exact shedTowardFloorLoop_turn _ _

theorem workerEpoch_phase {core : Core} (serves : workerEpoch core id cell = some epoch) :
    cell.phase = .resident epoch ∨ ∃ op, cell.phase = .ensuringDurability op epoch := by
  unfold workerEpoch at serves
  split at serves
  · rename_i found
    split at serves
    · cases serves
    · rw [← Option.some.inj serves]; exact .inl found
  · rename_i op _ found
    split at serves
    · cases serves
    · rw [← Option.some.inj serves]; exact .inr ⟨op, found⟩
  · cases serves

/-- Serve a Worker request on a cell that can serve it. -/
theorem serveWorker_turn (found : t.cells[id]? = some cell)
    (serves : cell.phase = .resident epoch ∨ ∃ op, cell.phase = .ensuringDurability op epoch)
    (request : RequestId) :
    Turns G r t
      (let t := t.dropCell id
       let p :=
         match cell.phase with
         | .ensuringDurability _ _ => t.cancelEviction id cell epoch .activity
         | _ => (cell, t)
       p.2.putCell id (p.1.recordLocalRequest request p.2.nowMonoMs)) := by
  dsimp only
  rcases serves with resident | ⟨op, leaving⟩
  · rw [resident]
    exact handled found (hand_touch (cell.recordLocalRequest request t.nowMonoMs) rfl)
  · rw [leaving]
    exact handled found ((cancelEviction_hand leaving .activity).trans
      (hand_touch (Cell.recordLocalRequest _ request _) rfl))

theorem workerRequest_turn (request : RequestId) : Turns G r t (t.workerRequest request) := by
  unfold workerRequest
  dsimp only
  split
  · exact table_push rfl
  · rename_i id epoch routed
    have served : (id, epoch) ∈ t.cells.toList.filterMap fun p =>
        (workerEpoch t.toCore p.1 p.2).map fun epoch => (p.1, epoch) := by
      rcases Option.or_eq_some_iff.mp routed with first | ⟨_, wrapped⟩
      · exact List.mem_of_find?_eq_some first
      · exact List.mem_of_mem_head? wrapped
    obtain ⟨⟨key, cell⟩, mem, eq⟩ := List.mem_filterMap.mp served
    obtain ⟨_, serves, rfl, rfl⟩ : ∃ e, workerEpoch t.toCore key cell = some e ∧
        key = id ∧ e = epoch := by
      simpa [Option.map_eq_some_iff] using eq
    have found : t.cells[key]? = some cell := mem_toList_iff_getElem?_eq_some.mp mem
    have placed :
      (CoreTurn.activateRequest { t with workerCursor := some key } request key).cells[key]?
        = some cell := found
    rw [placed]
    exact (serveWorker_turn
      placed (workerEpoch_phase serves) request).trans (table_push rfl)

end CoreTurn

end Celld
