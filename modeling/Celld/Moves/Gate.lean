import Celld.Moves.Node

/-!
# The output gate

The handlers of the whole state reach the cells through `onCore`.  What they do
beside that concerns the barriers: open one, add a follower or a rider, ask for an
ownership read, release an output, drop a barrier.  `GateMove` lists these beside
the moves of the core, and `GateGrants` says what an event allows of them.

A barrier is opened under the next operation id, and no move reuses an id: this is
all that later files need to follow a barrier from the output that opened it to the
verdict that settles it.

The gate holds outputs, not cells: opening a barrier, following one and riding one leave the
books alone.  A settled barrier touches them in two places.  The request it held finishes, and
an idle cell may be shed; and a failed proof stops the runtime of a resident cell.
-/

namespace Celld

open List Std.ExtTreeMap Effect CoreTurn

variable {epoch : Epoch}

namespace Effect

variable {χ : Type}

/-- The effects that concern cells. -/
def cell? : Effect χ → Option CellEffect
  | .cell effect => some effect
  | _ => none

/-- An effect beside the cells that neither opens, verifies nor releases. -/
def quiet : Effect χ → Bool
  | .cell _ | .awaitDurable _ _ _ _ | .verifyOwnership _ _ _ | .release _ _ (.ok _) => false
  | _ => true

theorem cell?_of_quiet {effect : Effect χ} (quiet : effect.quiet = true) :
    effect.cell? = none := by
  cases effect with
  | cell => cases quiet
  | _ => rfl

end Effect

/-- What a handled event allows, at the cells and at the gate. -/
structure GateGrants (χ : Type) extends Grants where
  /-- An output may open a barrier of its own on a residency, at a position. -/
  opens : Held χ → CellId → Epoch → ℕ → Prop
  /-- An output may wait for the verdict of a barrier. -/
  follows : Held χ → Barrier χ → Prop
  /-- An output may leave. -/
  releases : Held χ → Prop
  /-- A barrier's bucket proof has arrived. -/
  verifies : OpId → Barrier χ → Prop
  /-- The node lease may come to this. -/
  authorizes : NodeAuthority → Prop

/-- The output waits for the verdict of the barrier. -/
def Barrier.Withholds {χ : Type} (barrier : Barrier χ) (held : Held χ) : Prop :=
  barrier.owner = .output held ∨ held ∈ barrier.followers

/-- Nothing is granted. -/
def GateGrants.none {χ : Type} : GateGrants χ where
  toGrants := Grants.none
  opens _ _ _ _ := False
  follows _ _ := False
  releases _ := False
  verifies _ _ := False
  authorizes _ := False

/-- What gate moves speak about: the view of the core, the barriers, the node's
authority, and the effects that do not concern cells. -/
structure GateView (χ : Type) where
  core : View
  barriers : OpId → Option (Barrier χ)
  authority : NodeAuthority
  outputs : List (Effect χ)

namespace GateView

variable {χ : Type}

def put (g : GateView χ) (op : OpId) (barrier : Barrier χ) : GateView χ :=
  { g with barriers := Function.update g.barriers op (some barrier) }

def tell (g : GateView χ) (effects : List (Effect χ)) : GateView χ :=
  { g with outputs := g.outputs ++ effects }

end GateView

/-- The owner of a new barrier is an output the event may open one for, an alarm or
an export ticket. -/
def GateGrants.opensFor {χ : Type} (H : GateGrants χ) (owner : GateOwner χ) (cell : CellId)
    (epoch : Epoch) (position : ℕ) : Prop :=
  ∀ held, owner = .output held → H.opens held cell epoch position

/-- **One move of the gate.** -/
inductive GateMove {χ : Type} (H : GateGrants χ) (g : GateView χ) : GateView χ → Prop
  | core (v : View) (move : Move H.toGrants g.core v) : GateMove H g { g with core := v }
  | tell (effects : List (Effect χ)) (quiet : ∀ effect ∈ effects, effect.quiet = true) :
      GateMove H g (g.tell effects)
  | drop (kept : OpId → Option (Barrier χ))
      (fewer : ∀ op, kept op = none ∨ kept op = g.barriers op) :
      GateMove H g { g with barriers := kept }
  | openUp (owner : GateOwner χ) (cell : CellId) (epoch : Epoch) (position : ℕ)
      (granted : H.opensFor owner cell epoch position) :
      GateMove H g
        (({ g with core := g.core.spend }.put g.core.nextOp
          { owner := owner, cell := cell, epoch := epoch, position := position }).tell
            [.awaitDurable g.core.nextOp cell epoch position])
  | follow (op : OpId) (barrier : Barrier χ) (held : Held χ)
      (mem : g.barriers op = some barrier) (granted : H.follows held barrier) :
      GateMove H g (g.put op { barrier with followers := barrier.followers ++ [held] })
  | ride (op : OpId) (barrier : Barrier χ) (riders : List Rider)
      (mem : g.barriers op = some barrier) :
      GateMove H g (g.put op { barrier with riders := riders })
  | verify (op : OpId) (barrier : Barrier χ) (mem : g.barriers op = some barrier)
      (granted : H.verifies op barrier) :
      GateMove H g
        ((g.put op { barrier with verifying := true }).tell
          [.verifyOwnership op barrier.cell barrier.epoch])
  | release (held : Held χ) (granted : H.releases held) :
      GateMove H g (g.tell [.release held.request held.channel (.ok ())])
  | authorize (authority : NodeAuthority) (granted : H.authorizes authority) :
      GateMove H g { g with authority := authority }

/-- A chain of gate moves. -/
abbrev GateMoves {χ : Type} (H : GateGrants χ) : GateView χ → GateView χ → Prop :=
  Trail (GateMove H)

namespace GateMoves

variable {χ : Type} {H : GateGrants χ} {f g h : GateView χ}

/-- A chain of moves of the core, seen from the gate. -/
theorem ofCore {v : View} (moves : Moves H.toGrants g.core v) :
    GateMoves H g { g with core := v } := by
  induction moves with
  | refl => exact .refl _
  | tail _ move ih => exact ih.trans (.single (.core _ move))

/-- What gate moves do to the cells is a chain of moves. -/
theorem toCore (moves : GateMoves H f g) : Moves H.toGrants f.core g.core := by
  induction moves with
  | refl => exact .refl _
  | tail _ move ih =>
    cases move with
    | core v move => exact ih.trans (.single move)
    | openUp => exact ih.trans (.single .spend)
    | _ => exact ih

end GateMoves

/-- The books of a core. -/
def Core.ledger (c : Core) : Ledger := CoreTurn.ledger { c with effects := [] }

namespace CoreTurn

variable {G : Grants} {r : Rules} {t : CoreTurn} {id : CellId} {cell : Cell}

/-! ## What the gate does to the core -/

theorem noteProven_turn {position : ℕ} (granted : G.proven id epoch position) :
    Turns G r t (t.noteProven id epoch position) := by
  unfold noteProven modifyCell
  split
  · exact .refl
  · rename_i mem
    have move := Move.noteProven (v := t.view) id epoch position granted
    rw [view_cellAt_of_get mem] at move
    rw [Turns, putCell_view, putCell_ledger, ← ledgerWith_of_get mem]
    exact ⟨.single move, shift_touch id ⟨rfl, .inl rfl, .inl rfl, rfl, .inl rfl⟩⟩

theorem deactivateRequest_spec (t : CoreTurn) (request : RequestId) :
    (t.deactivateRequest request).2.view = t.view ∧
      (t.deactivateRequest request).2.ledger = t.ledger ∧
        (t.deactivateRequest request).2.cells = t.cells := by
  unfold deactivateRequest
  split <;> exact ⟨rfl, rfl, rfl⟩

theorem deactivateAll_spec (l : List RequestId) (t : CoreTurn) :
    (l.foldl (fun t request => (t.deactivateRequest request).2) t).view = t.view ∧
      (l.foldl (fun t request => (t.deactivateRequest request).2) t).ledger = t.ledger ∧
        (l.foldl (fun t request => (t.deactivateRequest request).2) t).cells = t.cells := by
  induction l generalizing t with
  | nil => exact ⟨rfl, rfl, rfl⟩
  | cons request l ih =>
    obtain ⟨view, books, cells⟩ := deactivateRequest_spec t request
    obtain ⟨laterView, laterBooks, laterCells⟩ := ih (t.deactivateRequest request).2
    exact ⟨laterView.trans view, laterBooks.trans books, laterCells.trans cells⟩

theorem finishActivity_turn (request : RequestId) : Turns G r t (t.finishActivity request) := by
  obtain ⟨view, books, _⟩ := deactivateRequest_spec t request
  unfold finishActivity
  rw [Turns, ← view, ← books]
  split
  · rename_i found
    rw [found]
    exact shedOne_turn
  · rename_i id u found
    rw [found]
    have used : Turns G r u (u.modifyCell id fun cell =>
        { cell with
          lastUsedMonoMs := u.nowMonoMs
          lastUsedRequest := max cell.lastUsedRequest request }) :=
      table_modifyCell _ fun _ => rfl
    exact used.trans shedOne_turn

/-- A cell is put back and an effect raised, on a turn seen like `t`. -/
theorem putPush_view {u : CoreTurn} (same : u.view = t.view) {cell : Cell} {effect : CellEffect} :
    ((u.putCell id cell).push effect).view = (t.push effect).viewWith id cell := by
  have put : (u.putCell id cell).view.emit [effect] = (t.push effect).viewWith id cell := by
    rw [putCell_view, viewWith, same]
    rfl
  exact put

/-- The runtime of a resident cell is stopped; the cell keeps its slot until it is. -/
theorem discardRuntime_turn (resident : t.phaseAt id = some (.resident epoch)) :
    Turns G r t (t.discardRuntime id epoch) := by
  obtain ⟨cell, mem, phase⟩ := Option.map_eq_some_iff.mp resident
  obtain ⟨view, books, cells⟩ := deactivateAll_spec (activeOn t.toCore id) t
  let quiet := (activeOn t.toCore id).foldl (fun t request => (t.deactivateRequest request).2) t
  have still : quiet.cells[id]? = some cell := by rw [cells]; exact mem
  have found : (quiet.cellOp id).2.cells[id]? = some cell := still
  have stopped : Hands G r quiet id cell cell (quiet.stopRuntime id cell epoch .reset false) :=
    stopRuntime_hand (.of_kept rfl (by rw [phase]; rfl)) (by rw [phase]; rfl) nofun
  obtain ⟨sameView, sameBooks⟩ := dropPhaseOp_spec (quiet.cellOp id).2 cell
  have dropped : (((quiet.cellOp id).2.dropPhaseOp cell).setPhase cell
      (.cleaning quiet.nextOp epoch .reset)).2.ledger
        = ((quiet.cellOp id).2.setPhase cell (.cleaning quiet.nextOp epoch .reset)).2.ledger := by
    rw [rebooked_setPhase sameBooks cell _]
    rfl
  rw [Turns, ← view, ← books, ← viewWith_of_get still, ← ledgerWith_of_get still]
  unfold discardRuntime
  dsimp only
  rw [found]
  exact ⟨stopped.1.trans (.of_eq (putPush_view sameView).symm),
    stopped.2.trans (.of_eq ((putCell_ledger _ id _).trans (ledgerWith_congr dropped id _)).symm)⟩

theorem settleAlarm_error_phaseAt (t : CoreTurn) (op : OpId) (nowMs nowMonoMs : ℕ)
    (failure : Failure) (id : CellId) :
    (t.settleAlarm op nowMs nowMonoMs (.error failure)).phaseAt id = t.phaseAt id := by
  unfold settleAlarm
  split
  · rfl
  rename_i key cell _ eq
  obtain ⟨_, mem, _, rfl⟩ := takeCellOp_some eq
  split
  · have same : t.phaseAt key = some cell.phase := by rw [Core.phaseAt, mem]; rfl
    exact phaseAt_putCell (t.dropOp op) key _ id same
  · rfl

/-! ## A request that finishes leaves the queues alone -/

/-- Shedding a resident cell leaves every queued one as it is. -/
theorem shedOne_waiting (t : CoreTurn) (key : CellId) :
    t.shedOne.requestCells = t.requestCells ∧
      ((t.shedOne.ledger.cellAt key).phase = .waitingActivation →
        t.shedOne.ledger.cellAt key = t.ledger.cellAt key) := by
  have evicts : ∀ victim rebalance,
      (t.beginEviction victim rebalance).2.requestCells = t.requestCells ∧
        (((t.beginEviction victim rebalance).2.ledger.cellAt key).phase = .waitingActivation →
          (t.beginEviction victim rebalance).2.ledger.cellAt key = t.ledger.cellAt key) := by
    intro victim rebalance
    rcases beginEviction_cases t victim rebalance with
      same | ⟨cell, epoch, found, phase, _, books, routes⟩
    · rw [same]
      exact ⟨rfl, fun _ => rfl⟩
    · refine ⟨routes, ?_⟩
      rw [books]
      by_cases here : key = victim
      · subst here
        simp [Cell.enter]
      · intro _
        exact Ledger.put_cellAt_of_ne _ _ here
  unfold shedOne
  split
  · exact ⟨rfl, fun _ => rfl⟩
  split
  · exact evicts _ _
  · exact ⟨rfl, fun _ => rfl⟩

/-- What the end of a request leaves of a cell that waits for a permit. -/
structure Waits (before after : Cell) : Prop where
  phase : before.phase = .waitingActivation
  requests : before.requests = after.requests
  wanted : ∀ requests,
    Cell.wanted { before with requests := requests } = Cell.wanted
      { after with requests := requests }
  confirming : before.confirming = after.confirming

theorem modifyCell_used (t : CoreTurn) (id key : CellId) (nowMonoMs : ℕ) (request : RequestId)
    (waits : ((t.modifyCell id fun cell =>
        { cell with
          lastUsedMonoMs := nowMonoMs
          lastUsedRequest := max cell.lastUsedRequest request }).ledger.cellAt key).phase
            = .waitingActivation) :
    Waits (t.ledger.cellAt key) ((t.modifyCell id fun cell =>
      { cell with
        lastUsedMonoMs := nowMonoMs
        lastUsedRequest := max cell.lastUsedRequest request }).ledger.cellAt key) := by
  unfold modifyCell at waits ⊢
  split at waits
  · exact ⟨waits, rfl, fun _ => rfl, rfl⟩
  · rename_i found
    rw [putCell_ledger] at waits ⊢
    by_cases here : key = id
    · subst here
      rw [ledgerWith_cellAt] at waits ⊢
      rw [ledger_cellAt_of_get found]
      exact ⟨waits, rfl, fun _ => rfl, rfl⟩
    · rw [ledgerWith, Ledger.put_cellAt_of_ne _ _ here] at waits ⊢
      exact ⟨waits, rfl, fun _ => rfl, rfl⟩

theorem finishActivity_waiting (t : CoreTurn) (request : RequestId) (key : CellId) :
    (t.finishActivity request).requestCells = t.requestCells ∧
      (((t.finishActivity request).ledger.cellAt key).phase = .waitingActivation →
        Waits (t.ledger.cellAt key) ((t.finishActivity request).ledger.cellAt key)) := by
  have quiet := (deactivateRequest_spec t request).2.1
  have routes : (t.deactivateRequest request).2.requestCells = t.requestCells := by
    unfold deactivateRequest
    split <;> rfl
  unfold finishActivity
  split
  · rename_i u found
    rw [found] at quiet routes
    rw [← quiet, ← routes]
    obtain ⟨same, stays⟩ := shedOne_waiting u key
    refine ⟨same, fun waits => ?_⟩
    have unshed := stays waits
    rw [unshed] at waits ⊢
    exact ⟨waits, rfl, fun _ => rfl, rfl⟩
  · rename_i id u found
    rw [found] at quiet routes
    rw [← quiet, ← routes]
    obtain ⟨same, stays⟩ := shedOne_waiting (u.modifyCell id fun cell =>
      { cell with
        lastUsedMonoMs := u.nowMonoMs
        lastUsedRequest := max cell.lastUsedRequest request }) key
    refine ⟨same.trans ?_, fun waits => ?_⟩
    · unfold modifyCell
      split <;> rfl
    · have unshed := stays waits
      rw [unshed] at waits ⊢
      exact modifyCell_used u id key _ request waits

/-- The end of another request does not take a demand away. -/
theorem finishActivity_abandons {request other : RequestId}
    (abandons : Abandons (t.finishActivity request).toCore other cell) :
    ∃ before, Abandons t.toCore other before ∧ before.confirming = cell.confirming := by
  obtain ⟨⟨id, routed, found⟩, unwanted, phase⟩ := abandons
  have seen : (t.finishActivity request).ledger.cellAt id = cell := ledger_cellAt_of_get found
  obtain ⟨routes, waits⟩ := finishActivity_waiting t request id
  have waits := waits (by rw [seen]; exact phase)
  rw [seen] at waits
  have present : t.cells[id]? = some (t.ledger.cellAt id) := by
    cases here : t.cells[id]? with
    | none =>
      have parked := waits.phase
      simp [ledger, here] at parked
    | some => rw [ledger_cellAt_of_get here]
  refine ⟨t.ledger.cellAt id, ⟨⟨id, ?_, present⟩, ?_, waits.phase⟩, waits.confirming⟩
  · rw [← routes]
    exact routed
  · rw [waits.requests, waits.wanted]
    exact unwanted

end CoreTurn

namespace Turn

variable {χ : Type} {H : GateGrants χ} {r : Rules} {t u w : Turn χ}
  {result : Except RequestError Unit} {op : OpId} {held : Held χ}

/-! ## Lifting -/

/-- The core of a turn, with the effects that concern cells. -/
def core (t : Turn χ) : CoreTurn :=
  { t.toCore with effects := t.effects.filterMap cell? }

/-- What gate moves see of a turn. -/
def gate (t : Turn χ) : GateView χ where
  core := t.core.view
  barriers op := t.barriers[op]?
  authority := t.nodeAuthority
  outputs := t.effects.filter (·.cell?.isNone)

/-- What a handler of the whole state does to the gate, and to the books of admission. -/
abbrev Steps (H : GateGrants χ) (r : Rules) (t u : Turn χ) : Prop :=
  GateMoves H t.gate u.gate ∧ Shifts r t.ledger u.ledger

theorem Steps.refl : Steps H r t t := ⟨.refl _, .refl _⟩

theorem Steps.trans (first : Steps H r t u) (second : Steps H r u w) : Steps H r t w :=
  ⟨first.1.trans second.1, first.2.trans second.2⟩

theorem Steps.foldl {α : Type} (f : Turn χ → α → Turn χ) (step : ∀ t a, Steps H r t (f t a))
    (l : List α) (t : Turn χ) : Steps H r t (l.foldl f t) :=
  ⟨.foldl gate f (fun t a => (step t a).1) l t,
    .foldl (fun t : Turn χ => t.ledger) f (fun t a => (step t a).2) l t⟩

theorem cell?_map_cell (l : List CellEffect) :
    (l.map (cell (χ := χ))).filterMap cell? = l := by
  induction l with
  | nil => rfl
  | cons effect l ih => simp [cell?, ih]

theorem outputs_map_cell (l : List CellEffect) :
    (l.map (cell (χ := χ))).filter (·.cell?.isNone) = [] := by
  induction l with
  | nil => rfl
  | cons => simp [cell?]

theorem onCore_moves {f : CoreTurn → CoreTurn}
    (moves : Moves H.toGrants (view { t.toCore with effects := [] })
      (f { t.toCore with effects := [] }).view) :
    GateMoves H t.gate (t.onCore f).gate := by
  have lifted := moves.behind (.refl _) (t.effects.filterMap cell?)
  have before : View.behind (view { t.toCore with effects := [] })
      (t.effects.filterMap cell?) = t.gate.core := by
    simp [View.behind, gate, core, view]
  have after : (t.onCore f).gate = { t.gate with
      core := ((f { t.toCore with effects := [] }).view.behind
        (t.effects.filterMap cell?)) } := by
    simp only [View.behind, gate, core, view, onCore, filterMap_append,
      filter_append, cell?_map_cell, outputs_map_cell, append_nil]
  rw [before] at lifted
  rw [after]
  exact .ofCore lifted

theorem onCore_steps {f : CoreTurn → CoreTurn}
    (turns : CoreTurn.Turns H.toGrants r { t.toCore with effects := [] }
      (f { t.toCore with effects := [] })) : Steps H r t (t.onCore f) :=
  ⟨onCore_moves turns.1, turns.2⟩

theorem pushAll_gate (t : Turn χ) (effects : List (Effect χ))
    (foreign : ∀ effect ∈ effects, effect.cell? = none) :
    (t.pushAll effects).gate = t.gate.tell effects := by
  have none : effects.filterMap cell? = [] := filterMap_eq_nil_iff.mpr foreign
  have all : effects.filter (·.cell?.isNone) = effects := by
    refine filter_eq_self.mpr fun effect mem => ?_
    simp [foreign effect mem]
  simp [gate, core, pushAll, GateView.tell, none, all]

theorem pushAll_steps (effects : List (Effect χ))
    (quiet : ∀ effect ∈ effects, effect.quiet = true) : Steps H r t (t.pushAll effects) := by
  refine ⟨?_, .refl _⟩
  rw [pushAll_gate t effects fun effect mem => cell?_of_quiet (quiet effect mem)]
  exact .single (.tell effects quiet)

theorem push_steps {effect : Effect χ} (quiet : effect.quiet = true) :
    Steps H r t (t.push effect) :=
  pushAll_steps [effect] (by simpa using quiet)

theorem pushCell_steps {effect : CellEffect} (inert : effect.inert = true) :
    Steps H r t (t.pushCell effect) := by
  have same : (t.pushCell effect).gate = { t.gate with core := t.gate.core.emit [effect] } := by
    simp [gate, core, view, pushCell, push, View.emit, cell?]
  refine ⟨?_, .refl _⟩
  rw [same]
  exact .single (.core _ (.note _ (by simpa using inert)))

theorem release_steps (granted : H.releases held) :
    Steps H r t (t.push (.release held.request held.channel (.ok ()))) := by
  have pushed := pushAll_gate t [.release held.request held.channel (.ok ())]
    (by simp [cell?])
  have move := GateMove.release (g := t.gate) held granted
  rw [← pushed] at move
  exact ⟨.single move, .refl _⟩

theorem putBarrier_gate (t : Turn χ) (op : OpId) (barrier : Barrier χ) :
    (t.putBarrier op barrier).gate = t.gate.put op barrier := by
  simp only [gate, GateView.put, putBarrier, BTreeMap.get_insert]
  rfl

theorem dropBarrier_steps (op : OpId) : Steps H r t (t.dropBarrier op) := by
  refine ⟨.single (.drop (fun key => (t.barriers.erase op)[key]?) fun key => ?_), .refl _⟩
  by_cases eq : op = key
  · subst eq
    exact .inl (by simp)
  · exact .inr (by simp [gate, getElem?_erase, eq])

theorem dropBarrier_get {other : OpId} (differs : other ≠ op) :
    (t.dropBarrier op).barriers[other]? = t.barriers[other]? := by
  simp [dropBarrier, getElem?_erase, Ne.symm differs]

/-! ## Opening a barrier -/

theorem openBarrier_steps {owner : GateOwner χ} {cell : CellId} {position : ℕ}
    (granted : H.opensFor owner cell epoch position) :
    Steps H r t (t.openBarrier owner cell epoch position) := by
  have move := GateMove.openUp (g := t.gate) owner cell epoch position granted
  have same : (t.openBarrier owner cell epoch position).gate
      = (({ t.gate with core := t.gate.core.spend }.put t.gate.core.nextOp
          { owner := owner, cell := cell, epoch := epoch, position := position }).tell
            [.awaitDurable t.gate.core.nextOp cell epoch position]) := by
    have pushed := pushAll_gate
      (t.op.2.putBarrier t.op.1
        { owner := owner, cell := cell, epoch := epoch, position := position })
      [.awaitDurable t.op.1 cell epoch position] (by simp [cell?])
    rw [putBarrier_gate] at pushed
    exact pushed
  refine ⟨?_, .refl _⟩
  rw [same]
  exact .single move

theorem opensFor_export (ticket : ℕ) (cell : CellId) (epoch : Epoch) (position : ℕ) :
    H.opensFor (.export ticket) cell epoch position := by
  rintro _ ⟨⟩

theorem opensFor_alarm (alarm : OpId) (snapshot : AlarmSnapshot) (covered : Bool)
    (cell : CellId) (epoch : Epoch) (position : ℕ) :
    H.opensFor (.alarm alarm snapshot covered) cell epoch position := by
  rintro _ ⟨⟩

theorem openWriteBarrier_steps {position : ℕ}
    (granted : ∀ cell epoch, t.residentCell held.request = some (cell, epoch) →
      H.opens held cell epoch position) :
    Steps H r t (t.openWriteBarrier held position) := by
  unfold openWriteBarrier
  split
  · exact push_steps rfl
  · rename_i cell epoch resident
    refine openBarrier_steps ?_
    rintro _ ⟨⟩
    exact granted cell epoch resident

theorem follow_steps {barrier : Barrier χ} (mem : t.barriers[op]? = some barrier)
    (granted : H.follows held barrier) :
    Steps H r t (t.follow op barrier held) := by
  unfold follow
  refine ⟨?_, .refl _⟩
  rw [putBarrier_gate]
  exact .single (.follow op barrier held mem granted)

/-- The newest barrier a search finds is open. -/
theorem newest_open {p : OpId × Barrier χ → Bool} {found : OpId × Barrier χ}
    (eq : t.barriers.toList.reverse.find? p = some found) :
    t.barriers[found.1]? = some found.2 ∧ p found = true := by
  have mem := mem_of_find?_eq_some eq
  exact ⟨mem_toList_iff_getElem?_eq_some.mp (mem_reverse.mp mem),
    find?_some eq⟩

/-- The oldest barrier a search finds is open. -/
theorem oldest_open {p : OpId × Barrier χ → Bool} {found : OpId × Barrier χ}
    (eq : t.barriers.toList.find? p = some found) :
    t.barriers[found.1]? = some found.2 ∧ p found = true :=
  ⟨mem_toList_iff_getElem?_eq_some.mp (mem_of_find?_eq_some eq),
    find?_some eq⟩

theorem holdObserved_steps {cell : CellId} {observed : ℕ}
    (opens : ∀ cell epoch, t.residentCell held.request = some (cell, epoch) →
      H.opens held cell epoch observed)
    (follows : ∀ barrier : Barrier χ, barrier.isOn cell epoch = true →
      observed ≤ barrier.position → H.follows held barrier) :
    Steps H r t (t.holdObserved held cell epoch observed) := by
  unfold holdObserved
  split
  · rename_i barrier found
    obtain ⟨mem, fits⟩ := newest_open found
    simp only [Bool.and_eq_true, decide_eq_true_eq] at fits
    exact follow_steps mem (follows barrier fits.1.1 fits.1.2)
  · exact openWriteBarrier_steps opens

theorem trailOpenBarrier_steps (follows : ∀ barrier, H.follows held barrier)
    (releases : H.releases held) : Steps H r t (t.trailOpenBarrier held) := by
  unfold trailOpenBarrier
  split
  · exact push_steps rfl
  split
  · rename_i barrier found
    exact follow_steps (newest_open found).1 (follows barrier)
  · exact release_steps releases

/-- What an output event must grant for its handler to be a chain of moves. -/
structure OutputGrants (H : GateGrants χ) (t : Turn χ) (held : Held χ)
    (position observed : Option ℕ) : Prop where
  writes : ∀ at_, position = some at_ → ∀ cell epoch,
    t.residentCell held.request = some (cell, epoch) → H.opens held cell epoch at_
  reads : ∀ at_, position = none → observed = some at_ → ∀ cell epoch,
    t.residentCell held.request = some (cell, epoch) → H.opens held cell epoch at_
  waits : ∀ at_ cell epoch, position = none → observed = some at_ →
    t.residentCell held.request = some (cell, epoch) → ∀ barrier : Barrier χ,
      barrier.isOn cell epoch = true → at_ ≤ barrier.position → H.follows held barrier
  covered : ∀ at_ cell epoch, position = none → observed = some at_ →
    t.residentCell held.request = some (cell, epoch) → t.provenCovers cell epoch at_ = true →
      (∀ barrier, H.follows held barrier) ∧ H.releases held
  trails : position = none → observed = none → (∀ barrier, H.follows held barrier) ∧ H.releases held

theorem output_steps {request : RequestId} {channel : χ} {position observed : Option ℕ}
    {epoch : Option Epoch}
    (granted : OutputGrants H t ⟨request, channel⟩ position observed) :
    Steps H r t (t.output request channel position observed epoch) := by
  unfold output
  dsimp only
  split
  · exact push_steps rfl
  split
  · exact push_steps rfl
  split
  · exact openWriteBarrier_steps (granted.writes _ rfl)
  · split
    · rename_i cell current resident
      split
      · rename_i covers
        obtain ⟨follows, releases⟩ := granted.covered _ cell current rfl rfl resident covers
        exact trailOpenBarrier_steps follows releases
      · exact holdObserved_steps (granted.reads _ rfl rfl)
          (granted.waits _ cell current rfl rfl resident)
    · exact push_steps rfl
  · obtain ⟨follows, releases⟩ := granted.trails rfl rfl
    exact trailOpenBarrier_steps follows releases

theorem ride_steps {barrier : Barrier χ} (riders : List Rider)
    (mem : t.barriers[op]? = some barrier) :
    Steps H r t (t.putBarrier op { barrier with riders := riders }) := by
  refine ⟨?_, .refl _⟩
  rw [putBarrier_gate]
  exact .single (.ride op barrier riders mem)

theorem exportTicket_steps (cell : CellId) (epoch : Epoch) (position ticket : ℕ) :
    Steps H r t (t.exportTicket cell epoch position ticket) := by
  unfold exportTicket
  split
  · exact push_steps rfl
  split
  · rename_i found
    exact ride_steps _ (oldest_open found).1
  · exact openBarrier_steps (opensFor_export _ _ _ _)

theorem reaskRiders_steps (cell : CellId) (epoch : Epoch) (riders : List Rider) :
    Steps H r t (t.reaskRiders cell epoch riders) :=
  Steps.foldl _
    (fun _ _ => openBarrier_steps (opensFor_export _ _ _ _)) riders t

variable {gate : Barrier χ}

theorem handExportOn_steps (handed : t.handExportOn op gate = some u) : Steps H r t u := by
  unfold handExportOn at handed
  split at handed
  · split at handed
    · cases handed
    · rename_i found
      obtain ⟨mem, fits⟩ := oldest_open found
      simp only [Bool.and_eq_true, decide_eq_true_eq, ne_eq] at fits
      rw [← Option.some.inj handed]
      exact (dropBarrier_steps op).trans
        (ride_steps _ ((dropBarrier_get fits.1.1.1).trans mem))
  · cases handed

theorem dropAll_steps (l : List (OpId × Barrier χ)) (t : Turn χ) :
    Steps H r t (l.foldl (fun t other => t.dropBarrier other.1) t) :=
  Steps.foldl _ (fun _ other => dropBarrier_steps other.1) l t

theorem dropAll_get {l : List (OpId × Barrier χ)} (kept : ∀ other ∈ l, other.1 ≠ op) (t : Turn χ) :
    (l.foldl (fun t other => t.dropBarrier other.1) t).barriers[op]? = t.barriers[op]? := by
  induction l generalizing t with
  | nil => rfl
  | cons other l ih =>
    rw [foldl_cons, ih fun other mem => kept other (by simp [mem])]
    exact dropBarrier_get (Ne.symm (kept other (by simp)))

theorem takeExportRiders_steps (mem : t.barriers[op]? = some gate) :
    Steps H r t (t.takeExportRiders op gate).2 := by
  have kept : ∀ other ∈ t.ridingExports op gate, other.1 ≠ op := by
    intro other member
    have fits := (mem_filter.mp member).2
    simp only [Bool.and_eq_true, decide_eq_true_eq, ne_eq] at fits
    exact fits.1.1.1.1
  exact (dropAll_steps _ t).trans (ride_steps _ ((dropAll_get kept t).trans mem))

/-! ## Settling a barrier -/

theorem activityFinished_steps (request : RequestId) :
    Steps H r t (t.activityFinished request) := by
  unfold activityFinished
  split
  · exact .refl
  · exact onCore_steps (finishActivity_turn request)

theorem releaseHeld_steps (granted : result = .ok () → H.releases held) :
    Steps H r t (releaseHeld result t held) := by
  have released : ∀ u : Turn χ,
      Steps H r u (u.push (.release held.request held.channel result)) := by
    intro u
    cases result with
    | error => exact push_steps rfl
    | ok => exact release_steps (granted rfl)
  refine Steps.trans ?_ (released _)
  split
  · exact activityFinished_steps (t := { t with gatePinned := t.gatePinned.erase held.request }) _
  · exact .refl

theorem releaseAllHeld_steps {l : List (Held χ)}
    (granted : result = .ok () → ∀ held ∈ l, H.releases held) :
    Steps H r t (l.foldl (releaseHeld result) t) := by
  induction l generalizing t with
  | nil => exact .refl
  | cons held l ih =>
    exact (releaseHeld_steps fun ok => granted ok held (by simp)).trans
      (ih fun ok held mem => granted ok held (by simp [mem]))

theorem alarmFinished_steps (op : OpId) (fired : CellId) (epoch : Epoch) (nowMs nowMonoMs : ℕ)
    (result : Except Failure (AlarmSnapshot × Bool × Option ℕ)) :
    Steps H r t (t.alarmFinished op fired epoch nowMs nowMonoMs result) := by
  unfold alarmFinished
  split
  · split
    · exact openBarrier_steps (opensFor_alarm _ _ _ _ _ _)
    · exact onCore_steps (settleAlarm_turn _ _ _ _)
  · exact onCore_steps (settleAlarm_turn _ _ _ _)
  · exact onCore_steps (settleAlarm_turn _ _ _ _)

theorem failure_quiet (barrier : Barrier χ) (error : RequestError) :
    ∀ effect ∈ barrier.failure error, effect.quiet = true := by
  intro effect mem
  simp only [Barrier.failure, mem_append, Barrier.followerFailures, Barrier.riderVerdicts,
    mem_map] at mem
  rcases mem with (owner | ⟨_, _, rfl⟩) | ⟨_, _, rfl⟩
  · unfold Barrier.ownerFailure at owner
    split at owner
    · rw [mem_singleton.mp owner]; rfl
    · cases owner
    · rw [mem_singleton.mp owner]; rfl
  · rfl
  · rfl

/-- A failed barrier touches at most the alarm of a cell, never a phase. -/
theorem failDoomed_steps (t : Turn χ) (op : OpId) :
    Steps H r t (t.failDoomed op) ∧
      ∀ id, (t.failDoomed op).phaseAt id = t.phaseAt id := by
  unfold failDoomed
  split
  · exact ⟨.refl, fun _ => rfl⟩
  rename_i gate _
  dsimp only
  have told : ∀ u : Turn χ,
      Steps H r u (u.pushAll (gate.failure .durabilityUnproven)) :=
    fun u => pushAll_steps _ (failure_quiet gate _)
  split
  · rename_i held _
    exact ⟨(dropBarrier_steps op).trans
      (told { t.dropBarrier op with gatePinned := t.gatePinned.erase held.request }), fun _ => rfl⟩
  · refine ⟨(dropBarrier_steps op).trans ((alarmFinished_steps _ _ _ _ _ _).trans (told _)), ?_⟩
    intro id
    exact settleAlarm_error_phaseAt { t.toCore with effects := [] } _ _ _ _ id
  · exact ⟨(dropBarrier_steps op).trans (told _), fun _ => rfl⟩

theorem failAllDoomed_steps (l : List OpId) (t : Turn χ) :
    Steps H r t (l.foldl failDoomed t) ∧
      ∀ id, (l.foldl failDoomed t).phaseAt id = t.phaseAt id := by
  induction l generalizing t with
  | nil => exact ⟨.refl, fun _ => rfl⟩
  | cons op l ih =>
    obtain ⟨moves, phases⟩ := failDoomed_steps t op
    obtain ⟨laterMoves, laterPhases⟩ := ih (t.failDoomed op)
    exact ⟨moves.trans laterMoves, fun id => (laterPhases id).trans (phases id)⟩

theorem failResidency_steps (t : Turn χ) (id : CellId) (epoch : Epoch) :
    Steps H r t (t.failResidency id epoch) ∧
      ∀ key, (t.failResidency id epoch).phaseAt key = t.phaseAt key :=
  failAllDoomed_steps _ t

theorem residentAt_phaseAt {id : CellId} (resident : t.residentAt id epoch = true) :
    t.phaseAt id = some (.resident epoch) := by
  unfold Core.residentAt at resident
  obtain ⟨cell, found, phase⟩ := (Option.any_eq_true _ _).mp resident
  have mem : t.cells[id]? = some cell := found
  rw [Core.phaseAt, mem]
  exact congrArg some (by simpa using phase)

theorem resetCell_steps (id : CellId) (epoch : Epoch) :
    Steps H r t (t.resetCell id epoch) := by
  unfold resetCell
  split
  · exact .refl
  rename_i resident
  obtain ⟨moves, phases⟩ := failResidency_steps t id epoch
  have still : (t.failResidency id epoch).phaseAt id = some (.resident epoch) :=
    (phases id).trans (residentAt_phaseAt (by simpa using resident))
  exact moves.trans
    (onCore_steps (t := (t.failResidency id epoch).unpinAll _) (discardRuntime_turn still))

theorem settleOwner_steps (proven : Bool)
    (granted : result = .ok () → ∀ held, gate.Withholds held → H.releases held) :
    Steps H r t (t.settleOwner gate proven result) := by
  unfold settleOwner
  split
  · rename_i held owner
    exact releaseHeld_steps fun ok => granted ok held (.inl owner)
  · exact alarmFinished_steps _ _ _ _ _ _
  · exact push_steps rfl

theorem noteVerdict_steps {proven : Bool}
    (granted : proven = true → H.proven gate.cell gate.epoch gate.position) :
    Steps H r t (t.noteVerdict gate proven) := by
  unfold noteVerdict
  split
  · rename_i holds
    exact onCore_steps (noteProven_turn (granted holds))
  · exact .refl

theorem riderVerdicts_steps (gate : Barrier χ) (result : Except RequestError Unit) :
    Steps H r t (t.pushAll (gate.riderVerdicts result)) := by
  refine pushAll_steps _ fun effect mem => ?_
  obtain ⟨_, _, rfl⟩ := mem_map.mp mem
  rfl

/-- What a positive verdict on a barrier must be granted. -/
structure VerdictGrants (H : GateGrants χ) (gate : Barrier χ) : Prop where
  proven : H.proven gate.cell gate.epoch gate.position
  releases : ∀ held, gate.Withholds held → H.releases held

theorem settleGate_steps {proven : Bool}
    (granted : proven = true → ∀ gate, t.barriers[op]? = some gate → VerdictGrants H gate) :
    Steps H r t (t.settleGate op proven) := by
  unfold settleGate
  split
  · exact .refl
  rename_i gate mem
  have releases : verdict proven = .ok () → ∀ held, gate.Withholds held → H.releases held := by
    intro ok
    refine (granted ?_ gate mem).releases
    cases proven
    · cases ok
    · rfl
  have noted : Steps H r t ((t.dropBarrier op).noteVerdict gate proven) :=
    (dropBarrier_steps op).trans (noteVerdict_steps fun holds => (granted holds gate mem).proven)
  have settled := (noted.trans (riderVerdicts_steps gate (verdict proven))).trans
    (settleOwner_steps proven releases)
  dsimp only
  split
  · exact settled
  · have followed := settled.trans
      (releaseAllHeld_steps fun ok held member => releases ok held (.inr member))
    split
    · exact followed
    · exact followed.trans (resetCell_steps _ _)

theorem verify_steps (mem : t.barriers[op]? = some gate) (granted : H.verifies op gate) :
    Steps H r t ((t.putBarrier op { gate with verifying := true }).push
      (.verifyOwnership op gate.cell gate.epoch)) := by
  have pushed := pushAll_gate (t.putBarrier op { gate with verifying := true })
    [.verifyOwnership op gate.cell gate.epoch] (by simp [cell?])
  rw [putBarrier_gate] at pushed
  have move := GateMove.verify (g := t.gate) op gate mem granted
  rw [← pushed] at move
  exact ⟨.single move, .refl _⟩

/-- A bucket proof asks for an ownership read; a fleet proof settles at once. -/
theorem durableReached_steps {result : Except Failure ℕ} {source : ProofSource}
    (verifies : source = .bucket → ∀ gate : Barrier χ, gate.covered result = true →
      H.verifies op gate) (settles : source = .fleet → ∀ gate, t.barriers[op]? = some gate →
      gate.covered result = true → VerdictGrants H gate) :
    Steps H r t (t.durableReached op result source) := by
  unfold durableReached
  split
  · exact .refl
  rename_i gate mem
  split
  · exact settleGate_steps (by simp)
  rename_i covers
  have covered : gate.covered result = true := by simpa using covers
  split
  · split
    · rename_i handed
      exact handExportOn_steps handed
    · have riding : (t.takeExportRiders op gate).2.barriers[op]?
          = some (t.takeExportRiders op gate).1 := by
        simp [takeExportRiders, putBarrier]
      exact (takeExportRiders_steps mem).trans (verify_steps riding (verifies rfl _ covered))
  · have settled : Steps H r (t.putBarrier op { gate with riders := [] })
        ((t.putBarrier op { gate with riders := [] }).settleGate op true) := by
      refine settleGate_steps fun _ found eq => ?_
      simp only [putBarrier, getElem?_insert_self] at eq
      rw [← Option.some.inj eq]
      obtain ⟨proven, releases⟩ := settles rfl gate mem covered
      exact ⟨proven, releases⟩
    exact ((ride_steps [] mem).trans settled).trans
      (reaskRiders_steps _ _ _)

theorem ownershipVerified_steps {result : Except Failure Unit}
    (settles : result = .ok () → ∀ gate, t.barriers[op]? = some gate → VerdictGrants H gate) :
    Steps H r t (t.ownershipVerified op result) := by
  unfold ownershipVerified
  split
  · refine settleGate_steps fun proven gate mem => settles ?_ gate mem
    cases result with
    | error => simp [Except.isOk, Except.toBool] at proven
    | ok => rfl
  · exact .refl

end Turn

end Celld
