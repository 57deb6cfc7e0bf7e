import Celld.Moves.History

/-!
# Operations on cells

An answer of the store names the operation it answers.  The core takes it only if
the cell still waits for that operation, so what an answer can do rests on two facts
about ids: a phase that waits for an operation was entered with the request for it,
and no id is used twice.

Both are read off the moves.  A move keeps the phase of a cell, leaves it for a phase
that waits for nothing, or enters one that waits for the next id, and the effects that
start operations carry the next id too.  So within one event, a phase that waits for
an id from before the event is the phase of before the event (`Moves.old`), and the
requests of a process carry increasing ids (`Run.requests`).
-/

namespace Celld

open List

/-! ## One cell of a view -/

variable {effect : CellEffect} {w v : View} {G : Grants}

namespace View

/-- Every operation a cell waits for has an id already. -/
def OpsBelow (v : View) : Prop :=
  ∀ id op, (v.cellAt id).phase.op? = some op → op < v.nextOp

end View

/-- A phase is kept, left for one that waits for nothing, or waits for the next
operation, whose id is then taken. -/
inductive PhaseChange (v w : View) (id : CellId) : Prop
  | keep (same : (w.cellAt id).phase = (v.cellAt id).phase)
  | rest (none : (w.cellAt id).phase.op? = none)
  | fresh (op : (w.cellAt id).phase.op? = some v.nextOp) (taken : v.nextOp < w.nextOp)

namespace PhaseChange

variable {v : View} {key id : CellId} {next : Cell}

theorem of_put (change : next.phase = (v.cellAt key).phase ∨ next.phase.op? = none) :
    PhaseChange v (v.put key next) id := by
  rcases v.cellAt_put key id next with ⟨rfl, eq⟩ | eq
  · rcases change with same | none
    · exact .keep (by rw [eq, same])
    · exact .rest (by rw [eq, none])
  · exact .keep (by rw [eq])

theorem of_startOp (change : next.phase = (v.cellAt key).phase ∨ next.phase.op? = some v.nextOp) :
    PhaseChange v (v.startOp key next effect) id := by
  rcases v.cellAt_startOp key id next effect with ⟨rfl, eq⟩ | eq
  · rcases change with same | op
    · exact .keep (by rw [eq, same])
    · exact .fresh (by rw [eq, op]) (lt_add_one _)
  · exact .keep (by rw [eq])

end PhaseChange

theorem Phase.op?_of_isParked {phase : Phase} (parked : phase.isParked = true) :
    phase.op? = none := by
  cases phase <;> first | rfl | cases parked

namespace Move

variable {G : Grants} {v w : View}

/-- What a move does to the phase of a cell. -/
theorem phaseChange (move : Move G v w) (id : CellId) : PhaseChange v w id := by
  cases move with
  | note => exact .keep rfl
  | spend => exact .keep rfl
  | stopUntracked => exact .keep rfl
  | cacheLease => exact .keep rfl
  | uncacheLease => exact .keep rfl
  | touch key next keeps => exact .of_put (.inl keeps.phase)
  | park key start keeps phase parked => exact .of_put (.inr (Phase.op?_of_isParked parked))
  | replace => exact .of_put (.inr rfl)
  | queueCold => exact .of_put (.inr rfl)
  | queueActivation => exact .of_put (.inr rfl)
  | reside => exact .of_put (.inr rfl)
  | rescue => exact .of_put (.inr rfl)
  | noteProven => exact .of_put (.inl rfl)
  | release key start keeps => exact .of_startOp (.inl keeps.phase)
  | fireAlarm key next keeps => exact .of_startOp (.inl keeps.phase)
  | _ => exact .of_startOp (.inr rfl)

theorem opsBelow (move : Move G v w) (below : v.OpsBelow) : w.OpsBelow := by
  intro id op waits
  rcases move.phaseChange id with same | none | ⟨fresh, taken⟩
  · rw [same] at waits
    exact (below id op waits).trans_le move.nextOp_le
  · rw [none] at waits
    cases waits
  · rw [fresh] at waits
    cases waits
    exact taken

end Move

namespace Moves

variable {G : Grants} {v w : View}

theorem opsBelow (moves : Moves G v w) (below : v.OpsBelow) : w.OpsBelow :=
  moves.invariant (fun _ _ move => move.opsBelow) below

/-- **A phase that waits for an earlier operation is an earlier phase.** -/
theorem old (moves : Moves G v w) {id : CellId} {op : OpId}
    (waits : (w.cellAt id).phase.op? = some op) (earlier : op < v.nextOp) :
    (w.cellAt id).phase = (v.cellAt id).phase := by
  induction moves with
  | refl => rfl
  | tail before move ih =>
    rename_i u w
    have past : Moves G v u := before
    rcases move.phaseChange id with same | none | ⟨fresh, _⟩
    · rw [same] at waits ⊢
      exact ih waits
    · rw [none] at waits
      cases waits
    · rw [fresh] at waits
      cases waits
      exact absurd (past.nextOp_le.trans_lt earlier) (lt_irrefl _)

end Moves

/-! ## Requests -/

namespace CellEffect

/-- The operation an effect starts. -/
def op? : CellEffect → Option OpId
  | .readOwner op _ | .readNodeLease op _ _ | .recoverNodeLog op _ _ | .readCapacityPeers op _
  | .casOwner op _ _ _ _ | .releaseOwner op _ _ | .adoptReleased op _ _ _ | .restore op _ _
  | .startRuntime op _ _ | .publish op _ _ | .ensureDurable op _ _ _ | .stopRuntime op _ _ _ _
  | .fireAlarm op _ _ _ => some op
  | _ => none

theorem op?_of_inert (inert : effect.inert = true) : effect.op? = none := by
  cases effect <;> first | rfl | cases inert

end CellEffect

/-- The ids that a list of effects starts operations under. -/
def opsOf (effects : List CellEffect) : List OpId := effects.filterMap CellEffect.op?

theorem opsOf_inert {effects : List CellEffect} (inert : ∀ effect ∈ effects, effect.inert = true) :
    opsOf effects = [] := by
  rw [opsOf, filterMap_eq_nil_iff]
  intro effect mem
  exact CellEffect.op?_of_inert (inert effect mem)

/-- The effects raised up to a view start operations under increasing ids, all of them
taken. -/
structure View.Requested (v : View) : Prop where
  increasing : (opsOf v.effects).Pairwise (· < ·)
  below : ∀ op ∈ opsOf v.effects, op < v.nextOp

namespace View.Requested

variable {v : View}

/-- Effects that start nothing change nothing. -/
theorem quiet (requested : v.Requested) {effects : List CellEffect}
    (raised : w.effects = v.effects ++ effects) (still : opsOf effects = [])
    (le : v.nextOp ≤ w.nextOp) : w.Requested := by
  have same : opsOf w.effects = opsOf v.effects := by
    rw [opsOf, raised, filterMap_append]
    show opsOf v.effects ++ opsOf effects = opsOf v.effects
    rw [still, append_nil]
  refine ⟨by rw [same]; exact requested.increasing, ?_⟩
  intro op mem
  rw [same] at mem
  exact (requested.below op mem).trans_le le

/-- The next operation. -/
theorem next (requested : v.Requested) (raised : w.effects = v.effects ++ [effect])
    (op : effect.op? = some v.nextOp) (taken : w.nextOp = v.nextOp + 1) : w.Requested := by
  have more : opsOf w.effects = opsOf v.effects ++ [v.nextOp] := by
    rw [opsOf, raised, filterMap_append, filterMap_cons_some op]
    rfl
  refine ⟨?_, ?_⟩
  · rw [more, pairwise_append]
    refine ⟨requested.increasing, pairwise_singleton _ _, ?_⟩
    intro earlier mem later last
    rw [mem_singleton.mp last]
    exact requested.below earlier mem
  · intro later mem
    rw [more, mem_append, mem_singleton] at mem
    rw [taken]
    rcases mem with mem | rfl
    · exact (requested.below later mem).trans (lt_add_one _)
    · exact lt_add_one _

/-- One id, one request. -/
theorem unique (requested : v.Requested) {one other : CellEffect} {op : OpId}
    (first : one ∈ v.effects) (second : other ∈ v.effects) (same : one.op? = some op)
    (same' : other.op? = some op) : one = other := by
  let Apart (a b : CellEffect) : Prop := ∀ x, a.op? = some x → ∀ y, b.op? = some y → x ≠ y
  have symm : Std.Symm Apart := ⟨fun a b apart x started y started' =>
    (apart y started' x started).symm⟩
  have apart : v.effects.Pairwise Apart :=
    (pairwise_filterMap.mp requested.increasing).imp
      fun less x started y started' => (less x started y started').ne
  by_contra differ
  exact apart.forall first second differ op same op same' rfl

end View.Requested

theorem Move.requested (move : Move G v w) (requested : v.Requested) :
    w.Requested := by
  cases move with
  | note effects inert => exact requested.quiet rfl (opsOf_inert inert) le_rfl
  | spend => exact requested.quiet (append_nil _).symm rfl (Nat.le_succ _)
  | stopUntracked => exact requested.next rfl rfl rfl
  | readOwner => exact requested.next rfl rfl rfl
  | readLease => exact requested.next rfl rfl rfl
  | recoverLog => exact requested.next rfl rfl rfl
  | readCapacity => exact requested.next rfl rfl rfl
  | issueClaim => exact requested.next rfl rfl rfl
  | issueRestore => exact requested.next rfl rfl rfl
  | reconcile => exact requested.next rfl rfl rfl
  | startRuntime => exact requested.next rfl rfl rfl
  | publish => exact requested.next rfl rfl rfl
  | prove => exact requested.next rfl rfl rfl
  | stop => exact requested.next rfl rfl rfl
  | release => exact requested.next rfl rfl rfl
  | adopt => exact requested.next rfl rfl rfl
  | fireAlarm => exact requested.next rfl rfl rfl
  | _ => exact requested.quiet (append_nil _).symm rfl le_rfl

theorem Moves.requested (moves : Moves G v w) (requested : v.Requested) :
    w.Requested :=
  moves.invariant (fun _ _ move => move.requested) requested

/-- Effects stay raised. -/
theorem Move.effects_mono (move : Move G v w)
    (raised : effect ∈ v.effects) : effect ∈ w.effects := by
  cases move <;> first | exact raised | exact mem_append_left _ raised

/-- The request that a phase of ownership resolution waits for. -/
def Phase.request (id : CellId) : Phase → Option CellEffect
  | .readingOwner op | .reconcilingAcquire op _ _ => some (.readOwner op id)
  | .readingNodeLease op record _ _ => some (.readNodeLease op id (record.node.getD ""))
  | .recoveringOwnerLog op record => some (.recoverNodeLog op id (record.node.getD ""))
  | .acquiring op claim _ => some (.casOwner op id claim.guard claim.epoch claim.takeover)
  | _ => none

/-- A phase is entered with its request. -/
theorem Move.asked (move : Move G v w) {id : CellId}
    (waits : (w.cellAt id).phase.request id = some effect) :
    (w.cellAt id).phase = (v.cellAt id).phase ∨ effect ∈ w.effects := by
  have put : ∀ {u : View} {key : CellId} {next : Cell}, u.cellAt = (v.put key next).cellAt →
      (next.phase = (v.cellAt key).phase ∨
        ∀ raised, next.phase.request key = some raised → raised ∈ u.effects) →
      (u.cellAt id).phase.request id = some effect →
      (u.cellAt id).phase = (v.cellAt id).phase ∨ effect ∈ u.effects := by
    intro u key next same change asks
    rw [same] at asks ⊢
    rcases v.cellAt_put key id next with ⟨rfl, eq⟩ | eq
    · rw [eq] at asks ⊢
      exact change.imp_right fun raised => raised effect asks
    · exact .inl (by rw [eq])
  have last : ∀ {raised : CellEffect} (e : CellEffect), some raised = some e →
      e ∈ v.effects ++ [raised] := by
    rintro raised _ ⟨⟩
    exact mem_append_right _ (mem_singleton_self _)
  cases move with
  | note => exact .inl rfl
  | spend => exact .inl rfl
  | stopUntracked => exact .inl rfl
  | cacheLease => exact .inl rfl
  | uncacheLease => exact .inl rfl
  | touch key next keeps => exact put rfl (.inl keeps.phase) waits
  | park key start keeps phase parked =>
    refine put rfl (.inr fun raised asks => ?_) waits
    cases phase <;> cases parked <;> cases asks
  | noteProven => exact put rfl (.inl rfl) waits
  | release key start keeps => exact put rfl (.inl keeps.phase) waits
  | fireAlarm key next keeps => exact put rfl (.inl keeps.phase) waits
  | readOwner => exact put rfl (.inr last) waits
  | readLease key start keeps record owner issuedMs granted named =>
    refine put rfl (.inr fun raised asks => last raised ?_) waits
    rw [← asks]
    show _ = some (CellEffect.readNodeLease _ key (record.node.getD ""))
    rw [named]
    rfl
  | recoverLog => exact put rfl (.inr last) waits
  | issueClaim => exact put rfl (.inr last) waits
  | reconcile => exact put rfl (.inr last) waits
  | _ => exact put rfl (.inr fun _ asks => by cases asks) waits

theorem Moves.asked (moves : Moves G v w) {id : CellId}
    (waits : (w.cellAt id).phase.request id = some effect) :
    (w.cellAt id).phase = (v.cellAt id).phase ∨ effect ∈ w.effects := by
  induction moves with
  | refl => exact .inl rfl
  | tail before move ih =>
    rcases move.asked waits with same | raised
    · rw [same] at waits ⊢
      exact (ih waits).imp_right move.effects_mono
    · exact .inr raised

end Celld
