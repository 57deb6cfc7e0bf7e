import Celld.Core.Step
import Celld.Lib.Trail

/-!
# What a handler can do to the cells

A handler is a page of branches, but what it can do to a cell is one of about two
dozen moves: park it, queue it, start an operation on it, publish it, prove it,
stop it, release it.  `Move` lists them once, with their guards and the effect
each one raises; `Celld.Moves` shows that every handler is a chain of moves.
Invariants of whole runs are then proved against the list.

### The view

`View` is the part of a core a move speaks about: the constants and clocks, the
lease cache, the cells, the next operation id and the effects raised so far.  The
table is seen as a total function, an absent cell being the default one: a handler
that finds no cell works on the default, so the two are never told apart.

A handler that holds a cell out of the table is seen through `viewWith`, which puts
the cell back.

### Grants

Most moves need nothing beyond the cell.  A few rest on what the event at hand
says: a claim on an ownership record that was just read, a restore after a
confirmed acquisition, a proof.  `Grants` collects what an event grants; a grant to
a cell is stated against the phase that waits for the event, so that it is spent
when the cell leaves the phase.
-/

namespace Celld

variable {H G : Grants}

/-- What a handled event allows cells to do. -/
structure Grants where
  /-- A claim the cell in this phase may make. -/
  claim : Phase → Claim → Prop
  /-- A restore that an acquisition confirmed for the cell in this phase. -/
  confirm : Phase → RestoreSpec → Prop
  /-- A foreign ownership record, and the instant it was read at. -/
  lease : Phase → OwnerRecord → ℕ → Prop
  /-- A record whose dead owner's log has to be recovered. -/
  recover : Phase → OwnerRecord → Prop
  /-- The restore of a preserved local epoch. -/
  resume : CellId → RestoreSpec → Prop
  /-- A verified proof of a residency's position. -/
  proven : CellId → Epoch → ℕ → Prop

namespace Grants

/-- The event grants nothing. -/
def none : Grants where
  claim _ _ := False
  confirm _ _ := False
  lease _ _ _ := False
  recover _ _ := False
  resume _ _ := False
  proven _ _ _ := False

end Grants

/-- The part of a core that moves speak about. -/
structure View where
  node : NodeId
  config : Config
  nowMs : ℕ
  nowMonoMs : ℕ
  cache : NodeId → Option CachedNodeLease
  cellAt : CellId → Cell
  nextOp : OpId
  effects : List CellEffect

namespace View

def put (v : View) (id : CellId) (cell : Cell) : View :=
  { v with cellAt := Function.update v.cellAt id cell }

def emit (v : View) (effects : List CellEffect) : View :=
  { v with effects := v.effects ++ effects }

/-- Spend the next operation id. -/
def spend (v : View) : View := { v with nextOp := v.nextOp + 1 }

/-- Start an operation on a cell. -/
def startOp (v : View) (id : CellId) (cell : Cell) (effect : CellEffect) : View :=
  ((v.put id cell).emit [effect]).spend

/-- The cell a put leaves under an id is the one put there or the one before. -/
theorem cellAt_put (v : View) (key id : CellId) (next : Cell) :
    (id = key ∧ (v.put key next).cellAt id = next) ∨ (v.put key next).cellAt id = v.cellAt id := by
  by_cases eq : id = key
  · subst eq
    exact .inl ⟨rfl, Function.update_self _ _ _⟩
  · exact .inr (Function.update_of_ne eq _ _)

theorem cellAt_startOp (v : View) (key id : CellId) (next : Cell) (effect : CellEffect) :
    (id = key ∧ (v.startOp key next effect).cellAt id = next) ∨
      (v.startOp key next effect).cellAt id = v.cellAt id :=
  v.cellAt_put key id next

theorem put_cases {v : View} {key id : CellId} {next : Cell} (P : Cell → Prop)
    (holds : P ((v.put key next).cellAt id)) : (id = key ∧ P next) ∨ P (v.cellAt id) := by
  rcases v.cellAt_put key id next with ⟨same, eq⟩ | eq
  · exact .inl ⟨same, eq ▸ holds⟩
  · exact .inr (eq ▸ holds)

end View

namespace CellEffect

/-- The effect starts no operation on a cell and writes no record. -/
def inert : CellEffect → Bool
  | .evictionAdmission _ _ | .evictionFinished _ _ | .scheduleTimer _ _ | .readLocalCells
  | .reconcileWakeEntry _ _ | .cancelCellActivity _ _ _ _ _ | .abandonEvictionStop _ _
  | .complete _ _ | .completeWorker _ _ | .closeWebSocket _ _ => true
  | _ => false

end CellEffect

/-- The phases a cell rests in without an operation of its own. -/
def Phase.isParked : Phase → Bool
  | .inactive | .waitingOwnerLogRecovery _ | .dormant _ | .remote _ _ _ _ _ | .fenced => true
  | _ => false

/-- The cell keeps its phase and its proof; a pending release, claim or start may
be dropped, and everything else is free. -/
structure Cell.Forgets (cell next : Cell) : Prop where
  phase : next.phase = cell.phase
  provenPosition : next.provenPosition = cell.provenPosition
  releasing : next.releasing = cell.releasing ∨ next.releasing = none
  waitingFor : next.waitingFor = cell.waitingFor ∨ next.waitingFor = none
  waitingActivation :
    next.waitingActivation = cell.waitingActivation ∨ next.waitingActivation = none

theorem Cell.Forgets.refl (cell : Cell) : cell.Forgets cell :=
  ⟨rfl, rfl, .inl rfl, .inl rfl, .inl rfl⟩

theorem Cell.Forgets.trans {a b c : Cell} (first : a.Forgets b) (second : b.Forgets c) :
    a.Forgets c := by
  have chain : ∀ {α : Type} {x y z : Option α}, y = x ∨ y = none → z = y ∨ z = none →
      z = x ∨ z = none := by
    rintro α x y z (rfl | rfl) (rfl | rfl) <;> simp
  exact ⟨second.phase.trans first.phase, second.provenPosition.trans first.provenPosition,
    chain first.releasing second.releasing, chain first.waitingFor second.waitingFor,
    chain first.waitingActivation second.waitingActivation⟩

/-- The activation may be spent on the cell: granted by the event, or carried by
the cell itself. -/
def Grants.allows (G : Grants) (id : CellId) (cell : Cell) : Activation → Prop
  | .claim claim =>
      G.claim cell.phase claim ∨ cell.waitingFor = some (.claim claim) ∨
        ∃ op issued, cell.phase = .readingCapacity op claim issued
  | .restore spec =>
      G.confirm cell.phase spec ∨ cell.waitingFor = some (.restore spec) ∨
        cell.waitingActivation = some (.restore spec) ∨ G.resume id spec

/-- The updated proof of a residency, as `note_proven` folds it. -/
def Cell.noteProven (cell : Cell) (epoch : Epoch) (position : ℕ) : Cell :=
  { cell with
    provenPosition :=
      match cell.provenPosition with
      | some (provenAt, proven) =>
          if provenAt = epoch then some (epoch, max proven position) else some (epoch, position)
      | none => some (epoch, position) }

/-- A lease that may enter the shared cache: it can be reached, and its wall
deadline is the published one. -/
structure CachedNodeLease.Sound (owner : NodeId) (lease : CachedNodeLease) : Prop where
  node : lease.record.node = owner
  addr : lease.record.addr.isEmpty = false
  expiresMs : lease.deadline.expiresMs = lease.record.expiresMs

/-- **One move.**  Every constructor names the cell it moves, and `start` is that
cell as it stood up to what `Cell.Forgets` drops. -/
inductive Move (G : Grants) (v : View) : View → Prop
  | note (effects : List CellEffect) (inert : ∀ effect ∈ effects, effect.inert = true) :
      Move G v (v.emit effects)
  /-- An operation id that the output gate or the node lease takes. -/
  | spend : Move G v v.spend
  /-- Stop a runtime no cell waits for. -/
  | stopUntracked (id : CellId) (epoch : Epoch) :
      Move G v (v.emit [.stopRuntime v.nextOp id epoch .fence false]).spend
  | cacheLease (owner : NodeId) (lease : CachedNodeLease) (sound : lease.Sound owner) :
      Move G v { v with cache := Function.update v.cache owner (some lease) }
  | uncacheLease (owner : NodeId) :
      Move G v { v with cache := Function.update v.cache owner none }
  | touch (id : CellId) (next : Cell) (keeps : (v.cellAt id).Forgets next) :
      Move G v (v.put id next)
  /-- A second preserved path of one cell replaces what the first one began. -/
  | replace (id : CellId) (spec : RestoreSpec) (granted : G.resume id spec) :
      Move G v (v.put id {})
  | park (id : CellId) (start : Cell) (keeps : (v.cellAt id).Forgets start) (phase : Phase)
      (parked : phase.isParked = true) : Move G v (v.put id (start.enter phase))
  | queueCold (id : CellId) (start : Cell) (keeps : (v.cellAt id).Forgets start)
      (cold : ColdStart) (known : cold = .readOwner ∨ ∃ spec, cold = .restore spec ∧
        G.resume id spec) :
      Move G v
        (v.put id { start.enter .waitingActivation with waitingActivation := some cold })
  | queueActivation (id : CellId) (start : Cell) (keeps : (v.cellAt id).Forgets start)
      (activation : Activation) (allowed : G.allows id (v.cellAt id) activation) :
      Move G v (v.put id { start.enter .waitingCapacity with waitingFor := some activation })
  | readOwner (id : CellId) (start : Cell) (keeps : (v.cellAt id).Forgets start) :
      Move G v (v.startOp id (start.enter (.readingOwner v.nextOp)) (.readOwner v.nextOp id))
  | readLease (id : CellId) (start : Cell) (keeps : (v.cellAt id).Forgets start)
      (record : OwnerRecord) (owner : NodeId) (issuedMs : ℕ)
      (granted : G.lease (v.cellAt id).phase record issuedMs)
      (named : record.node = some owner) :
      Move G v
        (v.startOp id (start.enter (.readingNodeLease v.nextOp record issuedMs v.nowMonoMs))
          (.readNodeLease v.nextOp id owner))
  | recoverLog (id : CellId) (start : Cell) (keeps : (v.cellAt id).Forgets start)
      (record : OwnerRecord) (granted : G.recover (v.cellAt id).phase record) :
      Move G v
        (v.startOp id (start.enter (.recoveringOwnerLog v.nextOp record))
          (.recoverNodeLog v.nextOp id (record.node.getD "")))
  | readCapacity (id : CellId) (start : Cell) (keeps : (v.cellAt id).Forgets start)
      (claim : Claim) (allowed : G.allows id (v.cellAt id) (.claim claim)) :
      Move G v
        (v.startOp id (start.enter (.readingCapacity v.nextOp claim v.nowMonoMs))
          (.readCapacityPeers v.nextOp id))
  | issueClaim (id : CellId) (start : Cell) (keeps : (v.cellAt id).Forgets start)
      (spent : start.waitingFor = none) (claim : Claim) (dormant : Bool)
      (allowed : G.allows id (v.cellAt id) (.claim claim)) :
      Move G v
        (v.startOp id (start.enter (.acquiring v.nextOp claim dormant))
          (.casOwner v.nextOp id claim.guard claim.epoch claim.takeover))
  | issueRestore (id : CellId) (start : Cell) (keeps : (v.cellAt id).Forgets start)
      (spec : RestoreSpec)
      (spent : start.waitingFor = none ∨ G.confirm (v.cellAt id).phase spec)
      (allowed : G.allows id (v.cellAt id) (.restore spec)) :
      Move G v
        (v.startOp id (start.enter (.restoring v.nextOp spec)) (.restore v.nextOp id spec))
  | reconcile (id : CellId) (start : Cell) (keeps : (v.cellAt id).Forgets start) (op : OpId)
      (claim : Claim) (dormant : Bool) (phase : (v.cellAt id).phase = .acquiring op claim dormant) :
      Move G v
        (v.startOp id
          (start.enter
            (.reconcilingAcquire v.nextOp
              { claim with reconciles := claim.reconciles + 1 } dormant))
          (.readOwner v.nextOp id))
  | startRuntime (id : CellId) (start : Cell) (keeps : (v.cellAt id).Forgets start)
      (epoch : Epoch) (owned : (v.cellAt id).phase.ownedEpoch = some epoch) :
      Move G v
        (v.startOp id (start.enter (.starting v.nextOp epoch)) (.startRuntime v.nextOp id epoch))
  | publish (id : CellId) (start : Cell) (keeps : (v.cellAt id).Forgets start) (op : OpId)
      (epoch : Epoch) (phase : (v.cellAt id).phase = .starting op epoch) :
      Move G v
        (v.startOp id (start.enter (.publishing v.nextOp epoch)) (.publish v.nextOp id epoch))
  | reside (id : CellId) (start : Cell) (keeps : (v.cellAt id).Forgets start) (op : OpId)
      (epoch : Epoch) (phase : (v.cellAt id).phase = .publishing op epoch) :
      Move G v (v.put id (start.enter (.resident epoch)))
  | rescue (id : CellId) (start : Cell) (keeps : (v.cellAt id).Forgets start) (op : OpId)
      (epoch : Epoch) (phase : (v.cellAt id).phase = .ensuringDurability op epoch) :
      Move G v (v.put id (start.enter (.resident epoch)))
  | prove (id : CellId) (start : Cell) (keeps : (v.cellAt id).Forgets start) (epoch : Epoch)
      (revocable : Bool) (phase : (v.cellAt id).phase = .resident epoch) :
      Move G v
        (v.startOp id (start.enter (.ensuringDurability v.nextOp epoch))
          (.ensureDurable v.nextOp id epoch revocable))
  | stop (id : CellId) (start : Cell) (keeps : (v.cellAt id).Forgets start) (epoch : Epoch)
      (cause : StopCause) (bounded : Bool)
      (running : (v.cellAt id).phase.runtimeEpoch = some epoch) :
      Move G v
        (v.startOp id (start.enter (.cleaning v.nextOp epoch cause))
          (.stopRuntime v.nextOp id epoch cause bounded))
  | release (id : CellId) (start : Cell) (keeps : (v.cellAt id).Forgets start) (epoch : Epoch)
      (phase : (v.cellAt id).phase = .dormant epoch) :
      Move G v
        (v.startOp id { start with releasing := some v.nextOp } (.releaseOwner v.nextOp id epoch))
  | adopt (id : CellId) (start : Cell) (keeps : (v.cellAt id).Forgets start) (epoch : Epoch)
      (rebalance : Bool) (phase : (v.cellAt id).phase = .dormant epoch) :
      Move G v
        (v.startOp id (start.enter (.adopting v.nextOp epoch))
          (.adoptReleased v.nextOp id epoch rebalance))
  | fireAlarm (id : CellId) (next : Cell) (keeps : (v.cellAt id).Forgets next) (epoch : Epoch)
      (atMs : Ms) (phase : (v.cellAt id).phase = .resident epoch) :
      Move G v (v.startOp id next (.fireAlarm v.nextOp id epoch atMs))
  | noteProven (id : CellId) (epoch : Epoch) (position : ℕ)
      (granted : G.proven id epoch position) :
      Move G v (v.put id ((v.cellAt id).noteProven epoch position))

/-- Everything `G` grants, `H` grants. -/
structure Grants.Within (G H : Grants) : Prop where
  claim : ∀ {phase claim}, G.claim phase claim → H.claim phase claim
  confirm : ∀ {phase spec}, G.confirm phase spec → H.confirm phase spec
  lease : ∀ {phase record issuedMs}, G.lease phase record issuedMs → H.lease phase record issuedMs
  recover : ∀ {phase record}, G.recover phase record → H.recover phase record
  resume : ∀ {id spec}, G.resume id spec → H.resume id spec
  proven : ∀ {id epoch position}, G.proven id epoch position → H.proven id epoch position

/-- What `G` grants, if a condition holds. -/
def Grants.when (G : Grants) (holds : Prop) : Grants where
  claim phase claim := holds ∧ G.claim phase claim
  confirm phase spec := holds ∧ G.confirm phase spec
  lease phase record issuedMs := holds ∧ G.lease phase record issuedMs
  recover phase record := holds ∧ G.recover phase record
  resume id spec := holds ∧ G.resume id spec
  proven id epoch position := holds ∧ G.proven id epoch position

theorem Grants.within_when {condition : Prop} (holds : condition) :
    G.Within (G.when condition) where
  claim granted := ⟨holds, granted⟩
  confirm granted := ⟨holds, granted⟩
  lease granted := ⟨holds, granted⟩
  recover granted := ⟨holds, granted⟩
  resume granted := ⟨holds, granted⟩
  proven granted := ⟨holds, granted⟩

theorem Grants.Within.when (within : G.Within H) (condition : Prop) :
    (G.when condition).Within H where
  claim granted := within.claim granted.2
  confirm granted := within.confirm granted.2
  lease granted := within.lease granted.2
  recover granted := within.recover granted.2
  resume granted := within.resume granted.2
  proven granted := within.proven granted.2

theorem Grants.Within.refl (G : Grants) : G.Within G := ⟨id, id, id, id, id, id⟩

theorem Grants.Within.allows (within : G.Within H) {id : CellId} {cell : Cell}
    {activation : Activation} (allowed : G.allows id cell activation) :
    H.allows id cell activation := by
  cases activation with
  | claim => exact allowed.imp_left within.claim
  | restore => exact allowed.imp within.confirm (.imp_right (.imp_right within.resume))

/-- The same view, with effects already raised before it. -/
def View.behind (v : View) (earlier : List CellEffect) : View :=
  { v with effects := earlier ++ v.effects }

theorem View.behind_emit (v : View) (earlier effects : List CellEffect) :
    (v.emit effects).behind earlier = (v.behind earlier).emit effects := by
  simp only [View.behind, View.emit, List.append_assoc]

theorem View.behind_startOp (v : View) (earlier : List CellEffect) (id : CellId) (cell : Cell)
    (effect : CellEffect) :
    (v.startOp id cell effect).behind earlier = (v.behind earlier).startOp id cell effect := by
  simp only [View.startOp, View.behind, View.emit, View.put, View.spend, List.append_assoc]

/-- A move does not look at the effects raised before it, and more grants do not hinder it. -/
theorem Move.behind (within : G.Within H) {v w : View} (move : Move G v w)
    (earlier : List CellEffect) : Move H (v.behind earlier) (w.behind earlier) := by
  let u : View := v.behind earlier
  have started : ∀ {id : CellId} {cell : Cell} {effect : CellEffect},
      Move H u (u.startOp id cell effect) → Move H u ((v.startOp id cell effect).behind earlier) :=
    fun move => by rwa [View.behind_startOp]
  cases move with
  | note effects inert => rw [View.behind_emit]; exact .note effects inert
  | spend => exact .spend
  | stopUntracked id epoch =>
    have same : (v.emit [.stopRuntime v.nextOp id epoch .fence false]).spend.behind earlier
        = ((v.behind earlier).emit [.stopRuntime v.nextOp id epoch .fence false]).spend := by
      simp only [View.behind, View.emit, View.spend, List.append_assoc]
    rw [same]
    exact .stopUntracked id epoch
  | cacheLease owner lease sound => exact .cacheLease owner lease sound
  | uncacheLease owner => exact .uncacheLease owner
  | touch id next keeps => exact .touch id next keeps
  | replace id spec granted => exact .replace id spec (within.resume granted)
  | park id start keeps phase parked => exact .park (v := u) id start keeps phase parked
  | queueCold id start keeps cold known =>
    exact .queueCold (v := u) id start keeps cold
      (known.imp_right fun ⟨spec, eq, granted⟩ => ⟨spec, eq, within.resume granted⟩)
  | queueActivation id start keeps activation allowed =>
    exact .queueActivation (v := u) id start keeps activation (within.allows allowed)
  | readOwner id start keeps => exact started (.readOwner id start keeps)
  | readLease id start keeps record owner issuedMs granted named =>
    exact started (.readLease (v := u) id start keeps record owner issuedMs
      (within.lease granted) named)
  | recoverLog id start keeps record granted =>
    exact started (.recoverLog (v := u) id start keeps record (within.recover granted))
  | readCapacity id start keeps claim allowed =>
    exact started (.readCapacity (v := u) id start keeps claim (within.allows allowed))
  | issueClaim id start keeps spent claim dormant allowed =>
    exact started (.issueClaim (v := u) id start keeps spent claim dormant
      (within.allows allowed))
  | issueRestore id start keeps spec spent allowed =>
    exact started (.issueRestore (v := u) id start keeps spec
      (spent.imp_right within.confirm) (within.allows allowed))
  | reconcile id start keeps op claim dormant phase =>
    exact started (.reconcile (v := u) id start keeps op claim dormant phase)
  | startRuntime id start keeps epoch owned =>
    exact started (.startRuntime (v := u) id start keeps epoch owned)
  | publish id start keeps op epoch phase =>
    exact started (.publish (v := u) id start keeps op epoch phase)
  | reside id start keeps op epoch phase => exact .reside (v := u) id start keeps op epoch phase
  | rescue id start keeps op epoch phase => exact .rescue (v := u) id start keeps op epoch phase
  | prove id start keeps epoch revocable phase =>
    exact started (.prove (v := u) id start keeps epoch revocable phase)
  | stop id start keeps epoch cause bounded running =>
    exact started (.stop (v := u) id start keeps epoch cause bounded running)
  | release id start keeps epoch phase =>
    exact started (.release (v := u) id start keeps epoch phase)
  | adopt id start keeps epoch rebalance phase =>
    exact started (.adopt (v := u) id start keeps epoch rebalance phase)
  | fireAlarm id next keeps epoch atMs phase =>
    exact started (.fireAlarm (v := u) id next keeps epoch atMs phase)
  | noteProven id epoch position granted =>
    exact .noteProven (v := u) id epoch position (within.proven granted)

/-- A chain of moves. -/
abbrev Moves (G : Grants) : View → View → Prop := Trail (Move G)

namespace Moves

variable {G : Grants} {u v w : View}

theorem behind (within : G.Within H) (moves : Moves G u v)
    (earlier : List CellEffect) : Moves H (u.behind earlier) (v.behind earlier) := by
  induction moves with
  | refl => exact .refl _
  | tail _ move ih => exact ih.trans (.single (move.behind within earlier))

theorem mono (within : G.Within H) (moves : Moves G u v) : Moves H u v :=
  moves.behind within []

end Moves

end Celld
