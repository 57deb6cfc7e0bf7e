import Celld.Ownership.Acquisition

/-!
# One writer per epoch

Any number of nodes run the core against one ownership record per cell.  The record
changes by conditional writes and releases only; reads and writes take effect one at a
time, in any order, and the node is told of them later or never.  Everything else a node
can be told is free.

What nodes confirm is then ordered by the record.  A claim is for the version its guard
names, one epoch up, so a write that applies raises the epoch above all that was written
before it, and what a node confirms was written by that node.  The order of confirmation
is another matter: a node may be told of its write after another node has taken the cell
over and been told of that (`lateApplied`).
-/

namespace Celld

open Function List State

variable {epoch : Epoch} {id : CellId} {record : OwnerRecord}

/-- The guard of a conditional write holds against the current record. -/
def CasGuard.admits : CasGuard → Option OwnerRecord → Bool
  | .absent, none => true
  | .match etag, some record => record.etag = etag
  | _, _ => false

/-- The nodes, the ownership records, and what is under way between them. -/
structure World (χ : Type) where
  nodes : NodeId → State χ
  /-- The record a cell had at the start. -/
  initial : CellId → Option OwnerRecord
  /-- What has been written over it, newest first. -/
  writes : CellId → List OwnerRecord := fun _ => []
  /-- The effects on cells that a node has raised. -/
  asked : NodeId → List CellEffect := fun _ => []
  /-- What reads of the record have returned. -/
  reads : List (NodeId × OpId × Option OwnerRecord) := []
  /-- How conditional writes have ended. -/
  outcomes : List (NodeId × OpId × CasOutcome) := []
  /-- The acquisitions that nodes have confirmed, oldest first. -/
  confirmed : List (NodeId × CellId × Epoch) := []

/-- The record that an event says a read returned. -/
def Event.foundOwner? {χ : Type} : Event χ → Option (OpId × Option OwnerRecord)
  | .ownerRead op _ (.ok found) => some (op, found)
  | _ => none

/-- The outcome that an event says a conditional write had. -/
def Event.casOutcome? {χ : Type} : Event χ → Option (OpId × CasOutcome)
  | .ownerCasCompleted op (.ok outcome) => some (op, outcome)
  | _ => none

/-- What can happen next. -/
inductive Action (χ : Type)
  /-- A node is told an event. -/
  | deliver (node : NodeId) (event : Event χ)
  /-- A requested read takes effect. -/
  | read (node : NodeId) (op : OpId) (cell : CellId)
  /-- A requested conditional write takes effect; `etag` names the version it writes. -/
  | cas (node : NodeId) (op : OpId) (cell : CellId) (guard : CasGuard) (epoch : Epoch)
      (takeover : Bool) (etag : String)
  /-- A requested release takes effect. -/
  | release (node : NodeId) (op : OpId) (cell : CellId) (epoch : Epoch) (etag : String)

namespace World

variable {χ : Type} (w : World χ)

/-- All versions of a record, newest first. -/
def history (id : CellId) : List OwnerRecord :=
  w.writes id ++ (w.initial id).toList

def current (id : CellId) : Option OwnerRecord := (w.history id).head?

def write (id : CellId) (record : OwnerRecord) : World χ :=
  { w with writes := update w.writes id (record :: w.writes id) }

/-- No version of the record has the tag. -/
def Fresh (id : CellId) (etag : String) : Prop :=
  etag ∉ (w.history id).map (·.etag)

instance (w : World χ) (id : CellId) (etag : String) : Decidable (w.Fresh id etag) :=
  inferInstanceAs (Decidable (¬ _))

/-- Answers of the ownership store are true: a node is told what a read of its own
returned, and that a write applied or was rejected only if it was.  An answer may be
lost, and a failed or ambiguous one is always possible. -/
def Answered (node : NodeId) (event : Event χ) : Prop :=
  (∀ answer ∈ event.foundOwner?, (node, answer) ∈ w.reads) ∧
    ∀ answer ∈ event.casOutcome?, (node, answer) ∈ w.outcomes

instance (w : World χ) (node : NodeId) (event : Event χ) : Decidable (w.Answered node event) :=
  inferInstanceAs (Decidable (_ ∧ _))

/-- A node handles an event. -/
def deliver (node : NodeId) (event : Event χ) : World χ :=
  let p := onEvent (w.nodes node) event
  { w with
    nodes := update w.nodes node p.1
    asked := update w.asked node (w.asked node ++ p.2.filterMap Effect.cell?)
    confirmed := w.confirmed ++ ((w.nodes node).confirmation? event).toList.map (Prod.mk node) }

/-- A conditional write takes effect once. -/
def Undecided (node : NodeId) (op : OpId) : Prop :=
  (node, op) ∉ w.outcomes.map fun outcome => (outcome.1, outcome.2.1)

instance (w : World χ) (node : NodeId) (op : OpId) : Decidable (w.Undecided node op) :=
  inferInstanceAs (Decidable (¬ _))

def conclude (node : NodeId) (op : OpId) (outcome : CasOutcome) : World χ :=
  { w with outcomes := (node, op, outcome) :: w.outcomes }

/-- The record names the node as owner at the epoch. -/
def Owns (node : NodeId) (id : CellId) (epoch : Epoch) : Prop :=
  ∃ record ∈ w.current id, record.node = some node ∧ record.epoch = epoch

instance (w : World χ) (node : NodeId) (id : CellId) (epoch : Epoch) :
    Decidable (w.Owns node id epoch) :=
  inferInstanceAs (Decidable (∃ record ∈ w.current id, record.node = some node ∧
    record.epoch = epoch))

def step : Action χ → Option (World χ)
  | .deliver node event => if w.Answered node event then some (w.deliver node event) else none
  | .read node op id =>
      if .readOwner op id ∈ w.asked node then
        some { w with reads := (node, op, w.current id) :: w.reads }
      else none
  | .cas node op id guard epoch takeover etag =>
      if .casOwner op id guard epoch takeover ∈ w.asked node ∧ w.Undecided node op ∧
          w.Fresh id etag then
        if guard.admits (w.current id) then
          some ((w.write id ⟨some node, epoch, etag⟩).conclude node op .applied)
        else some (w.conclude node op .rejected)
      else none
  | .release node op id epoch etag =>
      if .releaseOwner op id epoch ∈ w.asked node ∧ w.Fresh id etag then
        if w.Owns node id epoch then some (w.write id ⟨none, epoch, etag⟩) else some w
      else none

/-- Every node as its process begins, against records from before. -/
def start (config : NodeId → Config) (initial : CellId → Option OwnerRecord) : World χ where
  nodes node := new node (config node)
  initial := initial

def run (actions : List (Action χ)) : Option (World χ) := actions.foldlM step w

/-- **The invariant rule for worlds.** -/
theorem run_invariant {P : World χ → Prop}
    (kept : ∀ w action next, step w action = some next → P w → P next) {w last : World χ}
    {actions : List (Action χ)} (holds : P w) (ran : w.run actions = some last) : P last := by
  induction actions generalizing w with
  | nil =>
    cases ran
    exact holds
  | cons action actions ih =>
    obtain ⟨next, stepped, rest⟩ := Option.bind_eq_some_iff.mp ran
    exact ih (kept w action next stepped holds) rest

/-- The epochs of a cell that a node has confirmed, oldest first. -/
def epochs (node : NodeId) (id : CellId) : List Epoch :=
  w.confirmed.filterMap fun entry =>
    if entry.1 = node ∧ entry.2.1 = id then some entry.2.2 else none

theorem mem_epochs {w : World χ} {node : NodeId} :
    epoch ∈ w.epochs node id ↔ (node, id, epoch) ∈ w.confirmed := by
  simp only [epochs, mem_filterMap]
  constructor
  · rintro ⟨⟨_, _⟩, mem, eq⟩
    split at eq
    · rename_i same
      obtain ⟨rfl, rfl⟩ := same
      cases eq
      exact mem
    · cases eq
  · intro mem
    exact ⟨_, mem, if_pos ⟨rfl, rfl⟩⟩

/-! ## What the record says -/

/-- The versions of a record, newest first: epochs grow, except that a release leaves
the epoch as it was. -/
structure Ordered (w : World χ) (id : CellId) : Prop where
  epochs : (w.history id).Pairwise fun newer older =>
    older.epoch < newer.epoch ∨ older.epoch = newer.epoch ∧ newer.node = none
  etags : ((w.history id).map (·.etag)).Nodup

/-- A claim on the record is for a version the record has had, one epoch up. -/
def Claimable (id : CellId) : CasGuard → Epoch → Prop
  | .absent, epoch => w.initial id = none ∧ epoch = 1
  | .match etag, epoch => ∃ record ∈ w.history id, record.etag = etag ∧ epoch = record.epoch + 1

namespace Ordered

variable {w : World χ} {id : CellId}

theorem epoch_le_current (ordered : w.Ordered id) {newest : OwnerRecord}
    (mem : record ∈ w.history id) (head : w.current id = some newest) :
    record.epoch ≤ newest.epoch := by
  obtain ⟨_, eq⟩ := head?_eq_some_iff.mp head
  have order := ordered.epochs
  rw [eq] at mem order
  rcases mem_cons.mp mem with rfl | older
  · exact le_rfl
  · rcases (pairwise_cons.mp order).1 record older with less | ⟨same, _⟩
    · exact less.le
    · exact same.le

/-- Of all versions, one tag names one. -/
theorem eq_of_etag (ordered : w.Ordered id) {one other : OwnerRecord} (first : one ∈ w.history id)
    (second : other ∈ w.history id) (same : one.etag = other.etag) : one = other :=
  inj_on_of_nodup_map ordered.etags first second same

/-- Of the versions that name an owner, one epoch has one. -/
theorem eq_of_epoch (ordered : w.Ordered id) {one other : OwnerRecord}
    (first : one ∈ w.history id) (second : other ∈ w.history id) (same : one.epoch = other.epoch)
    (owned : one.node ≠ none) (owned' : other.node ≠ none) : one = other := by
  let Apart (a b : OwnerRecord) : Prop := a.epoch = b.epoch → a.node = none ∨ b.node = none
  have symm : Std.Symm Apart := ⟨fun a b apart eq => (apart eq.symm).symm⟩
  have apart : (w.history id).Pairwise Apart := by
    refine ordered.epochs.imp ?_
    rintro _ _ (less | ⟨_, released⟩) eq
    · exact absurd eq less.ne'
    · exact .inl released
  by_contra differ
  rcases apart.forall first second differ same with none | none
  · exact owned none
  · exact owned' none

/-- A claim whose guard holds is for the epoch after all that were. -/
theorem claim_newest (ordered : w.Ordered id) {guard : CasGuard}
    (claimable : w.Claimable id guard epoch) (admitted : guard.admits (w.current id) = true) :
    ∀ record ∈ w.history id, record.epoch < epoch := by
  intro record mem
  cases head : w.current id with
  | none =>
    rw [head?_eq_none_iff.mp head] at mem
    cases mem
  | some newest =>
    rw [head] at admitted
    cases guard with
    | absent => cases admitted
    | «match» etag =>
      obtain ⟨claimed, had, tag, rfl⟩ := claimable
      have tagged : newest.etag = etag := of_decide_eq_true admitted
      have same : claimed = newest :=
        ordered.eq_of_etag had (mem_of_head? head) (tag.trans tagged.symm)
      rw [same]
      exact Nat.lt_succ_of_le (ordered.epoch_le_current mem head)

end Ordered

theorem history_write (key id : CellId) (record : OwnerRecord) :
    (id = key ∧ (w.write key record).history id = record :: w.history id) ∨
      (w.write key record).history id = w.history id := by
  by_cases eq : id = key
  · subst eq
    refine .inl ⟨rfl, ?_⟩
    simp only [history, write, update_self, cons_append]
  · refine .inr ?_
    simp only [history, write, update_of_ne eq]

theorem Ordered.write {w : World χ} {key : CellId} (ordered : w.Ordered id)
    (fresh : w.Fresh key record.etag) (newer : ∀ older ∈ w.history key, older.epoch < record.epoch ∨
      older.epoch = record.epoch ∧ record.node = none) : (w.write key record).Ordered id := by
  rcases w.history_write key id record with ⟨rfl, eq⟩ | eq
  · refine ⟨?_, ?_⟩
    · rw [eq, pairwise_cons]
      exact ⟨newer, ordered.epochs⟩
    · rw [eq, map_cons, nodup_cons]
      exact ⟨fresh, ordered.etags⟩
  · exact ⟨by rw [eq]; exact ordered.epochs, by rw [eq]; exact ordered.etags⟩

/-- A release leaves the epoch of the newest version, and that one names an owner. -/
theorem Ordered.below_release {w : World χ} {node : NodeId} (ordered : w.Ordered id)
    (owns : w.Owns node id epoch) :
    ∀ older ∈ w.history id, older.epoch < epoch ∨ older.epoch = epoch ∧
      none = (none : Option NodeId) := by
  intro older mem
  obtain ⟨_, head, named, rfl⟩ := owns
  obtain ⟨_, eq⟩ := head?_eq_some_iff.mp head
  have order := ordered.epochs
  rw [eq] at mem order
  rcases mem_cons.mp mem with rfl | before
  · exact .inr ⟨rfl, rfl⟩
  · rcases (pairwise_cons.mp order).1 older before with less | ⟨_, released⟩
    · exact .inl less
    · rw [named] at released
      cases released

end World

/-! ## A process and what it has asked for -/

section Process

variable {χ : Type} {s : State χ} {asked : List CellEffect} {event : Event χ}

theorem State.view_behind (s : State χ) (effects : List (Effect χ)) (asked : List CellEffect) :
    (s.view effects).behind asked
      = (s.view []).behind (asked ++ effects.filterMap Effect.cell?) := by
  simp only [view, gate, Turn.gate, Turn.core, CoreTurn.view, View.behind,
    filterMap_nil, append_nil]

/-- The process has asked for all that its cells wait for, each under an id of its own. -/
structure Orderly (s : State χ) (asked : List CellEffect) : Prop where
  cache : (s.view []).CacheSound
  below : (s.view []).OpsBelow
  unique : (s.view []).OpsUnique
  idle : ∀ id, ((s.view []).cellAt id).Idle
  requested : ((s.view []).behind asked).Requested
  asks : ∀ id effect, ((s.view []).cellAt id).phase.request id = some effect → effect ∈ asked

theorem Orderly.new (node : NodeId) (config : Config) :
    Orderly (State.new node config : State χ) [] := by
  have start : ∀ id, (((State.new node config : State χ).view []).cellAt id) = {} := by
    intro id
    simp [State.view, State.gate, Turn.gate, Turn.core, CoreTurn.view, State.new]
  have waits : ∀ id, (((State.new node config : State χ).view []).cellAt id).phase.op? = none := by
    intro id
    rw [start]
    rfl
  refine ⟨run_cacheSound node config [], ?_, ?_, ?_, ⟨.nil, fun _ mem => by cases mem⟩, ?_⟩
  · intro id op asks
    rw [waits] at asks
    cases asks
  · intro _ _ op asks
    rw [waits] at asks
    cases asks
  · intro id op _ _ _
    rw [start]
  · intro id _ asks
    rw [start] at asks
    cases asks

namespace Orderly

theorem onEvent (orderly : Orderly s asked) (event : Event χ) :
    Orderly (onEvent s event).1 (asked ++ (onEvent s event).2.filterMap Effect.cell?) := by
  have moves := onEvent_moves event orderly.cache
  have later := moves.behind (.refl _) asked
  rw [view_behind (Celld.onEvent s event).1] at later
  have cache : ((Celld.onEvent s event).1.view (Celld.onEvent s event).2).CacheSound :=
    moves.invariant (fun _ _ move => move.cacheSound) orderly.cache
  have start : ((s.foldClocks event).view []).behind asked
      = { (s.view []).behind asked with
          nowMs := (s.foldClocks event).nowMs, nowMonoMs := (s.foldClocks event).nowMonoMs } := rfl
  have requested : (((s.foldClocks event).view []).behind asked).Requested := by
    rw [start]
    exact ⟨orderly.requested.increasing, orderly.requested.below⟩
  refine ⟨cache, moves.opsBelow orderly.below, moves.opsUnique orderly.below orderly.unique,
    moves.idle orderly.idle, later.requested requested, ?_⟩
  intro id effect asks
  rcases later.asked asks with same | raised
  · refine mem_append_left _ (orderly.asks id effect ?_)
    exact same ▸ asks
  · rw [View.behind] at raised
    simpa [view, gate, Turn.gate, Turn.core, CoreTurn.view] using raised

theorem run (orderly : Orderly s asked) (events : List (Event χ)) :
    Orderly (runFrom s events) (asked ++ (effectsFrom s events).filterMap Effect.cell?) := by
  induction events generalizing s asked with
  | nil => exact (append_nil asked).symm ▸ orderly
  | cons event events ih =>
      have rest := ih (orderly.onEvent event)
      rw [append_assoc, ← filterMap_append] at rest
      exact rest

/-- Two requests under one id are one. -/
theorem same_request (orderly : Orderly s asked) {one other : CellEffect} {op : OpId}
    (first : one ∈ asked) (second : other ∈ asked) (opens : one.op? = some op)
    (opens' : other.op? = some op) : one = other :=
  orderly.requested.unique (mem_append_left _ first) (mem_append_left _ second) opens
    opens'

theorem asked_below (orderly : Orderly s asked) {effect : CellEffect} {op : OpId}
    (mem : effect ∈ asked) (opens : effect.op? = some op) : op < s.nextOp :=
  orderly.requested.below op
    (mem_filterMap.mpr ⟨effect, mem_append_left _ mem, opens⟩)

end Orderly

/-- **No answer finds the wrong cell.**  Over a whole run operations have increasing ids, no two
cells wait for one of them, and what a cell waits for on its way to ownership was asked for it. -/
theorem operations_tracked (node : NodeId) (config : Config) (events : List (Event χ)) :
    let asked := (effectsFrom (new node config) events).filterMap Effect.cell?
    let v := (run node config events).view []
    (opsOf asked).Pairwise (· < ·) ∧ v.OpsBelow ∧ v.OpsUnique ∧
      ∀ id effect, (v.cellAt id).phase.request id = some effect → effect ∈ asked := by
  have orderly := (Orderly.new (χ := χ) node config).run events
  refine ⟨?_, orderly.below, orderly.unique, orderly.asks⟩
  have increasing : (opsOf (_ ++ [])).Pairwise (· < ·) := orderly.requested.increasing
  rwa [append_nil] at increasing

/-- The cell is done with its acquisition: it claims nothing and waits for no answer
from before operation `bound`. -/
structure Cell.Done (cell : Cell) (bound : OpId) : Prop where
  holds : ∀ guard epoch, ¬ cell.Holds guard epoch
  lease : ∀ op record issuedMs issuedMonoMs,
    cell.phase ≠ .readingNodeLease op record issuedMs issuedMonoMs
  recovery : ∀ op record, cell.phase ≠ .recoveringOwnerLog op record
  owner : ∀ op, cell.phase.WaitsOwner op → bound ≤ op

theorem Cell.Settled.phase_ne {cell : Cell} (settled : cell.Settled) :
    (∀ op record issuedMs issuedMonoMs,
      cell.phase ≠ .readingNodeLease op record issuedMs issuedMonoMs) ∧
    (∀ op record, cell.phase ≠ .recoveringOwnerLog op record) ∧
      ∀ op, ¬ cell.phase.WaitsOwner op := by
  rcases settled.phase with ⟨_, eq⟩ | eq | ⟨op, _, eq⟩
  all_goals
    rw [eq]
    refine ⟨by simp, by simp, ?_⟩
    rintro op (waits | ⟨_, _, waits⟩) <;> cases waits

/-- **After its confirmation a cell is done.** -/
theorem Orderly.done (orderly : Orderly s asked) (confirms : Confirms s id epoch event) :
    (((Celld.onEvent s event).1.view []).cellAt id).Done s.nextOp := by
  obtain ⟨mid, settled, later, moves⟩ := onEvent_settles confirms orderly.idle
  have old : Grants.none.Old mid.nextOp := Grants.none_old _
  refine ⟨?_, ?_, ?_, ?_⟩
  · intro guard epoch holds
    rcases moves.holds old holds with before | ⟨_, granted, _⟩
    · exact settled.not_holds guard epoch before
    · exact granted
  · intro op record issuedMs issuedMonoMs phase
    rcases moves.leasePhase old phase with same | granted
    · exact settled.phase_ne.1 op record issuedMs issuedMonoMs (same ▸ phase)
    · exact granted
  · intro op record phase
    rcases moves.recoverPhase old phase with same | granted
    · exact settled.phase_ne.2.1 op record (same ▸ phase)
    · exact granted
  · intro op waits
    by_contra earlier
    have same := moves.old waits.op? ((not_le.mp earlier).trans_le later)
    exact settled.phase_ne.2.2 op (same ▸ waits)

end Process

/-! ## What a node knows of the record -/

namespace World

variable {χ : Type}

/-- What a read may have returned to a cell: a version no older than what the node has
confirmed, or nothing if it never confirmed anything. -/
structure Seen (w : World χ) (id : CellId) (owned : List Epoch) (found : Option OwnerRecord) :
    Prop where
  record : ∀ record, found = some record →
    record ∈ w.history id ∧ ∀ epoch ∈ owned, epoch ≤ record.epoch
  absent : found = none → w.initial id = none ∧ owned = []

/-- The cell may be claimed at the epoch, which is past what the node has confirmed. -/
def MayClaim (w : World χ) (id : CellId) (owned : List Epoch) (guard : CasGuard) (epoch : Epoch) :
    Prop :=
  w.Claimable id guard epoch ∧ ∀ earlier ∈ owned, earlier < epoch

/-- The record was written by the node at the epoch. -/
def Wrote (w : World χ) (node : NodeId) (id : CellId) (epoch : Epoch) : Prop :=
  ∃ record ∈ w.writes id, record.node = some node ∧ record.epoch = epoch

/-- **What a node knows.**  `owned` are the epochs it has confirmed, cell by cell. -/
structure Knows (w : World χ) (node : NodeId) (s : State χ) (asked : List CellEffect)
    (owned : CellId → List Epoch) : Prop where
  name : s.node = node
  orderly : Orderly s asked
  claims : ∀ id guard epoch, ((s.view []).cellAt id).Holds guard epoch →
    w.MayClaim id (owned id) guard epoch
  raised : ∀ op id guard epoch takeover, .casOwner op id guard epoch takeover ∈ asked →
    w.Claimable id guard epoch
  leases : ∀ id op record issuedMs issuedMonoMs,
    ((s.view []).cellAt id).phase = .readingNodeLease op record issuedMs issuedMonoMs →
    w.Seen id (owned id) (some record)
  recoveries : ∀ id op record, ((s.view []).cellAt id).phase = .recoveringOwnerLog op record →
    w.Seen id (owned id) (some record)
  reads : ∀ op found, (node, op, found) ∈ w.reads → ∃ id, .readOwner op id ∈ asked
  answers : ∀ id op found, (node, op, found) ∈ w.reads →
    ((s.view []).cellAt id).phase.WaitsOwner op → w.Seen id (owned id) found
  applied : ∀ op, (node, op, .applied) ∈ w.outcomes → ∃ id guard epoch takeover,
    .casOwner op id guard epoch takeover ∈ asked ∧ w.Wrote node id epoch
  increasing : ∀ id, (owned id).Pairwise (· < ·)
  wrote : ∀ id, ∀ epoch ∈ owned id, w.Wrote node id epoch
  tokens : ∀ id, Tokens Grants.none (· ∈ owned id) id ((s.view []).behind asked)

theorem Seen.mayClaim {w : World χ} {owned : List Epoch} (seen : w.Seen id owned (some record)) :
    w.MayClaim id owned (.match record.etag) (record.epoch + 1) := by
  obtain ⟨had, newest⟩ := seen.record record rfl
  exact ⟨⟨record, had, rfl, rfl⟩, fun epoch mem => Nat.lt_succ_of_le (newest epoch mem)⟩

/-- The epochs of a cell that an event confirms: none, or one. -/
def newlyOwned (s : State χ) (event : Event χ) (id : CellId) : List Epoch :=
  (s.confirmation? event).toList.filterMap fun entry => if entry.1 = id then some entry.2 else none

theorem newlyOwned_cases (s : State χ) (event : Event χ) (id : CellId) :
    newlyOwned s event id = [] ∨
      ∃ epoch, s.confirmation? event = some (id, epoch) ∧ newlyOwned s event id = [epoch] := by
  unfold newlyOwned
  cases confirmed : s.confirmation? event with
  | none => exact .inl rfl
  | some entry =>
    obtain ⟨key, epoch⟩ := entry
    by_cases same : key = id
    · subst same
      refine .inr ⟨epoch, rfl, ?_⟩
      simp
    · refine .inl ?_
      simp [same]

namespace Knows

variable {w : World χ} {node : NodeId} {s : State χ} {asked : List CellEffect}
  {owned : CellId → List Epoch} {event : Event χ} {id : CellId}

/-- What an event lets a cell claim. -/
theorem granted (knows : w.Knows node s asked owned) (answered : w.Answered node event)
    {guard : CasGuard}
    (granted : (event.grants s).GrantsClaim ((s.view []).cellAt id).phase guard epoch) :
    w.MayClaim id (owned id) guard epoch := by
  obtain ⟨_, granted, rfl, rfl⟩ := granted
  cases event with
  | ownerRead op =>
    obtain ⟨_, waits, found, rfl, allowed⟩ := granted
    have seen : w.Seen id (owned id) found :=
      knows.answers id op found (answered.1 _ rfl) waits
    cases allowed with
    | absent =>
      obtain ⟨none, nothing⟩ := seen.absent rfl
      refine ⟨⟨none, rfl⟩, ?_⟩
      rw [nothing]
      rintro _ ⟨⟩
    | own => exact seen.mayClaim
    | released => exact seen.mayClaim
  | nodeLeaseRead op =>
    obtain ⟨_, record, issuedMs, issuedMonoMs, _, phase, rfl, _, _, rfl⟩ := granted
    exact (knows.leases id op record issuedMs issuedMonoMs phase).mayClaim
  | nodeLogRecovered op =>
    obtain ⟨_, rfl, record, phase, rfl⟩ := granted
    exact (knows.recoveries id op record phase).mayClaim
  | ownerCasCompleted => exact granted.2.elim
  | _ => exact granted.elim

/-- What an acquisition rests on: the claim of the cell, and a write of the node. -/
theorem confirms (knows : w.Knows node s asked owned) (ordered : w.Ordered id)
    (answered : w.Answered node event) (confirms : Confirms s id epoch event) :
    (∀ earlier ∈ owned id, earlier < epoch) ∧ w.Wrote node id epoch := by
  cases confirms with
  | applied op cell claim dormant indexed found phase same =>
    subst same
    have here : (s.view []).cellAt id = cell := view_cellAt found
    have claims : ((s.view []).cellAt id).Holds claim.guard claim.epoch := by
      rw [here]
      exact ⟨claim, rfl, rfl, .inr ⟨op, dormant, .inl phase⟩⟩
    refine ⟨(knows.claims id _ _ claims).2, ?_⟩
    -- The write that applied is the one the cell waits for.
    obtain ⟨_, guard, epoch, takeover, requested, wrote⟩ :=
      knows.applied op (answered.2 (op, .applied) rfl)
    have asks : .casOwner op id claim.guard claim.epoch claim.takeover ∈ asked := by
      refine knows.orderly.asks id _ ?_
      rw [here, phase]
      rfl
    cases knows.orderly.same_request requested asks rfl rfl
    exact wrote
  | reconciled op cell claim dormant nowMs record indexed found phase own written same =>
    subst same
    have here : (s.view []).cellAt id = cell := view_cellAt found
    have claims : ((s.view []).cellAt id).Holds claim.guard claim.epoch := by
      rw [here]
      exact ⟨claim, rfl, rfl, .inr ⟨op, dormant, .inr phase⟩⟩
    obtain ⟨claimable, newest⟩ := knows.claims id _ _ claims
    refine ⟨newest, ?_⟩
    have waits : ((s.view []).cellAt id).phase.WaitsOwner op := by
      rw [here]
      exact .inr ⟨claim, dormant, phase⟩
    have seen := knows.answers id op (some record) (answered.1 _ rfl) waits
    rw [knows.name] at own
    rcases mem_append.mp (seen.record record rfl).1 with mem | first
    · exact ⟨record, mem, own, written⟩
    · -- The first version is older than any a claim can be for.
      exfalso
      have first : w.initial id = some record := by simpa using first
      cases guard : claim.guard with
      | absent =>
        rw [guard] at claimable
        rw [claimable.1] at first
        cases first
      | «match» etag =>
        rw [guard] at claimable
        obtain ⟨claimed, had, _, next⟩ := claimable
        have older : record.epoch ≤ claimed.epoch := by
          have order := ordered.epochs
          rw [history, first] at had order
          rcases mem_append.mp had with later | same
          · rcases (pairwise_append.mp order).2.2 claimed later record
              (mem_singleton_self _) with less | ⟨same, _⟩
            · exact less.le
            · exact same.le
          · exact (congrArg (·.epoch) (mem_singleton.mp same)).ge
        rw [written.trans next] at older
        exact Nat.not_succ_le_self _ older

/-- What an event confirms for a cell is its confirmation. -/
theorem confirmation (knows : w.Knows node s asked owned) {spec : RestoreSpec}
    (confirmed : (event.grants s).confirm ((s.view []).cellAt id).phase spec) :
    s.confirmation? event = some (id, spec.epoch) := by
  have only : ∀ {op key cell}, s.cells[key]? = some cell → cell.phase.op? = some op →
      ((s.view []).cellAt id).phase.op? = some op → key = id := by
    intro op key cell found waits here
    refine knows.orderly.unique key id op ?_ here
    rw [view_cellAt found]
    exact waits
  cases event with
  | ownerRead =>
    obtain ⟨⟨key, cell, indexed, found, waits⟩, claim, dormant, _, phase, rfl, own, written,
      rfl⟩ := confirmed
    obtain rfl : key = id := only found waits (by rw [phase]; rfl)
    rw [view_cellAt found] at phase
    simp [confirmation?, indexed, found, phase, own, written, CoreTurn.confirmedSpec]
  | ownerCasCompleted =>
    obtain ⟨⟨key, cell, indexed, found, waits⟩, rfl, claim, dormant, phase, rfl⟩ := confirmed
    obtain rfl : key = id := only found waits (by rw [phase]; rfl)
    rw [view_cellAt found] at phase
    simp [confirmation?, indexed, found, phase, CoreTurn.confirmedSpec]
  | nodeLeaseRead => exact confirmed.2.elim
  | nodeLogRecovered => exact confirmed.2.elim
  | _ => exact confirmed.elim

/-- A node resumes only preserved local epochs without an acquisition. -/
theorem resumes (event : Event χ) (s : State χ) (id : CellId) (spec : RestoreSpec)
    (resumed : (event.grants s).resume id spec) : spec.resumeLocal = true := by
  cases event with
  | localCellsRead =>
    obtain ⟨_, _, _, _, _, rfl⟩ := resumed
    rfl
  | ownerRead => exact resumed.2.elim
  | nodeLeaseRead => exact resumed.2.elim
  | nodeLogRecovered => exact resumed.2.elim
  | ownerCasCompleted => exact resumed.2.elim
  | _ => exact resumed.elim

/-- The restores of a cell, with what the event confirms. -/
theorem tokens_event (knows : w.Knows node s asked owned) (ordered : w.Ordered id)
    (answered : w.Answered node event) :
    Tokens (event.grants s) (· ∈ owned id ++ newlyOwned s event id) id
      (((s.foldClocks event).view []).behind asked) := by
  have tokens := knows.tokens id
  refine ⟨tokens.nodup, fun epoch mem => mem_append_left _ (tokens.restored epoch mem), ?_,
    tokens.cold, ?_⟩
  · intro spec waits acquired
    obtain ⟨own, unpaid⟩ := tokens.waiting spec waits acquired
    exact ⟨mem_append_left _ own, unpaid⟩
  · intro spec granted
    have confirmed := knows.confirmation granted
    have newest := (knows.confirms ordered answered (confirms_of_confirmation confirmed)).1
    refine ⟨?_, ?_, ?_⟩
    · rcases newlyOwned_cases s event id with none | ⟨epoch, same, eq⟩
      · simp [newlyOwned, confirmed] at none
      · rw [confirmed] at same
        cases same
        rw [eq]
        exact mem_append_right _ (mem_singleton_self _)
    · intro restored
      exact lt_irrefl _ (newest _ (tokens.restored _ restored))
    · intro other waits acquired same
      have own := (tokens.waiting other waits acquired).1
      exact absurd (newest _ own) (by rw [same]; exact lt_irrefl _)

/-- **A node that is told an event still knows what it should.** -/
theorem deliver (knows : w.Knows node s asked owned) (ordered : ∀ id, w.Ordered id)
    (answered : w.Answered node event) :
    w.Knows node (onEvent s event).1 (asked ++ (onEvent s event).2.filterMap Effect.cell?)
      fun id => owned id ++ newlyOwned s event id := by
  have moves := onEvent_moves event knows.orderly.cache
  have old : (event.grants s).Old s.nextOp := event.grants_old knows.orderly.below
  -- The event confirms nothing for a cell, or the cell is done.
  have each : ∀ id, owned id ++ newlyOwned s event id = owned id ∨
      (((onEvent s event).1.view []).cellAt id).Done s.nextOp := by
    intro id
    rcases newlyOwned_cases s event id with none | ⟨epoch, confirmed, _⟩
    · exact .inl (by rw [none, append_nil])
    · exact .inr (knows.orderly.done (confirms_of_confirmation confirmed))
  refine ⟨moves.sameNode.node.trans knows.name, knows.orderly.onEvent event, ?_, ?_, ?_, ?_, ?_, ?_,
    ?_, ?_, ?_, ?_⟩
  · intro id guard epoch holds
    rcases each id with same | done
    · rw [same]
      rcases moves.holds old holds with before | granted
      · exact knows.claims id guard epoch before
      · exact knows.granted answered granted
    · exact absurd holds (done.holds guard epoch)
  · intro op id guard epoch takeover raised
    rcases mem_append.mp raised with earlier | now
    · exact knows.raised op id guard epoch takeover earlier
    · rcases moves.claimed old now with before | ⟨claim, rfl, rfl, _, _, _, carried | granted⟩
      · cases before
      · exact (knows.claims id _ _ ⟨claim, rfl, rfl, .inl carried⟩).1
      · exact (knows.granted answered ⟨claim, granted, rfl, rfl⟩).1
  · intro id op record issuedMs issuedMonoMs phase
    rcases each id with same | done
    · rw [same]
      rcases moves.leasePhase old phase with kept | granted
      · exact knows.leases id op record issuedMs issuedMonoMs (kept.symm.trans phase)
      · obtain ⟨readOp, owner, rfl, waits, _⟩ := Event.grants_lease granted
        exact knows.answers id readOp (some record) (answered.1 _ rfl) waits
    · exact absurd phase (done.lease op record issuedMs issuedMonoMs)
  · intro id op record phase
    rcases each id with same | done
    · rw [same]
      rcases moves.recoverPhase old phase with kept | granted
      · exact knows.recoveries id op record (kept.symm.trans phase)
      · obtain ⟨leaseOp, _, issuedMs, issuedMonoMs, lease, rfl, reads, _⟩ :=
          Event.grants_recover granted
        exact knows.leases id leaseOp record issuedMs issuedMonoMs reads
    · exact absurd phase (done.recovery op record)
  · intro op found read
    obtain ⟨id, requested⟩ := knows.reads op found read
    exact ⟨id, mem_append_left _ requested⟩
  · intro id op found read waits
    obtain ⟨_, requested⟩ := knows.reads op found read
    have earlier : op < s.nextOp := knows.orderly.asked_below requested rfl
    rcases each id with same | done
    · rw [same]
      exact knows.answers id op found read (moves.old waits.op? earlier ▸ waits)
    · exact absurd (done.owner op waits) (not_le.mpr earlier)
  · intro op concluded
    obtain ⟨id, guard, epoch, takeover, requested, wrote⟩ := knows.applied op concluded
    exact ⟨id, guard, epoch, takeover, mem_append_left _ requested, wrote⟩
  · intro id
    rcases newlyOwned_cases s event id with none | ⟨epoch, confirmed, eq⟩
    · rw [none, append_nil]
      exact knows.increasing id
    · have newest :=
        (knows.confirms (ordered id) answered (confirms_of_confirmation confirmed)).1
      rw [eq, pairwise_append]
      refine ⟨knows.increasing id, pairwise_singleton _ _, ?_⟩
      intro earlier mem last same
      rw [mem_singleton.mp same]
      exact newest earlier mem
  · intro id epoch mem
    rcases mem_append.mp mem with earlier | new
    · exact knows.wrote id epoch earlier
    · rcases newlyOwned_cases s event id with none | ⟨last, confirmed, eq⟩
      · rw [none] at new
        cases new
      · rw [eq] at new
        rw [mem_singleton.mp new]
        exact (knows.confirms (ordered id) answered (confirms_of_confirmation confirmed)).2
  · intro id
    have tokens := (moves.behind (.refl _) asked).tokens (resumes event s) old
      (knows.tokens_event (ordered id) answered)
    rw [view_behind (onEvent s event).1] at tokens
    exact ⟨tokens.nodup, tokens.restored, tokens.waiting, tokens.cold, fun _ => False.elim⟩

/-- A node does not notice what happens to the store, except by its own requests. -/
theorem grow (knows : w.Knows node s asked owned) {next : World χ}
    (initial : next.initial = w.initial)
    (writes : ∀ id, ∀ record ∈ w.writes id, record ∈ next.writes id)
    (reads : ∀ op found, (node, op, found) ∈ next.reads → (node, op, found) ∈ w.reads ∨
      ∃ id, .readOwner op id ∈ asked ∧ w.Ordered id ∧ found = w.current id)
    (outcomes : ∀ op, (node, op, .applied) ∈ next.outcomes → (node, op, .applied) ∈ w.outcomes ∨
      ∃ id guard epoch takeover, .casOwner op id guard epoch takeover ∈ asked ∧
        next.Wrote node id epoch) :
    next.Knows node s asked owned := by
  have history : ∀ {id record}, record ∈ w.history id → record ∈ next.history id := by
    intro id record mem
    rw [World.history, mem_append] at mem ⊢
    rw [initial]
    exact mem.imp_left (writes id record)
  have seen : ∀ {id found}, w.Seen id (owned id) found → next.Seen id (owned id) found := by
    intro id found seen
    refine ⟨fun record eq => ⟨history (seen.record record eq).1, (seen.record record eq).2⟩, ?_⟩
    rw [initial]
    exact seen.absent
  have claimable : ∀ {id guard epoch}, w.Claimable id guard epoch →
      next.Claimable id guard epoch := by
    intro id guard epoch claimable
    cases guard with
    | absent => exact ⟨initial ▸ claimable.1, claimable.2⟩
    | «match» etag =>
      obtain ⟨record, mem, tag, eq⟩ := claimable
      exact ⟨record, history mem, tag, eq⟩
  have wrote : ∀ {id epoch}, w.Wrote node id epoch → next.Wrote node id epoch := by
    rintro id epoch ⟨record, mem, named, eq⟩
    exact ⟨record, writes id record mem, named, eq⟩
  refine ⟨knows.name, knows.orderly, ?_, ?_, ?_, ?_, ?_, ?_, ?_, knows.increasing, ?_, knows.tokens⟩
  · intro id guard epoch holds
    exact (knows.claims id guard epoch holds).imp_left claimable
  · intro op id guard epoch takeover raised
    exact claimable (knows.raised op id guard epoch takeover raised)
  · intro id op record issuedMs issuedMonoMs phase
    exact seen (knows.leases id op record issuedMs issuedMonoMs phase)
  · intro id op record phase
    exact seen (knows.recoveries id op record phase)
  · intro op found read
    rcases reads op found read with before | ⟨id, requested, _⟩
    · exact knows.reads op found before
    · exact ⟨id, requested⟩
  · intro id op found read waits
    refine seen ?_
    rcases reads op found read with before | ⟨_, requested, ordered, rfl⟩
    · exact knows.answers id op found before waits
    · -- The read that took effect is the one the cell waits for.
      have asks : .readOwner op id ∈ asked := by
        refine knows.orderly.asks id _ ?_
        rcases waits with phase | ⟨_, _, phase⟩ <;> rw [phase] <;> rfl
      cases knows.orderly.same_request requested asks rfl rfl
      have newest : ∀ epoch ∈ owned id, ∃ record ∈ w.history id, record.epoch = epoch := by
        intro epoch mem
        obtain ⟨record, written, _, eq⟩ := knows.wrote id epoch mem
        exact ⟨record, mem_append_left _ written, eq⟩
      refine ⟨?_, ?_⟩
      · intro record head
        refine ⟨mem_of_head? head, ?_⟩
        intro epoch mem
        obtain ⟨older, had, rfl⟩ := newest epoch mem
        exact ordered.epoch_le_current had head
      · intro none
        have empty : w.history id = [] := head?_eq_none_iff.mp none
        refine ⟨Option.toList_eq_nil_iff.mp (append_eq_nil_iff.mp empty).2, ?_⟩
        refine eq_nil_iff_forall_not_mem.mpr ?_
        intro epoch mem
        obtain ⟨older, had, _⟩ := newest epoch mem
        rw [empty] at had
        cases had
  · intro op concluded
    rcases outcomes op concluded with before | now
    · obtain ⟨id, guard, epoch, takeover, requested, written⟩ := knows.applied op before
      exact ⟨id, guard, epoch, takeover, requested, wrote written⟩
    · exact now
  · intro id epoch mem
    exact wrote (knows.wrote id epoch mem)

end Knows

/-! ## Worlds -/

/-- **The invariant of worlds.** -/
structure Sound (w : World χ) : Prop where
  ordered : ∀ id, w.Ordered id
  knows : ∀ node, w.Knows node (w.nodes node) (w.asked node) (w.epochs node)
  /-- No two confirmed acquisitions share a cell and an epoch. -/
  once : (w.confirmed.map Prod.snd).Nodup

theorem sound_start (config : NodeId → Config) (initial : CellId → Option OwnerRecord) :
    (start config initial : World χ).Sound := by
  refine ⟨?_, ?_, .nil⟩
  · intro id
    refine ⟨?_, ?_⟩ <;> cases first : initial id <;> simp [history, start, first]
  · intro node
    have cell : ∀ id, (((new node (config node) : State χ).view []).cellAt id) = {} := by
      intro id
      simp [view, gate, Turn.gate, Turn.core, CoreTurn.view, new]
    have phase : ∀ id, (((new node (config node) : State χ).view []).cellAt id).phase
        = .inactive := by
      intro id
      rw [cell]
    refine ⟨rfl, Orderly.new node (config node), ?_, ?_, ?_, ?_, ?_, ?_, ?_, ?_, ?_, ?_⟩
    · rintro id guard epoch ⟨_, _, _, (waits | ⟨op, issuedMonoMs, reads⟩) | ⟨op, _, reads⟩⟩
      · rw [show ((start config initial : World χ).nodes node) = new node (config node) from rfl,
          cell] at waits
        cases waits
      · cases (phase id).symm.trans reads
      · rcases reads with acquires | reconciles
        · cases (phase id).symm.trans acquires
        · cases (phase id).symm.trans reconciles
    · rintro op id guard epoch _ ⟨⟩
    · intro id op record _ issuedMonoMs reads
      cases (phase id).symm.trans reads
    · intro id op record recovers
      cases (phase id).symm.trans recovers
    · rintro op found ⟨⟩
    · rintro id op found ⟨⟩
    · rintro op ⟨⟩
    · intro id
      exact .nil
    · rintro id epoch ⟨⟩
    · intro id
      refine ⟨.nil, by rintro _ ⟨⟩, ?_, ?_, fun _ => False.elim⟩
      · intro spec waits
        rw [show (((start config initial : World χ).nodes node).view []).behind _
          = (new node (config node)).view [] from rfl, cell] at waits
        cases waits
      · intro spec waits
        rw [show (((start config initial : World χ).nodes node).view []).behind _
          = (new node (config node)).view [] from rfl, cell] at waits
        cases waits

section Steps

variable {w : World χ} {node : NodeId} {event : Event χ} {id : CellId}

theorem epochs_deliver_self : (w.deliver node event).epochs node
      = fun id => w.epochs node id ++ newlyOwned (w.nodes node) event id := by
  funext id
  simp only [epochs, deliver, filterMap_append, newlyOwned]
  congr 1
  cases (w.nodes node).confirmation? event with
  | none => rfl
  | some => simp [filterMap_cons]

theorem epochs_deliver_other {other : NodeId} (differ : other ≠ node) :
    (w.deliver node event).epochs other = w.epochs other := by
  funext id
  simp only [epochs, deliver, filterMap_append]
  cases (w.nodes node).confirmation? event with
  | none => simp
  | some => simp [differ.symm]

/-- What is confirmed now was not before, by this node or any other. -/
theorem Sound.unconfirmed (sound : w.Sound) (answered : w.Answered node event)
    (confirmed : (w.nodes node).confirmation? event = some (id, epoch)) :
    (id, epoch) ∉ w.confirmed.map Prod.snd := by
  obtain ⟨newest, record, written, named, rfl⟩ := (sound.knows node).confirms (sound.ordered id)
    answered (confirms_of_confirmation confirmed)
  intro mem
  obtain ⟨⟨other, _, epoch⟩, before, eq⟩ := mem_map.mp mem
  cases eq
  obtain ⟨earlier, wrote, theirs, same⟩ := (sound.knows other).wrote id _ (mem_epochs.mpr before)
  -- Two owners of one epoch are one, and a node confirms an epoch once.
  have one : earlier = record :=
    (sound.ordered id).eq_of_epoch (mem_append_left _ wrote) (mem_append_left _ written)
      same (by rw [theirs]; exact Option.some_ne_none _)
        (by rw [named]; exact Option.some_ne_none _)
  rw [one, named] at theirs
  cases theirs
  exact lt_irrefl _ (newest _ (mem_epochs.mpr before))

theorem Sound.deliver (sound : w.Sound) (answered : w.Answered node event) :
    (w.deliver node event).Sound := by
  refine ⟨fun id => ⟨(sound.ordered id).epochs, (sound.ordered id).etags⟩, ?_, ?_⟩
  · intro other
    by_cases differ : other = node
    · subst differ
      have knows := (sound.knows other).deliver sound.ordered answered
      have nodes : (w.deliver other event).nodes other = (onEvent (w.nodes other) event).1 :=
        update_self _ _ _
      have asked : (w.deliver other event).asked other
          = w.asked other ++ (onEvent (w.nodes other) event).2.filterMap Effect.cell? :=
        update_self _ _ _
      rw [nodes, asked, epochs_deliver_self]
      exact knows.grow rfl (fun _ _ mem => mem) (fun _ _ => .inl) fun _ => .inl
    · have nodes : (w.deliver node event).nodes other = w.nodes other :=
        update_of_ne differ _ _
      have asked : (w.deliver node event).asked other = w.asked other :=
        update_of_ne differ _ _
      rw [nodes, asked, epochs_deliver_other differ]
      exact (sound.knows other).grow rfl (fun _ _ mem => mem) (fun _ _ => .inl) fun _ => .inl
  · show ((w.confirmed ++ ((w.nodes node).confirmation? event).toList.map (Prod.mk node)).map
      Prod.snd).Nodup
    cases confirmed : (w.nodes node).confirmation? event with
    | none =>
      rw [Option.toList_none, map_nil, append_nil]
      exact sound.once
    | some =>
      rw [map_append, nodup_append]
      refine ⟨sound.once, nodup_singleton _, ?_⟩
      intro _ mem _ same
      rw [mem_singleton.mp same]
      rintro rfl
      exact sound.unconfirmed answered confirmed mem

/-- The record of a cell is written, and the node that asked for it may learn so. -/
theorem Sound.write (sound : w.Sound) (record : OwnerRecord) (fresh : w.Fresh id record.etag)
    (newer : ∀ older ∈ w.history id, older.epoch < record.epoch ∨
      older.epoch = record.epoch ∧ record.node = none) : (w.write id record).Sound := by
  refine ⟨fun key => (sound.ordered key).write fresh newer, ?_, sound.once⟩
  intro other
  refine (sound.knows other).grow rfl ?_ (fun _ _ => .inl) fun _ => .inl
  intro key older mem
  by_cases same : key = id
  · subst same
    rw [World.write]
    simp only [update_self]
    exact mem_cons_of_mem _ mem
  · rw [World.write]
    simp only [update_of_ne same]
    exact mem

theorem Sound.conclude (sound : w.Sound) {op : OpId} {outcome : CasOutcome}
    (applied : outcome = .applied → ∃ id guard epoch takeover,
      .casOwner op id guard epoch takeover ∈ w.asked node ∧ w.Wrote node id epoch) :
    (w.conclude node op outcome).Sound := by
  refine ⟨fun key => ⟨(sound.ordered key).epochs, (sound.ordered key).etags⟩, ?_, sound.once⟩
  intro other
  refine (sound.knows other).grow rfl (fun _ _ mem => mem) (fun _ _ => .inl) ?_
  intro _ mem
  rcases mem_cons.mp mem with now | before
  · cases now
    exact .inr (applied rfl)
  · exact .inl before

/-- **Every step keeps the invariant.** -/
theorem Sound.step (action : Action χ) {next : World χ} (stepped : w.step action = some next)
    (sound : w.Sound) : next.Sound := by
  cases action with
  | deliver =>
    simp only [World.step, Option.ite_none_right_eq_some] at stepped
    obtain ⟨answered, eq⟩ := stepped
    cases eq
    exact sound.deliver answered
  | read node op id =>
    simp only [World.step, Option.ite_none_right_eq_some] at stepped
    obtain ⟨requested, eq⟩ := stepped
    cases eq
    refine ⟨fun key => ⟨(sound.ordered key).epochs, (sound.ordered key).etags⟩, ?_, sound.once⟩
    intro other
    refine (sound.knows other).grow rfl (fun _ _ mem => mem) ?_ fun _ => .inl
    intro _ _ mem
    rcases mem_cons.mp mem with now | before
    · cases now
      exact .inr ⟨id, requested, sound.ordered id, rfl⟩
    · exact .inl before
  | cas node op id guard epoch takeover etag =>
    simp only [World.step, Option.ite_none_right_eq_some] at stepped
    obtain ⟨⟨requested, _, fresh⟩, eq⟩ := stepped
    split at eq
    · rename_i admitted
      cases eq
      have newest := (sound.ordered id).claim_newest
        ((sound.knows node).raised op id guard epoch takeover requested) admitted
      refine (sound.write ⟨some node, epoch, etag⟩ fresh
        fun older mem => .inl (newest older mem)).conclude ?_
      intro _
      refine ⟨id, guard, epoch, takeover, requested, ⟨some node, epoch, etag⟩, ?_, rfl, rfl⟩
      rw [World.write]
      simp only [update_self]
      exact mem_cons_self
    · cases eq
      exact sound.conclude (by rintro ⟨⟩)
  | release node op id epoch etag =>
    simp only [World.step, Option.ite_none_right_eq_some] at stepped
    obtain ⟨⟨_, fresh⟩, eq⟩ := stepped
    split at eq
    · rename_i owns
      cases eq
      exact sound.write ⟨none, epoch, etag⟩ fresh ((sound.ordered id).below_release owns)
    · cases eq
      exact sound

end Steps

/-! ## One writer per epoch -/

/-- A version that names an owner is above all that were written before it. -/
theorem Ordered.split {w : World χ} (ordered : w.Ordered id) (owned : record.node ≠ none)
    (written : record ∈ w.writes id) :
    ∃ later earlier, w.writes id = later ++ record :: earlier ∧
      ∀ older ∈ earlier ++ (w.initial id).toList, older.epoch < record.epoch := by
  obtain ⟨later, earlier, eq⟩ := append_of_mem written
  refine ⟨later, earlier, eq, ?_⟩
  intro older mem
  have order := ordered.epochs
  rw [history, eq, append_assoc, cons_append] at order
  rcases (pairwise_cons.mp (pairwise_append.mp order).2.1).1 older mem with
    less | ⟨_, released⟩
  · exact less
  · exact absurd released owned

/-- **One writer per epoch.**  What a node confirms for a cell is an ownership write of
its own, above every epoch the record had before that write and above every epoch the
node confirmed before.  No two confirmed acquisitions share a cell and an epoch, and no
node restores one epoch of a cell twice. -/
theorem confirmed_once {config : NodeId → Config} {initial : CellId → Option OwnerRecord}
    {actions : List (Action χ)} {w : World χ}
    (ran : (start config initial : World χ).run actions = some w) :
    (∀ node id epoch, (node, id, epoch) ∈ w.confirmed → ∃ later earlier etag,
      w.writes id = later ++ ⟨some node, epoch, etag⟩ :: earlier ∧
        ∀ older ∈ earlier ++ (w.initial id).toList, older.epoch < epoch) ∧
    (∀ node id, (w.epochs node id).Pairwise (· < ·)) ∧
    (w.confirmed.map Prod.snd).Nodup ∧
    ∀ node id, (restoredEpochs id (w.asked node)).Nodup := by
  have sound : w.Sound :=
    run_invariant (fun _ action _ stepped => Sound.step action stepped)
      (sound_start config initial) ran
  refine ⟨?_, fun node id => (sound.knows node).increasing id, sound.once, ?_⟩
  · intro node id epoch mem
    obtain ⟨record, written, named, rfl⟩ := (sound.knows node).wrote id epoch (mem_epochs.mpr mem)
    obtain ⟨later, earlier, eq, below⟩ :=
      (sound.ordered id).split (by rw [named]; exact Option.some_ne_none _) written
    refine ⟨later, earlier, record.etag, ?_, below⟩
    rw [eq, ← named]
  · intro node id
    have nodup := ((sound.knows node).tokens id).nodup
    rwa [View.behind, show (((w.nodes node).view []).effects) = [] from rfl, append_nil]
      at nodup

/-- **One restore per epoch.**  What a node restores from the bucket is an epoch the record was
written for it at, and no other node restores that epoch. -/
theorem restored_once {config : NodeId → Config} {initial : CellId → Option OwnerRecord}
    {actions : List (Action χ)} {w : World χ} {node : NodeId} {id : CellId} {epoch : Epoch}
    (ran : (start config initial : World χ).run actions = some w)
    (restored : epoch ∈ restoredEpochs id (w.asked node)) :
    w.Wrote node id epoch ∧ ∀ other, epoch ∈ restoredEpochs id (w.asked other) → other = node := by
  have sound : w.Sound :=
    run_invariant (fun _ action _ => Sound.step action) (sound_start config initial) ran
  have wrote : ∀ {node}, epoch ∈ restoredEpochs id (w.asked node) → w.Wrote node id epoch := by
    intro node mem
    refine (sound.knows node).wrote id epoch (((sound.knows node).tokens id).restored epoch ?_)
    exact restoredEpochs_append id .. ▸ mem_append_left _ mem
  refine ⟨wrote restored, fun other again => ?_⟩
  obtain ⟨record, written, named, at_⟩ := wrote restored
  obtain ⟨record', written', named', rfl⟩ := wrote again
  have same := (sound.ordered id).eq_of_epoch (mem_append_left _ written)
    (mem_append_left _ written') at_ (by simp [named]) (by simp [named'])
  rw [← same, named] at named'
  exact (Option.some.inj named').symm

/-- Node `n` acquires cell `a` and is told so late.  Node `m` finds no lease of `n`,
takes the cell over and is told at once. -/
def lateApplied : List (Action Unit) :=
  [.deliver "n" (.request 1 "a"), .read "n" 1 "a", .deliver "n" (.ownerRead 1 0 (.ok none)),
    .cas "n" 2 "a" .absent 1 false "v1",
    .deliver "m" (.request 1 "a"), .read "m" 1 "a",
    .deliver "m" (.ownerRead 1 0 (.ok (some ⟨some "n", 1, "v1"⟩))),
    .deliver "m" (.nodeLeaseRead 2 0 (.ok none)), .cas "m" 3 "a" (.match "v1") 2 true "v2",
    .deliver "m" (.ownerCasCompleted 3 (.ok .applied)),
    .deliver "n" (.ownerCasCompleted 2 (.ok .applied))]

theorem lateApplied_runs :
    ∃ w, (start (fun _ => sampleConfig) (fun _ => none) : World Unit).run lateApplied = some w ∧
      w.confirmed = [("m", "a", 2), ("n", "a", 1)] :=
  Option.map_eq_some_iff.mp (by decide +kernel)

/-- The order of confirmation is not the order of epochs. -/
theorem lateApplied_out_of_order : ¬ ∀ (actions : List (Action Unit)) (w : World Unit),
      (start (fun _ => sampleConfig) (fun _ => none) : World Unit).run actions = some w →
      w.confirmed.Pairwise fun earlier later => earlier.2.1 = later.2.1 →
        earlier.2.2 < later.2.2 := by
  intro ordered
  obtain ⟨w, ran, confirmed⟩ := lateApplied_runs
  have pairwise := ordered lateApplied w ran
  rw [confirmed] at pairwise
  revert pairwise
  decide

theorem lateApplied_confirmed_once :
    ∃ w, (start (fun _ => sampleConfig) (fun _ => none) : World Unit).run lateApplied = some w ∧
      (w.confirmed.map Prod.snd).Nodup := by
  obtain ⟨w, ran, _⟩ := lateApplied_runs
  exact ⟨w, ran, (confirmed_once ran).2.2.1⟩

theorem lateApplied_restored_once : ∃ w,
    (start (fun _ => sampleConfig) (fun _ => none) : World Unit).run lateApplied = some w ∧
      ∀ other, 2 ∈ restoredEpochs "a" (w.asked other) → other = "m" := by
  obtain ⟨w, ran, restored⟩ : ∃ w,
      (start (fun _ => sampleConfig) (fun _ => none) : World Unit).run lateApplied = some w ∧
        restoredEpochs "a" (w.asked "m") = [2] :=
    Option.map_eq_some_iff.mp (by decide +kernel)
  exact ⟨w, ran, (restored_once ran (restored ▸ mem_singleton_self 2)).2⟩

end World

end Celld
