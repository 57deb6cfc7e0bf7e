import Celld.Ownership.Claims

/-!
# Acquisitions and their restores

A confirmed acquisition owes its cell one restore.  The debt is paid at once, or it
waits behind the residency ceiling; nowhere is it copied.  `Tokens` states this as an
invariant of moves: an epoch that is restored is owned, none is restored twice, and the
restore a cell waits for is still owed.

The file also follows the claims themselves, from the grant to the confirmation: what a
cell claims it was granted (`Moves.holds`), a cell that waits for its conditional write
waits for nothing else (`Cell.Idle`), and a confirmed cell claims nothing
(`Cell.Settled`).
-/

namespace Celld

open List Option

/-! ## One operation, one cell -/

/-- No two cells wait for one operation. -/
def View.OpsUnique (v : View) : Prop :=
  ∀ one other op, (v.cellAt one).phase.op? = some op → (v.cellAt other).phase.op? = some op →
    one = other

section Moves

variable {G : Grants} {v w : View}

/-- A move changes one cell at most. -/
theorem Move.single_cell (move : Move G v w) : ∃ key, ∀ id, id ≠ key →
    w.cellAt id = v.cellAt id := by
  have put : ∀ (key : CellId) (next : Cell) (id : CellId), id ≠ key →
      (v.put key next).cellAt id = v.cellAt id :=
    fun key next id differ => Function.update_of_ne differ _ _
  cases move with
  | note => exact ⟨"", fun _ _ => rfl⟩
  | spend => exact ⟨"", fun _ _ => rfl⟩
  | stopUntracked => exact ⟨"", fun _ _ => rfl⟩
  | cacheLease => exact ⟨"", fun _ _ => rfl⟩
  | uncacheLease => exact ⟨"", fun _ _ => rfl⟩
  | _ => exact ⟨_, put _ _⟩

theorem Move.opsUnique (move : Move G v w) (below : v.OpsBelow) (unique : v.OpsUnique) :
    w.OpsUnique := by
  obtain ⟨key, kept⟩ := move.single_cell
  -- A cell other than `key` is as before, and waits for an id from before the move.
  have apart : ∀ one other op, (w.cellAt one).phase.op? = some op →
      (w.cellAt other).phase.op? = some op → other ≠ key → one = other := by
    intro one other op first second differ
    rw [kept other differ] at second
    rcases move.phaseChange one with same | none | ⟨fresh, _⟩
    · rw [same] at first
      exact unique one other op first second
    · rw [none] at first
      cases first
    · rw [fresh] at first
      cases first
      exact absurd (below other _ second) (lt_irrefl _)
  intro one other op first second
  by_cases differ : other = key
  · by_cases differ' : one = key
    · rw [differ, differ']
    · exact (apart other one op second first differ').symm
  · exact apart one other op first second differ

theorem Moves.opsUnique (moves : Moves G v w) (below : v.OpsBelow) (unique : v.OpsUnique) :
    w.OpsUnique := by
  have both : w.OpsBelow ∧ w.OpsUnique :=
    moves.invariant (P := fun u => u.OpsBelow ∧ u.OpsUnique)
      (fun _ _ move holds => ⟨move.opsBelow holds.1, move.opsUnique holds.1 holds.2⟩)
      ⟨below, unique⟩
  exact both.2

end Moves

/-! ## What a cell claims -/

/-- The cell claims an epoch against a guard: it carries the claim, or waits for the
outcome of its write. -/
def Cell.Holds (cell : Cell) (guard : CasGuard) (epoch : Epoch) : Prop :=
  ∃ claim, claim.guard = guard ∧ claim.epoch = epoch ∧ (cell.Carries claim ∨ ∃ op dormant,
    cell.phase = .acquiring op claim dormant ∨ cell.phase = .reconcilingAcquire op claim dormant)

/-- The event grants a claim of the epoch against the guard to a phase. -/
def Grants.GrantsClaim (G : Grants) (phase : Phase) (guard : CasGuard) (epoch : Epoch) : Prop :=
  ∃ claim, G.claim phase claim ∧ claim.guard = guard ∧ claim.epoch = epoch

section Claims

variable {G : Grants} {v w : View} {id : CellId} {guard : CasGuard} {epoch : Epoch}

theorem Move.holds (move : Move G v w) (claims : (w.cellAt id).Holds guard epoch) :
    (v.cellAt id).Holds guard epoch ∨ G.GrantsClaim (v.cellAt id).phase guard epoch := by
  obtain ⟨claim, rfl, rfl, how⟩ := claims
  have spent : (v.cellAt id).Carries claim ∨ G.claim (v.cellAt id).phase claim →
      (v.cellAt id).Holds claim.guard claim.epoch ∨
        G.GrantsClaim (v.cellAt id).phase claim.guard claim.epoch := by
    rintro (carried | granted)
    · exact .inl ⟨claim, rfl, rfl, .inl carried⟩
    · exact .inr ⟨claim, granted, rfl, rfl⟩
  rcases how with carried | ⟨op, dormant, acquires | reconciles⟩
  · exact spent (move.carries carried)
  · rcases move.entry id with same | entry
    · exact .inl ⟨claim, rfl, rfl, .inr ⟨op, dormant, .inl (same ▸ acquires)⟩⟩
    · rw [acquires] at entry
      exact spent entry
  · rcases move.entry id with same | entry
    · exact .inl ⟨claim, rfl, rfl, .inr ⟨op, dormant, .inr (same ▸ reconciles)⟩⟩
    · rw [reconciles] at entry
      obtain ⟨earlierOp, earlier, parked, acquires, rfl⟩ := entry
      exact .inl ⟨earlier, rfl, rfl, .inr ⟨earlierOp, parked, .inl acquires⟩⟩

/-- **What a cell claims after an event** it claimed before, or the event granted it. -/
theorem Moves.holds (moves : Moves G v w) (old : G.Old v.nextOp)
    (claims : (w.cellAt id).Holds guard epoch) :
    (v.cellAt id).Holds guard epoch ∨ G.GrantsClaim (v.cellAt id).phase guard epoch := by
  induction moves with
  | refl => exact .inl claims
  | tail before move ih =>
    rename_i u _
    have past : Moves G v u := before
    rcases move.holds claims with earlier | ⟨claim, granted, g, e⟩
    · exact ih earlier
    · obtain ⟨_, waits, below⟩ := old.claim granted
      exact .inr ⟨claim, past.old waits below ▸ granted, g, e⟩

end Claims

/-! ## A cell that waits for its write -/

/-- A cell that waits for the outcome of its conditional write waits for no slot. -/
def Cell.Idle (cell : Cell) : Prop :=
  ∀ op claim dormant, cell.phase = .acquiring op claim dormant ∨
    cell.phase = .reconcilingAcquire op claim dormant → cell.waitingFor = none

theorem Cell.Idle.of_forgets {cell next : Cell} (keeps : cell.Forgets next) (idle : cell.Idle) :
    next.Idle := by
  intro op claim dormant waits
  rw [keeps.phase] at waits
  exact keeps.waitingFor.elim (·.trans (idle op claim dormant waits)) id

theorem Move.idle {G : Grants} {v w : View} (move : Move G v w)
    (idle : ∀ id, (v.cellAt id).Idle) (id : CellId) : (w.cellAt id).Idle := by
  have put : ∀ {key : CellId} {next : Cell}, next.Idle → ((v.put key next).cellAt id).Idle := by
    intro key next settled
    rcases v.cellAt_put key id next with ⟨_, eq⟩ | eq
    · rw [eq]
      exact settled
    · rw [eq]
      exact idle id
  -- A phase other than the two asks for nothing.
  have other : ∀ {next : Cell}, (∀ op claim dormant, next.phase ≠ .acquiring op claim dormant ∧
      next.phase ≠ .reconcilingAcquire op claim dormant) → next.Idle := by
    intro next differ op claim dormant waits
    rcases waits with acquires | reconciles
    · exact absurd acquires (differ op claim dormant).1
    · exact absurd reconciles (differ op claim dormant).2
  cases move with
  | note => exact idle id
  | spend => exact idle id
  | stopUntracked => exact idle id
  | cacheLease => exact idle id
  | uncacheLease => exact idle id
  | touch key next keeps => exact put ((idle key).of_forgets keeps)
  | release key start keeps =>
    have settled : start.Idle := (idle key).of_forgets keeps
    exact put settled
  | fireAlarm key next keeps => exact put ((idle key).of_forgets keeps)
  | noteProven key => exact put (idle key)
  | park key start keeps phase parked =>
    refine put (other ?_)
    rintro op claim dormant
    constructor <;> (rintro rfl; cases parked)
  | issueClaim key start keeps spent => exact put fun _ _ _ _ => spent
  | reconcile key start keeps op claim dormant phase =>
    refine put fun _ _ _ _ => ?_
    exact keeps.waitingFor.elim (·.trans (idle key op claim dormant (.inl phase))) fun none => none
  | _ => exact put (other (by simp))

theorem Moves.idle {G : Grants} {v w : View} (moves : Moves G v w)
    (idle : ∀ id, (v.cellAt id).Idle) : ∀ id, (w.cellAt id).Idle :=
  moves.invariant (P := fun u => ∀ id, (u.cellAt id).Idle) (fun _ _ move => move.idle) idle

/-! ## Restores -/

namespace Cell.Forgets

variable {cell next : Cell} (keeps : cell.Forgets next)

include keeps

theorem waits (activation : Activation) (waits : next.waitingFor = some activation) :
    cell.waitingFor = some activation := by
  rcases keeps.waitingFor with same | none
  · exact same ▸ waits
  · cases none.symm.trans waits

theorem starts (start : ColdStart) (waits : next.waitingActivation = some start) :
    cell.waitingActivation = some start := by
  rcases keeps.waitingActivation with same | none
  · exact same ▸ waits
  · cases none.symm.trans waits

end Cell.Forgets

/-- The epochs of a cell that effects restore, other than preserved local ones. -/
def restoredEpochs (id : CellId) (effects : List CellEffect) : List Epoch :=
  effects.filterMap fun effect =>
    match effect with
    | .restore _ key spec => if key = id ∧ spec.resumeLocal = false then some spec.epoch else none
    | _ => none

theorem restoredEpochs_append (id : CellId) (effects more : List CellEffect) :
    restoredEpochs id (effects ++ more) = restoredEpochs id effects ++ restoredEpochs id more :=
  filterMap_append

theorem restoredEpochs_inert (id : CellId) {effects : List CellEffect}
    (inert : ∀ effect ∈ effects, effect.inert = true) : restoredEpochs id effects = [] := by
  rw [restoredEpochs, filterMap_eq_nil_iff]
  intro effect mem
  have quiet := inert effect mem
  cases effect <;> first | rfl | cases quiet

/-- **The restores a cell is owed.**  `owned` are the epochs whose acquisition has been
confirmed, by the event at hand or before. -/
structure Tokens (G : Grants) (owned : Epoch → Prop) (id : CellId) (v : View) : Prop where
  /-- No epoch is restored twice. -/
  nodup : (restoredEpochs id v.effects).Nodup
  /-- Every restored epoch is owned. -/
  restored : ∀ epoch ∈ restoredEpochs id v.effects, owned epoch
  /-- The restore the cell waits for is owed. -/
  waiting : ∀ spec, (v.cellAt id).waitingFor = some (.restore spec) → spec.resumeLocal = false →
    owned spec.epoch ∧ spec.epoch ∉ restoredEpochs id v.effects
  /-- A cold start restores only a preserved local epoch. -/
  cold : ∀ spec, (v.cellAt id).waitingActivation = some (.restore spec) → spec.resumeLocal = true
  /-- The restore the event grants is owed, and the cell does not wait for it already. -/
  granted : ∀ spec, G.confirm (v.cellAt id).phase spec →
    owned spec.epoch ∧ spec.epoch ∉ restoredEpochs id v.effects ∧
      ∀ other, (v.cellAt id).waitingFor = some (.restore other) → other.resumeLocal = false →
        other.epoch ≠ spec.epoch

namespace Tokens

variable {G : Grants} {owned : Epoch → Prop} {id : CellId} {v w : View}

/-- Nothing is restored, and nothing new waits. -/
theorem keep (tokens : Tokens G owned id v)
    (restored : restoredEpochs id w.effects = restoredEpochs id v.effects)
    (waiting : ∀ spec, (w.cellAt id).waitingFor = some (.restore spec) →
      (v.cellAt id).waitingFor = some (.restore spec))
    (cold : ∀ spec, (w.cellAt id).waitingActivation = some (.restore spec) →
      (v.cellAt id).waitingActivation = some (.restore spec) ∨ spec.resumeLocal = true)
    (phase : (w.cellAt id).phase = (v.cellAt id).phase ∨
      ∀ spec, ¬ G.confirm (w.cellAt id).phase spec) : Tokens G owned id w := by
  refine ⟨by rw [restored]; exact tokens.nodup, by rw [restored]; exact tokens.restored,
    fun spec waits acquired => ?_, fun spec waits =>
      (cold spec waits).elim (tokens.cold spec) fun local_ => local_,
    fun spec confirmed => ?_⟩
  · rw [restored]
    exact tokens.waiting spec (waiting spec waits) acquired
  · rw [phase.resolve_right fun none => none spec confirmed] at confirmed
    obtain ⟨own, unpaid, apart⟩ := tokens.granted spec confirmed
    rw [restored]
    exact ⟨own, unpaid, fun other waits => apart other (waiting other waits)⟩

/-- Another cell changes. -/
theorem elsewhere (tokens : Tokens G owned id v)
    (restored : restoredEpochs id w.effects = restoredEpochs id v.effects)
    (cell : w.cellAt id = v.cellAt id) : Tokens G owned id w := by
  refine tokens.keep restored ?_ ?_ (.inl ?_) <;> rw [cell]
  · exact fun _ waits => waits
  · exact fun _ => .inl

/-- The cell pays the restore of an owed epoch. -/
theorem pay (tokens : Tokens G owned id v) {epoch : Epoch}
    (restored : restoredEpochs id w.effects = restoredEpochs id v.effects ++ [epoch])
    (owed : owned epoch ∧ epoch ∉ restoredEpochs id v.effects)
    (waiting : ∀ spec, (w.cellAt id).waitingFor = some (.restore spec) →
      spec.resumeLocal = false →
      (v.cellAt id).waitingFor = some (.restore spec) ∧ spec.epoch ≠ epoch)
    (cold : ∀ spec, (w.cellAt id).waitingActivation = some (.restore spec) →
      spec.resumeLocal = true)
    (spent : ∀ spec, ¬ G.confirm (w.cellAt id).phase spec) : Tokens G owned id w := by
  refine ⟨?_, ?_, ?_, cold, fun spec confirmed => absurd confirmed (spent spec)⟩
  · rw [restored, nodup_append]
    refine ⟨tokens.nodup, nodup_singleton epoch, ?_⟩
    intro _ mem _ same
    rw [mem_singleton.mp same]
    rintro rfl
    exact owed.2 mem
  · intro other mem
    rw [restored, mem_append, mem_singleton] at mem
    rcases mem with before | rfl
    · exact tokens.restored other before
    · exact owed.1
  · intro spec waits acquired
    obtain ⟨before, differ⟩ := waiting spec waits acquired
    obtain ⟨own, unpaid⟩ := tokens.waiting spec before acquired
    refine ⟨own, ?_⟩
    rw [restored, mem_append, mem_singleton]
    rintro (paid | same)
    · exact unpaid paid
    · exact differ same

end Tokens

/-- An effect other than a restore restores nothing. -/
theorem restoredEpochs_other (id : CellId) (effects : List CellEffect) {effect : CellEffect}
    (other : restoredEpochs id [effect] = []) :
    restoredEpochs id (effects ++ [effect]) = restoredEpochs id effects := by
  rw [restoredEpochs_append, other, append_nil]

section

variable {G : Grants} {v w : View} {owned : Epoch → Prop} {id : CellId} {bound : OpId}
  (resumes : ∀ id spec, G.resume id spec → spec.resumeLocal = true)

/-- A phase that a move enters is granted no restore. -/
theorem Move.confirm_phase (move : Move G v w) (old : G.Old bound) (le : bound ≤ v.nextOp)
    (id : CellId) : (w.cellAt id).phase = (v.cellAt id).phase ∨
      ∀ spec, ¬ G.confirm (w.cellAt id).phase spec := by
  rcases move.phaseChange id with same | none | ⟨fresh, _⟩
  · exact .inl same
  · refine .inr fun spec confirmed => ?_
    obtain ⟨op, waits, _⟩ := old.confirm confirmed
    rw [none] at waits
    cases waits
  · refine .inr fun spec confirmed => ?_
    obtain ⟨op, waits, below⟩ := old.confirm confirmed
    rw [fresh] at waits
    cases waits
    exact absurd (below.trans_le le) (lt_irrefl _)

/-- A cell that forgets what it waits for, if anything, is owed no more. -/
theorem Tokens.put {key : CellId} {next : Cell} (tokens : Tokens G owned id v)
    (cell : w.cellAt id = (v.put key next).cellAt id)
    (restored : restoredEpochs id w.effects = restoredEpochs id v.effects)
    (waiting : ∀ a, next.waitingFor = some a → (v.cellAt key).waitingFor = some a)
    (cold : ∀ start, next.waitingActivation = some start →
      (v.cellAt key).waitingActivation = some start)
    (phase : (w.cellAt id).phase = (v.cellAt id).phase ∨
      ∀ spec, ¬ G.confirm (w.cellAt id).phase spec) : Tokens G owned id w := by
  rcases v.cellAt_put key id next with ⟨rfl, eq⟩ | eq
  · rw [eq] at cell
    refine tokens.keep restored ?_ ?_ phase <;> rw [cell]
    · exact fun spec => waiting _
    · exact fun spec waits => .inl (cold _ waits)
  · exact tokens.elsewhere restored (cell.trans eq)

include resumes

/-- The event grants a restore, or the cell waits for it: in both cases it is owed. -/
theorem Tokens.owed (tokens : Tokens G owned id v) {spec : RestoreSpec}
    (allowed : G.allows id (v.cellAt id) (.restore spec)) (acquired : spec.resumeLocal = false) :
    owned spec.epoch ∧ spec.epoch ∉ restoredEpochs id v.effects := by
  rcases allowed with confirmed | waits | cold | resumed
  · exact ⟨(tokens.granted spec confirmed).1, (tokens.granted spec confirmed).2.1⟩
  · exact tokens.waiting spec waits acquired
  · rw [tokens.cold spec cold] at acquired
    cases acquired
  · rw [resumes id spec resumed] at acquired
    cases acquired

theorem Tokens.queueActivation {key : CellId} {start : Cell} {activation : Activation}
    (tokens : Tokens G owned id v) (keeps : (v.cellAt key).Forgets start)
    (allowed : G.allows key (v.cellAt key) activation)
    (spent : ∀ spec, ¬ G.confirm .waitingCapacity spec) :
    Tokens G owned id
      (v.put key { start.enter .waitingCapacity with waitingFor := some activation }) := by
  rcases v.cellAt_put key id
    { start.enter .waitingCapacity with waitingFor := some activation } with
    ⟨rfl, eq⟩ | eq
  · refine ⟨tokens.nodup, tokens.restored, ?_, ?_, ?_⟩
    · intro spec waits acquired
      rw [eq] at waits
      cases waits
      exact tokens.owed resumes allowed acquired
    · intro spec waits
      rw [eq] at waits
      exact tokens.cold spec (keeps.starts _ waits)
    · intro spec confirmed
      rw [eq] at confirmed
      exact absurd confirmed (spent spec)
  · exact tokens.elsewhere rfl eq

theorem Tokens.issueRestore {key : CellId} {start : Cell} {spec : RestoreSpec}
    (tokens : Tokens G owned id v) (keeps : (v.cellAt key).Forgets start)
    (paid : start.waitingFor = none ∨ G.confirm (v.cellAt key).phase spec)
    (allowed : G.allows key (v.cellAt key) (.restore spec))
    (spent : ∀ other, ¬ G.confirm (.restoring v.nextOp spec) other) :
    Tokens G owned id
      (v.startOp key (start.enter (.restoring v.nextOp spec)) (.restore v.nextOp key spec)) := by
  by_cases counted : key = id ∧ spec.resumeLocal = false
  · obtain ⟨rfl, acquired⟩ := counted
    have cell : (v.startOp key (start.enter (.restoring v.nextOp spec))
        (.restore v.nextOp key spec)).cellAt key = start.enter (.restoring v.nextOp spec) :=
      Function.update_self _ _ _
    refine tokens.pay ?_ (tokens.owed resumes allowed acquired) ?_ ?_ ?_
    · show restoredEpochs key (v.effects ++ [.restore v.nextOp key spec]) = _
      rw [restoredEpochs_append]
      simp [restoredEpochs, acquired]
    · intro other waits kept
      rw [cell] at waits
      have before := keeps.waits _ waits
      refine ⟨before, ?_⟩
      -- Either nothing waits any more, or the event granted the restore of another epoch.
      rcases paid with none | confirmed
      · cases none.symm.trans waits
      · exact (tokens.granted spec confirmed).2.2 other before kept
    · intro other waits
      rw [cell] at waits
      exact tokens.cold other (keeps.starts _ waits)
    · intro other confirmed
      rw [cell] at confirmed
      exact spent other confirmed
  · refine tokens.put rfl ?_ keeps.waits keeps.starts ?_
    · refine restoredEpochs_other id v.effects ?_
      simp [restoredEpochs, counted]
    · rcases v.cellAt_startOp key id (start.enter (.restoring v.nextOp spec))
        (.restore v.nextOp key spec) with ⟨rfl, eq⟩ | eq
      · rw [eq]
        exact .inr spent
      · rw [eq]
        exact .inl rfl

/-- **Every move keeps the account of restores.** -/
theorem Move.tokens (move : Move G v w) (old : G.Old bound) (le : bound ≤ v.nextOp)
    (tokens : Tokens G owned id v) : Tokens G owned id w := by
  have phase := move.confirm_phase old le id
  cases move with
  | note effects inert =>
    refine tokens.elsewhere ?_ rfl
    show restoredEpochs id (v.effects ++ effects) = _
    rw [restoredEpochs_append, restoredEpochs_inert id inert, append_nil]
  | spend => exact tokens.elsewhere rfl rfl
  | stopUntracked => exact tokens.elsewhere (restoredEpochs_other id _ rfl) rfl
  | cacheLease => exact tokens.elsewhere rfl rfl
  | uncacheLease => exact tokens.elsewhere rfl rfl
  | touch key next keeps =>
    exact tokens.put rfl rfl keeps.waits keeps.starts phase
  | replace =>
    exact tokens.put rfl rfl (fun _ waits => by cases waits) (fun _ waits => by cases waits) phase
  | noteProven => exact tokens.put rfl rfl (fun _ waits => waits) (fun _ waits => waits) phase
  | park key start keeps => exact tokens.put rfl rfl keeps.waits keeps.starts phase
  | reside key start keeps => exact tokens.put rfl rfl keeps.waits keeps.starts phase
  | rescue key start keeps => exact tokens.put rfl rfl keeps.waits keeps.starts phase
  | queueCold key start keeps cold known =>
    rcases v.cellAt_put key id
      { start.enter .waitingActivation with waitingActivation := some cold } with ⟨rfl, eq⟩ | eq
    · refine tokens.keep rfl (fun spec waits => ?_) (fun spec waits => .inr ?_) phase <;>
        rw [eq] at waits
      · exact keeps.waits _ waits
      · rcases known with rfl | ⟨other, rfl, resumed⟩
        · cases waits
        · cases waits
          exact resumes _ _ resumed
    · exact tokens.elsewhere rfl eq
  | queueActivation key start keeps activation allowed =>
    refine tokens.queueActivation resumes keeps allowed fun spec confirmed => ?_
    obtain ⟨op, waits, _⟩ := old.confirm confirmed
    cases waits
  | issueRestore key start keeps spec paid allowed =>
    refine tokens.issueRestore resumes keeps paid allowed fun other confirmed => ?_
    obtain ⟨op, waits, below⟩ := old.confirm confirmed
    cases waits
    exact absurd (below.trans_le le) (lt_irrefl _)
  | release key start keeps =>
    exact tokens.put rfl (restoredEpochs_other id _ rfl) keeps.waits keeps.starts phase
  | fireAlarm key next keeps =>
    exact tokens.put rfl (restoredEpochs_other id _ rfl) keeps.waits keeps.starts phase
  | _ =>
    have keeps : Cell.Forgets _ _ := ‹Cell.Forgets _ _›
    exact tokens.put rfl (restoredEpochs_other id _ rfl) keeps.waits keeps.starts phase

theorem Moves.tokens (moves : Moves G v w) (old : G.Old v.nextOp)
    (tokens : Tokens G owned id v) : Tokens G owned id w := by
  have both : v.nextOp ≤ w.nextOp ∧ Tokens G owned id w :=
    moves.invariant (P := fun u => v.nextOp ≤ u.nextOp ∧ Tokens G owned id u)
      (fun _ _ move holds => ⟨holds.1.trans move.nextOp_le,
        move.tokens resumes old holds.1 holds.2⟩)
      ⟨le_rfl, tokens⟩
  exact both.2

end

/-! ## Confirmations -/

/-- The acquisition an event confirms: the conditional write of a cell applied, or the
record that a cell reads to reconcile an ambiguous write is its own. -/
def State.confirmation? {χ : Type} (s : State χ) : Event χ → Option (CellId × Epoch)
  | .ownerCasCompleted op (.ok .applied) => do
      let id ← s.cellOps[op]?
      let cell ← s.cells[id]?
      match cell.phase with
      | .acquiring current claim _ => if current = op then some (id, claim.epoch) else none
      | _ => none
  | .ownerRead op _ (.ok (some record)) => do
      let id ← s.cellOps[op]?
      let cell ← s.cells[id]?
      match cell.phase with
      | .reconcilingAcquire current claim _ =>
          if current = op ∧ record.node = some s.node ∧ record.epoch = claim.epoch then
            some (id, claim.epoch)
          else none
      | _ => none
  | _ => none

/-- What a confirmation rests on. -/
inductive Confirms {χ : Type} (s : State χ) (id : CellId) (epoch : Epoch) : Event χ → Prop
  | applied (op : OpId) (cell : Cell) (claim : Claim) (dormant : Bool)
      (indexed : s.cellOps[op]? = some id) (found : s.cells[id]? = some cell)
      (phase : cell.phase = .acquiring op claim dormant) (same : claim.epoch = epoch) :
      Confirms s id epoch (.ownerCasCompleted op (.ok .applied))
  | reconciled (op : OpId) (cell : Cell) (claim : Claim) (dormant : Bool) (nowMs : ℕ)
      (record : OwnerRecord) (indexed : s.cellOps[op]? = some id)
      (found : s.cells[id]? = some cell)
      (phase : cell.phase = .reconcilingAcquire op claim dormant)
      (own : record.node = some s.node) (written : record.epoch = claim.epoch)
      (same : claim.epoch = epoch) :
      Confirms s id epoch (.ownerRead op nowMs (.ok (some record)))

theorem State.confirms_of_confirmation {χ : Type} {s : State χ} {event : Event χ} {id : CellId}
    {epoch : Epoch} (confirmed : s.confirmation? event = some (id, epoch)) :
    Confirms s id epoch event := by
  unfold State.confirmation? at confirmed
  split at confirmed
  · simp only [bind_eq_bind, bind_eq_some_iff] at confirmed
    obtain ⟨key, indexed, cell, found, confirmed⟩ := confirmed
    split at confirmed
    · rename_i current claim dormant phase
      split at confirmed
      · rename_i same
        cases confirmed
        subst same
        exact .applied current cell claim dormant indexed found phase rfl
      · cases confirmed
    · cases confirmed
  · rename_i nowMs record
    simp only [bind_eq_bind, bind_eq_some_iff] at confirmed
    obtain ⟨key, indexed, cell, found, confirmed⟩ := confirmed
    split at confirmed
    · rename_i current claim dormant phase
      split at confirmed
      · rename_i same
        cases confirmed
        obtain ⟨rfl, own, written⟩ := same
        exact .reconciled current cell claim dormant nowMs record indexed
          found phase own written rfl
      · cases confirmed
    · cases confirmed
  · cases confirmed

/-- A confirmed cell: it claims nothing, and waits for its restore if for anything. -/
structure Cell.Settled (cell : Cell) : Prop where
  phase : (∃ epoch, cell.phase = .dormant epoch) ∨ cell.phase = .waitingCapacity ∨
    ∃ op spec, cell.phase = .restoring op spec
  waiting : ∀ claim, cell.waitingFor ≠ some (.claim claim)

namespace Cell.Settled

variable {cell : Cell}

theorem not_holds (settled : cell.Settled) (guard : CasGuard) (epoch : Epoch) :
    ¬ cell.Holds guard epoch := by
  rintro ⟨claim, _, _, (waits | ⟨op, _⟩) | ⟨op, _, _ | _⟩⟩
  · exact settled.waiting claim waits
  all_goals
    rcases settled.phase with ⟨other, phase⟩ | phase | ⟨other, _, phase⟩ <;> simp_all

theorem of_none (none : cell.waitingFor = none)
    (phase : (∃ epoch, cell.phase = .dormant epoch) ∨ cell.phase = .waitingCapacity ∨
      ∃ op spec, cell.phase = .restoring op spec) : cell.Settled := by
  refine ⟨phase, ?_⟩
  intro _ waits
  rw [none] at waits
  cases waits

end Cell.Settled

namespace CoreTurn

variable {t : CoreTurn} {id : CellId} {cell : Cell} {claim : Claim} {dormant : Bool}

theorem activateOrWait_settled {spec : RestoreSpec} {whenFull : WhenFull}
    (none : cell.waitingFor = none) :
    (t.activateOrWait id cell (.restore spec) whenFull).1.Settled := by
  have refuse : ∀ u : CoreTurn, u.refuseActivation id cell (.restore spec) = Option.none :=
    fun _ => rfl
  unfold activateOrWait
  rw [refuse]
  dsimp only
  split
  · exact .of_none none (.inl ⟨spec.epoch, rfl⟩)
  split
  · unfold beginActivation
    rw [refuse]
    exact .of_none rfl (.inr (.inr ⟨_, spec, rfl⟩))
  · unfold watchQueued
    split
    · exact ⟨.inr (.inl rfl), by simp⟩
    · exact ⟨.inr (.inl rfl), by simp⟩

theorem acquired_settled (none : cell.waitingFor = none) :
    (t.acquired id cell claim dormant).1.Settled := by
  unfold acquired
  dsimp only
  split
  · exact .of_none none (.inl ⟨claim.epoch, rfl⟩)
  split
  · exact activateOrWait_settled none
  · exact .of_none none (.inr (.inr ⟨_, confirmedSpec claim, rfl⟩))

theorem confirmReconciled_settled (none : cell.waitingFor = none) :
    (t.confirmReconciled id cell claim).1.Settled := by
  unfold confirmReconciled
  dsimp only
  split
  · exact .of_none none (.inl ⟨claim.epoch, rfl⟩)
  · exact activateOrWait_settled none

/-- The turn that a handler ends in comes, by moves that are granted nothing, from one
in which the cell is settled and no operation id has been given back. -/
def SettlesAt (t u : CoreTurn) (id : CellId) : Prop :=
  ∃ mid : CoreTurn, (mid.view.cellAt id).Settled ∧ t.nextOp ≤ mid.nextOp ∧
    Moves Grants.none mid.view u.view

theorem putCell_settled {next : Cell} (settled : next.Settled) :
    ((t.putCell id next).view.cellAt id).Settled := by
  rw [putCell_view, show (t.viewWith id next).cellAt id = next from Function.update_self _ _ _]
  exact settled

theorem ownerCasCompleted_settles {op : OpId} (indexed : t.cellOps[op]? = some id)
    (found : t.cells[id]? = some cell) (phase : cell.phase = .acquiring op claim dormant)
    (none : cell.waitingFor = none) :
    SettlesAt t (t.ownerCasCompleted op (.ok .applied)) id := by
  let start := (t.dropOp op).dropCell id
  let p := start.acquired id cell claim dormant
  have result : t.ownerCasCompleted op (.ok .applied) = (p.2.putCell id p.1).pumpCapacity := by
    simp only [ownerCasCompleted, takeCellOp, indexed, found, phase, decide_true, if_true]
    rfl
  have hands : Hands (.ownerCasCompleted op (.ok .applied)) .free start id cell cell p :=
    acquired_hand (dropCell_gone _ _)
      (.of_phase phase rfl (fun _ => rfl) (by simp [Cell.asks, phase]) trivial) phase
      ⟨rfl, claim, dormant, phase, rfl⟩
  have later : t.nextOp ≤ p.2.nextOp := hands.1.nextOp_le
  rw [result]
  exact ⟨p.2.putCell id p.1, putCell_settled (acquired_settled none), later,
    (pumpCapacity_turn (r := .free) trivial).1⟩

theorem finishOwnerRead_settles {nowMs : ℕ} {op : OpId} {record : OwnerRecord} (gone : t.Gone id)
    (phase : cell.phase = .reconcilingAcquire op claim dormant) (none : cell.waitingFor = none)
    (own : record.node = some t.node) (written : record.epoch = claim.epoch) :
    SettlesAt t (t.finishOwnerRead id cell nowMs (.ok (some record))) id := by
  unfold finishOwnerRead
  split
  · let p := t.setPhase { cell with confirming := false }
      (confirmedPhase t.node (.ok (some record)))
    have dormant : confirmedPhase t.node (.ok (some record)) = .dormant record.epoch := by
      rw [confirmedPhase, if_pos own]
    exact ⟨p.2.putCell id p.1, putCell_settled (.of_none none (.inl ⟨record.epoch, dormant⟩)),
      le_rfl, .refl _⟩
  · let next : Cell := { cell with confirming := false }
    let p := t.confirmReconciled id next claim
    have reconciles : reconcilingClaim next = some claim := by
      have phase_ : next.phase = .reconcilingAcquire op claim dormant := phase
      rw [reconcilingClaim, phase_]
    have resolved : t.resolveOwner id next nowMs (.ok (some record)) = .ok p := by
      simp only [resolveOwner, reconciles, filter_some, own, written, decide_true,
        Bool.and_self, if_true]
      rfl
    have hands : Hands (.ownerRead t.node op nowMs (.ok (some record))) .free t id next next p :=
      confirmReconciled_hand gone
        (.of_phase phase rfl (fun _ => rfl) (by simp [next, Cell.asks, phase]) trivial)
        ⟨claim, dormant, record, phase, rfl, own, written, rfl⟩
    have later : t.nextOp ≤ p.2.nextOp := hands.1.nextOp_le
    have step :
        t.resolveOwner id { cell with confirming := false } nowMs (.ok (some record)) = .ok p :=
      resolved
    have some_ : reconcilingClaim { cell with confirming := false } = some claim := reconciles
    dsimp only
    rw [step, some_]
    exact ⟨p.2.putCell id p.1, putCell_settled (confirmReconciled_settled none), later,
      (pumpCapacity_turn (r := .free) trivial).1⟩

theorem ownerRead_settles {nowMs : ℕ} {op : OpId} {record : OwnerRecord}
    (indexed : t.cellOps[op]? = some id) (found : t.cells[id]? = some cell)
    (phase : cell.phase = .reconcilingAcquire op claim dormant) (none : cell.waitingFor = none)
    (own : record.node = some t.node) (written : record.epoch = claim.epoch) :
    SettlesAt t (t.ownerRead op nowMs (.ok (some record))) id := by
  simp only [ownerRead, takeCellOp, indexed, found, phase, decide_true, if_true]
  split
  · exact finishOwnerRead_settles (t := ((t.dropOp op).dropCell id).settleConfirmation id)
      (dropCell_gone _ _) phase none own written
  · exact finishOwnerRead_settles (t := (t.dropOp op).dropCell id)
      (dropCell_gone _ _) phase none own
      written

end CoreTurn

section

variable {χ : Type} {s : State χ}

/-- Of a turn without effects, a handler of the core shows its own view. -/
theorem Turn.onCore_core (t : Turn χ) (f : CoreTurn → CoreTurn) (silent : t.effects = []) :
    (t.onCore f).gate.core = (f { t.toCore with effects := [] }).view := by
  simp only [Turn.gate, Turn.core, Turn.onCore, CoreTurn.view, silent, nil_append,
    Turn.cell?_map_cell]

/-- **A confirmed cell claims nothing any more.** -/
theorem onEvent_settles {event : Event χ} {id : CellId} {epoch : Epoch}
    (confirms : Confirms s id epoch event) (idle : ∀ id, ((s.view []).cellAt id).Idle) :
    ∃ mid : View, (mid.cellAt id).Settled ∧ s.nextOp ≤ mid.nextOp ∧
      Moves Grants.none mid ((onEvent s event).1.view (onEvent s event).2) := by
  let t : Turn χ := { s.foldClocks event with effects := [] }
  let c : CoreTurn := { t.toCore with effects := [] }
  have rest : Moves Grants.none (t.handle event).gate.core
      ((onEvent s event).1.view (onEvent s event).2) :=
    ((t.handle event).closing_moves (H := .none)).toCore
  -- A cell that waits for its write, or to reconcile it, waits for no slot.
  have free : ∀ {op : OpId} {claim : Claim} {dormant : Bool} {cell : Cell},
      s.cells[id]? = some cell → (cell.phase = .acquiring op claim dormant ∨
        cell.phase = .reconcilingAcquire op claim dormant) → cell.waitingFor = none := by
    intro op claim dormant cell found waits
    have here := idle id op claim dormant
    rw [State.view_cellAt found] at here
    exact here waits
  have handled : ∃ u : CoreTurn, (t.handle event).gate.core = u.view ∧
      CoreTurn.SettlesAt c u id := by
    cases confirms with
    | applied op cell claim dormant indexed found phase =>
      exact ⟨_, Turn.onCore_core t _ rfl, CoreTurn.ownerCasCompleted_settles (t := c) indexed
        found phase (free found (.inl phase))⟩
    | reconciled op cell claim dormant nowMs record indexed found phase own written =>
      exact ⟨_, Turn.onCore_core t _ rfl, CoreTurn.ownerRead_settles indexed found phase
        (free found (.inr phase)) own written⟩
  obtain ⟨u, same, mid, settled, later, moves⟩ := handled
  rw [same] at rest
  exact ⟨mid.view, settled, later, moves.trans rest⟩

end

end Celld
