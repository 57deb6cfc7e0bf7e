import Celld.Ownership.Ops

/-!
# Where claims come from

A claim on an ownership record is granted by an event: the read of the record, the
read of a dead owner's lease, or the recovery of its log.  A cell may carry the claim
for a while, through the lookup of fleet capacity and the wait for a slot, before it
issues the conditional write.  The lemmas of this file follow claims through the moves
of one event: what a cell carries afterwards, and what it writes, it carried before or
the event granted it to the phase the cell was in.
-/

namespace Celld

variable {record : OwnerRecord} {phase : Phase} {op : OpId} {claim : Claim}

/-! ## Grants are made to earlier phases -/

/-- Every grant to a phase is to one that waits for an operation below `bound`. -/
structure Grants.Old (G : Grants) (bound : OpId) : Prop where
  claim : ∀ {phase claim}, G.claim phase claim → ∃ op, phase.op? = some op ∧ op < bound
  confirm : ∀ {phase spec}, G.confirm phase spec → ∃ op, phase.op? = some op ∧ op < bound
  lease : ∀ {phase record issuedMs}, G.lease phase record issuedMs →
    ∃ op, phase.op? = some op ∧ op < bound
  recover : ∀ {phase record}, G.recover phase record → ∃ op, phase.op? = some op ∧ op < bound

theorem Grants.none_old (bound : OpId) : Grants.none.Old bound where
  claim := False.elim
  confirm := False.elim
  lease := False.elim
  recover := False.elim

section Events

variable {χ : Type} {s : State χ}

theorem Core.Awaits.below (awaits : s.Awaits op) (below : (s.view []).OpsBelow) :
    op < s.nextOp := by
  obtain ⟨id, _, _, found, waits⟩ := awaits
  refine below id op ?_
  rw [State.view_cellAt found]
  exact waits

/-- What an event grants, it grants to phases of before the event. -/
theorem Event.grants_old (event : Event χ) (below : (s.view []).OpsBelow) :
    (event.grants s).Old s.nextOp := by
  cases event with
  | ownerRead op =>
    refine ⟨?_, ?_, ?_, ?_⟩
    · rintro phase claim ⟨awaits, waits, _⟩
      exact ⟨op, waits.op?, awaits.below below⟩
    · rintro phase spec ⟨awaits, claim, dormant, record, rfl, _⟩
      exact ⟨op, rfl, awaits.below below⟩
    · rintro phase record issuedMs ⟨awaits, waits, _⟩
      exact ⟨op, waits.op?, awaits.below below⟩
    · rintro phase record ⟨_, granted⟩
      exact granted.elim
  | nodeLeaseRead op =>
    refine ⟨?_, ?_, ?_, ?_⟩
    · rintro phase claim ⟨awaits, record, issuedMs, issuedMonoMs, lease, rfl, _⟩
      exact ⟨op, rfl, awaits.below below⟩
    · rintro phase spec ⟨_, granted⟩
      exact granted.elim
    · rintro phase record issuedMs ⟨_, granted⟩
      exact granted.elim
    · rintro phase record ⟨awaits, issuedMs, issuedMonoMs, lease, rfl, _⟩
      exact ⟨op, rfl, awaits.below below⟩
  | nodeLogRecovered op =>
    refine ⟨?_, ?_, ?_, ?_⟩
    · rintro phase claim ⟨awaits, _, record, rfl, _⟩
      exact ⟨op, rfl, awaits.below below⟩
    · rintro phase spec ⟨_, granted⟩
      exact granted.elim
    · rintro phase record issuedMs ⟨_, granted⟩
      exact granted.elim
    · rintro phase record ⟨_, granted⟩
      exact granted.elim
  | ownerCasCompleted op =>
    refine ⟨?_, ?_, ?_, ?_⟩
    · rintro phase claim ⟨_, granted⟩
      exact granted.elim
    · rintro phase spec ⟨awaits, _, claim, dormant, rfl, _⟩
      exact ⟨op, rfl, awaits.below below⟩
    · rintro phase record issuedMs ⟨_, granted⟩
      exact granted.elim
    · rintro phase record ⟨_, granted⟩
      exact granted.elim
  | localCellsRead => exact ⟨False.elim, False.elim, False.elim, False.elim⟩
  | durableReached => exact ⟨False.elim, False.elim, False.elim, False.elim⟩
  | ownershipVerified => exact ⟨False.elim, False.elim, False.elim, False.elim⟩
  | _ => exact Grants.none_old _

/-- A lease read is granted by the answer of an ownership read. -/
theorem Event.grants_lease {event : Event χ} {issuedMs : ℕ}
    (granted : (event.grants s).lease phase record issuedMs) :
    ∃ op owner, event = .ownerRead op issuedMs (.ok (some record)) ∧ phase.WaitsOwner op ∧
      record.node = some owner ∧ owner ≠ s.node := by
  cases event with
  | ownerRead op =>
    obtain ⟨_, waits, rfl, rfl, owner, named, foreign⟩ := granted
    exact ⟨op, owner, rfl, waits, named, foreign⟩
  | nodeLeaseRead => exact granted.2.elim
  | nodeLogRecovered => exact granted.2.elim
  | ownerCasCompleted => exact granted.2.elim
  | _ => exact granted.elim

/-- A recovery is granted by the answer of a lease read. -/
theorem Event.grants_recover {event : Event χ} (granted : (event.grants s).recover phase record) :
    ∃ op nowMs issuedMs issuedMonoMs lease, event = .nodeLeaseRead op nowMs (.ok lease) ∧
      phase = .readingNodeLease op record issuedMs issuedMonoMs ∧
      LeaseDead record issuedMs lease := by
  cases event with
  | nodeLeaseRead op nowMs =>
    obtain ⟨_, issuedMs, issuedMonoMs, lease, phase, rfl, dead, _⟩ := granted
    exact ⟨op, nowMs, issuedMs, issuedMonoMs, lease, rfl, phase, dead⟩
  | ownerRead => exact granted.2.elim
  | nodeLogRecovered => exact granted.2.elim
  | ownerCasCompleted => exact granted.2.elim
  | _ => exact granted.elim

end Events

/-! ## Claims a cell carries -/

/-- The cell holds the claim back: behind the residency ceiling, or while fleet
capacity is looked up. -/
def Cell.Carries (cell : Cell) (claim : Claim) : Prop :=
  cell.waitingFor = some (.claim claim) ∨
    ∃ op issuedMonoMs, cell.phase = .readingCapacity op claim issuedMonoMs

theorem Cell.Forgets.carries {cell next : Cell} (keeps : cell.Forgets next)
    (carries : next.Carries claim) : cell.Carries claim := by
  rcases carries with waits | ⟨op, issuedMonoMs, phase⟩
  · rcases keeps.waitingFor with same | none
    · exact .inl (same ▸ waits)
    · rw [none] at waits
      cases waits
  · exact .inr ⟨op, issuedMonoMs, keeps.phase ▸ phase⟩

/-- A cell that enters a phase other than the capacity lookup. -/
theorem Cell.Forgets.carries_enter {cell start : Cell} (keeps : cell.Forgets start)
    (other : ∀ op issuedMonoMs, phase ≠ .readingCapacity op claim issuedMonoMs)
    (carries : (start.enter phase).Carries claim) : cell.Carries claim := by
  rcases carries with waits | ⟨op, issuedMonoMs, entered⟩
  · exact keeps.carries (.inl waits)
  · exact absurd entered (other op issuedMonoMs)

namespace Move

variable {G : Grants} {v w : View} {id : CellId} {claim : Claim}

/-- What a cell carries after a move it carried before, or the move was granted it. -/
theorem carries (move : Move G v w) (carries : (w.cellAt id).Carries claim) :
    (v.cellAt id).Carries claim ∨ G.claim (v.cellAt id).phase claim := by
  have put : ∀ {key : CellId} {next : Cell},
      (next.Carries claim → (v.cellAt key).Carries claim ∨ G.claim (v.cellAt key).phase claim) →
      ((v.put key next).cellAt id).Carries claim →
      (v.cellAt id).Carries claim ∨ G.claim (v.cellAt id).phase claim := by
    intro key next change carried
    rcases View.put_cases (·.Carries claim) carried with ⟨rfl, new⟩ | old
    · exact change new
    · exact .inl old
  cases move with
  | note => exact .inl carries
  | spend => exact .inl carries
  | stopUntracked => exact .inl carries
  | cacheLease => exact .inl carries
  | uncacheLease => exact .inl carries
  | touch key next keeps => exact put (fun new => .inl (keeps.carries new)) carries
  | replace =>
    refine put ?_ carries
    rintro (waits | ⟨op, issuedMonoMs, phase⟩)
    · cases waits
    · cases phase
  | park key start keeps phase parked =>
    refine put (fun new => .inl (keeps.carries_enter ?_ new)) carries
    rintro op issuedMonoMs rfl
    cases parked
  | queueCold key start keeps =>
    refine put ?_ carries
    intro new
    exact .inl (keeps.carries_enter (by simp) new)
  | queueActivation key start keeps activation allowed =>
    refine put ?_ carries
    rintro (waits | ⟨op, issuedMonoMs, phase⟩)
    · cases waits
      exact allowed.symm
    · cases phase
  | readCapacity key start keeps other allowed =>
    refine put ?_ carries
    rintro (waits | ⟨op, issuedMonoMs, phase⟩)
    · exact .inl (keeps.carries (.inl waits))
    · cases phase
      exact allowed.symm
  | release key start keeps =>
    refine put ?_ carries
    intro new
    exact .inl (keeps.carries new)
  | fireAlarm key next keeps => exact put (fun new => .inl (keeps.carries new)) carries
  | noteProven =>
    refine put ?_ carries
    intro new
    exact .inl new
  | _ =>
    refine put ?_ carries
    intro new
    exact .inl (Cell.Forgets.carries_enter ‹_› (by simp) new)

/-- A conditional write spends a claim of its cell. -/
theorem claimed (move : Move G v w) {guard : CasGuard} {epoch : Epoch} {takeover : Bool}
    (raised : .casOwner op id guard epoch takeover ∈ w.effects) :
    .casOwner op id guard epoch takeover ∈ v.effects ∨
      ∃ claim dormant, claim.guard = guard ∧ claim.epoch = epoch ∧ claim.takeover = takeover ∧
        (w.cellAt id).phase = .acquiring op claim dormant ∧ op < w.nextOp ∧
        ((v.cellAt id).Carries claim ∨ G.claim (v.cellAt id).phase claim) := by
  have other : ∀ {key : CellId} {next : Cell} {effect : CellEffect},
      .casOwner op id guard epoch takeover ∈ (v.startOp key next effect).effects →
      effect ≠ .casOwner op id guard epoch takeover →
      .casOwner op id guard epoch takeover ∈ v.effects := by
    intro key next effect raised differ
    rcases List.mem_append.mp raised with old | new
    · exact old
    · exact absurd (List.mem_singleton.mp new).symm differ
  cases move with
  | note effects inert =>
    rcases List.mem_append.mp raised with old | new
    · exact .inl old
    · cases inert _ new
  | stopUntracked =>
    rcases List.mem_append.mp raised with old | new
    · exact .inl old
    · cases List.mem_singleton.mp new
  | issueClaim key start keeps spent claim dormant allowed =>
    rcases List.mem_append.mp raised with old | new
    · exact .inl old
    · cases List.mem_singleton.mp new
      refine .inr ⟨claim, dormant, rfl, rfl, rfl, ?_, lt_add_one _, allowed.symm⟩
      simp only [View.startOp, View.put, View.emit, View.spend, Function.update_self,
        Cell.enter_phase]
  | spend => exact .inl raised
  | cacheLease => exact .inl raised
  | uncacheLease => exact .inl raised
  | touch => exact .inl raised
  | replace => exact .inl raised
  | park => exact .inl raised
  | queueCold => exact .inl raised
  | queueActivation => exact .inl raised
  | reside => exact .inl raised
  | rescue => exact .inl raised
  | noteProven => exact .inl raised
  | _ => exact .inl (other raised (by simp))

end Move

/-! ## Phases of ownership resolution -/

/-- What a cell must have been granted, or have carried, to enter a phase. -/
def Phase.Entry (G : Grants) (before : Cell) : Phase → Prop
  | .readingNodeLease _ record issuedMs _ => G.lease before.phase record issuedMs
  | .recoveringOwnerLog _ record => G.recover before.phase record
  | .readingCapacity _ claim _ | .acquiring _ claim _ =>
      before.Carries claim ∨ G.claim before.phase claim
  | .reconcilingAcquire _ claim _ => ∃ op earlier dormant,
      before.phase = .acquiring op earlier dormant ∧
        claim = { earlier with reconciles := earlier.reconciles + 1 }
  | _ => True

theorem Phase.entry_of_isParked {G : Grants} {before : Cell}
    (parked : phase.isParked = true) : phase.Entry G before := by
  cases phase <;> trivial

/-- A move keeps the phase of a cell, or the cell may enter the new one. -/
theorem Move.entry {G : Grants} {v w : View} (move : Move G v w) (id : CellId) :
    (w.cellAt id).phase = (v.cellAt id).phase ∨ (w.cellAt id).phase.Entry G (v.cellAt id) := by
  have put : ∀ {key : CellId} {next : Cell},
      (next.phase = (v.cellAt key).phase ∨ next.phase.Entry G (v.cellAt key)) →
      ((v.put key next).cellAt id).phase = (v.cellAt id).phase ∨
        ((v.put key next).cellAt id).phase.Entry G (v.cellAt id) := by
    intro key next change
    rcases v.cellAt_put key id next with ⟨rfl, eq⟩ | eq
    · rw [eq]
      exact change
    · rw [eq]
      exact .inl rfl
  cases move with
  | note => exact .inl rfl
  | spend => exact .inl rfl
  | stopUntracked => exact .inl rfl
  | cacheLease => exact .inl rfl
  | uncacheLease => exact .inl rfl
  | touch key next keeps => exact put (.inl keeps.phase)
  | park key start keeps phase parked => exact put (.inr (Phase.entry_of_isParked parked))
  | release key start keeps => exact put (.inl keeps.phase)
  | fireAlarm key next keeps => exact put (.inl keeps.phase)
  | noteProven => exact put (.inl rfl)
  | readLease key start keeps record owner issuedMs granted => exact put (.inr granted)
  | recoverLog key start keeps record granted => exact put (.inr granted)
  | readCapacity key start keeps claim allowed => exact put (.inr allowed.symm)
  | issueClaim key start keeps spent claim dormant allowed => exact put (.inr allowed.symm)
  | reconcile key start keeps op claim dormant phase =>
    exact put (.inr ⟨op, claim, dormant, phase, rfl⟩)
  | _ => exact put (.inr trivial)

namespace Moves

variable {G : Grants} {v w : View} {id : CellId}

/-- What a cell carries after an event it carried before, or the event granted it. -/
theorem carries (moves : Moves G v w) (old : G.Old v.nextOp)
    (carried : (w.cellAt id).Carries claim) :
    (v.cellAt id).Carries claim ∨ G.claim (v.cellAt id).phase claim := by
  induction moves with
  | refl => exact .inl carried
  | tail before move ih =>
    rename_i u w
    have past : Moves G v u := before
    rcases move.carries carried with before | granted
    · exact ih before
    · obtain ⟨_, waits, earlier⟩ := old.claim granted
      rw [past.old waits earlier] at granted
      exact .inr granted

/-- A claim that may be spent within an event was carried before it, or granted. -/
theorem spends (moves : Moves G v w) (old : G.Old v.nextOp)
    (spent : (w.cellAt id).Carries claim ∨ G.claim (w.cellAt id).phase claim) :
    (v.cellAt id).Carries claim ∨ G.claim (v.cellAt id).phase claim := by
  rcases spent with carried | granted
  · exact moves.carries old carried
  · obtain ⟨_, waits, earlier⟩ := old.claim granted
    rw [moves.old waits earlier] at granted
    exact .inr granted

/-- A conditional write spends a claim that was carried before the event or granted by
it; if the cell still waits for the write, that is the claim it waits with. -/
theorem claimed (moves : Moves G v w) (old : G.Old v.nextOp) {guard : CasGuard} {epoch : Epoch}
    {takeover : Bool} (raised : .casOwner op id guard epoch takeover ∈ w.effects) :
    .casOwner op id guard epoch takeover ∈ v.effects ∨
      ∃ claim, claim.guard = guard ∧ claim.epoch = epoch ∧ claim.takeover = takeover ∧
        op < w.nextOp ∧
        (∀ other dormant, (w.cellAt id).phase = .acquiring op other dormant → other = claim) ∧
        ((v.cellAt id).Carries claim ∨ G.claim (v.cellAt id).phase claim) := by
  induction moves with
  | refl => exact .inl raised
  | tail before move ih =>
    rename_i u w
    have past : Moves G v u := before
    rcases move.claimed raised with earlier | ⟨claim, dormant, g, e, t, phase, taken, spent⟩
    · refine (ih earlier).imp_right ?_
      rintro ⟨claim, g, e, t, taken, same, spent⟩
      refine ⟨claim, g, e, t, taken.trans_le move.nextOp_le, ?_, spent⟩
      intro other dormant phase
      -- A later phase would wait for a later operation.
      rcases move.phaseChange id with kept | none | ⟨fresh, _⟩
      · exact same other dormant (kept ▸ phase)
      · rw [phase] at none
        cases none
      · rw [phase] at fresh
        cases fresh
        exact absurd taken (lt_irrefl _)
    · refine .inr ⟨claim, g, e, t, taken, ?_, past.spends old spent⟩
      intro other _ phase'
      rw [phase] at phase'
      cases phase'
      rfl

/-- A cell is in a phase that needs a grant since before the event, or the event granted it. -/
theorem entered {granted : Phase → Prop} (moves : Moves G v w)
    (entry : ∀ {cell : Cell}, phase.Entry G cell → granted cell.phase)
    (old : ∀ {earlier}, granted earlier → ∃ op, earlier.op? = some op ∧ op < v.nextOp)
    (now : (w.cellAt id).phase = phase) :
    (w.cellAt id).phase = (v.cellAt id).phase ∨ granted (v.cellAt id).phase := by
  induction moves with
  | refl => exact .inl rfl
  | tail before move ih =>
    rename_i u w
    have past : Moves G v u := before
    rcases move.entry id with same | entered
    · rw [same] at now ⊢
      exact ih now
    · rw [now] at entered
      obtain ⟨earlier, waits, below⟩ := old (entry entered)
      exact .inr (past.old waits below ▸ entry entered)

theorem leasePhase (moves : Moves G v w) (old : G.Old v.nextOp) {issuedMs issuedMonoMs : ℕ}
    (reads : (w.cellAt id).phase = .readingNodeLease op record issuedMs issuedMonoMs) :
    (w.cellAt id).phase = (v.cellAt id).phase ∨ G.lease (v.cellAt id).phase record issuedMs :=
  moves.entered (fun entry => entry) old.lease reads

theorem recoverPhase (moves : Moves G v w) (old : G.Old v.nextOp)
    (recovers : (w.cellAt id).phase = .recoveringOwnerLog op record) :
    (w.cellAt id).phase = (v.cellAt id).phase ∨ G.recover (v.cellAt id).phase record :=
  moves.entered (fun entry => entry) old.recover recovers

end Moves

end Celld
