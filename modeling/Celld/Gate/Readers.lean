import Celld.Gate.Writes

/-!
# Read-only outputs and the residency they observed

A read-only output that observed a commit leaves once a verified proof of *its
residency* covers the commit.  The core keeps the proof on the cell
(`provenPosition`) and drops it whenever the cell enters residency, since a
restarted runtime counts its commits from the start again.

What it does not drop is a barrier.  An export barrier or an alarm's barrier can be
open when the runtime of its cell is restarted at the same epoch, and its verdict,
when it comes, is noted on the new residency.  So the law holds of the runs in which
no cell is published at an epoch while a barrier of that cell and epoch is open
(`FreshlyPublished`), and fails of others.
-/

namespace Celld

variable {χ : Type} {epoch : Epoch} {position : ℕ} {id : CellId}

/-! ## Proofs of a residency -/

/-- A resident cell with a proof on record. -/
def Cell.ProvenAt (cell : Cell) (epoch : Epoch) (position : ℕ) : Prop :=
  cell.phase = .resident epoch ∧ cell.provenPosition = some (epoch, position)

/-- Entering any phase leaves no proof on a resident cell. -/
theorem Cell.enter_not_provenAt (cell : Cell) (phase : Phase) (epoch : Epoch) (position : ℕ) :
    ¬ (cell.enter phase).ProvenAt epoch position := by
  rintro ⟨rfl, proof⟩
  simp [Cell.enter, Phase.isResident] at proof

theorem Cell.Forgets.provenAt {cell next : Cell} (keeps : cell.Forgets next)
    (proven : next.ProvenAt epoch position) : cell.ProvenAt epoch position :=
  ⟨keeps.phase.symm.trans proven.1, keeps.provenPosition.symm.trans proven.2⟩

/-- A noted proof was on record already, or is the one noted. -/
theorem Cell.noteProven_provenAt {cell : Cell} {noted : Epoch} {at_ : ℕ}
    (proven : (cell.noteProven noted at_).ProvenAt epoch position) :
    cell.ProvenAt epoch position ∨ (epoch = noted ∧ position = at_) := by
  obtain ⟨phase, proof⟩ := proven
  simp only [Cell.noteProven] at phase proof
  cases before : cell.provenPosition with
  | none =>
    simp only [before, Option.some.injEq, Prod.mk.injEq] at proof
    exact .inr ⟨proof.1.symm, proof.2.symm⟩
  | some record =>
    obtain ⟨_, highest⟩ := record
    simp only [before] at proof
    split at proof
    · rename_i same
      simp only [Option.some.injEq, Prod.mk.injEq] at proof
      obtain ⟨rfl, rfl⟩ := proof
      rcases le_total at_ highest with below | above
      · rw [max_eq_left below]
        exact .inl ⟨phase, by rw [before, same]⟩
      · rw [max_eq_right above]
        exact .inr ⟨rfl, rfl⟩
    · simp only [Option.some.injEq, Prod.mk.injEq] at proof
      exact .inr ⟨proof.1.symm, proof.2.symm⟩

/-- **A proof on record was there before the move, or was granted.** -/
theorem Move.provenAt {G : Grants} {v w : View} (move : Move G v w)
    (proven : (w.cellAt id).ProvenAt epoch position) :
    (v.cellAt id).ProvenAt epoch position ∨ G.proven id epoch position := by
  -- A cell put there by the move carries its proof from before, or carries none.
  have put : ∀ {key : CellId} {next : Cell}, (next.ProvenAt epoch position →
        (v.cellAt key).ProvenAt epoch position ∨ G.proven key epoch position) →
      ((v.put key next).cellAt id).ProvenAt epoch position →
      (v.cellAt id).ProvenAt epoch position ∨ G.proven id epoch position := by
    intro key next here holds
    rcases View.put_cases (·.ProvenAt epoch position) holds with ⟨rfl, proven⟩ | before
    · exact here proven
    · exact .inl before
  cases move with
  | note | spend | stopUntracked | cacheLease | uncacheLease => exact .inl proven
  | touch key next keeps => exact put (fun here => .inl (keeps.provenAt here)) proven
  | replace | queueCold | queueActivation => exact put (fun here => by cases here.1) proven
  | release key start keeps held phase =>
    refine put (fun here => ?_) proven
    exact nomatch (keeps.phase.trans phase).symm.trans here.1
  | fireAlarm key next keeps => exact put (fun here => .inl (keeps.provenAt here)) proven
  | noteProven key noted at_ granted =>
    refine put (fun here => ?_) proven
    rcases Cell.noteProven_provenAt here with before | ⟨rfl, rfl⟩
    · exact .inl before
    · exact .inr granted
  | _ => exact put (fun here => absurd here (Cell.enter_not_provenAt _ _ _ _)) proven

theorem Moves.provenAt {G : Grants} {v w : View} (moves : Moves G v w)
    (proven : (w.cellAt id).ProvenAt epoch position) :
    (v.cellAt id).ProvenAt epoch position ∨ G.proven id epoch position := by
  induction moves with
  | refl => exact .inl proven
  | tail _ move ih =>
    rcases move.provenAt proven with before | granted
    · exact ih before
    · exact .inr granted

/-- The cell a request runs against is in the table, and resident. -/
theorem residentCell_cell {c : Core} {request : RequestId}
    (resident : c.residentCell request = some (id, epoch)) :
    ∃ cell, c.cells[id]? = some cell ∧ cell.phase = .resident epoch := by
  unfold Core.residentCell at resident
  split at resident
  · cases resident
  split at resident
  · cases resident
  rename_i cell found
  split at resident
  · rename_i phase
    cases resident
    exact ⟨cell, found, phase⟩
  · cases resident

namespace Run

variable {r : Run χ} {i j k m : ℕ} {gate : Barrier χ}

/-! ## Residencies -/

/-- The event takes the cell from `publishing` into residency at the epoch: a
runtime begins to serve. -/
def Publishes (s : State χ) (event : Event χ) (id : CellId) (epoch : Epoch) : Prop :=
  ∃ op, event = .published op (.ok ()) ∧ s.phaseAt id = some (.publishing op epoch)

/-- Event `j` begins a residency of the cell at the epoch. -/
def PublishedAt (r : Run χ) (j : ℕ) (id : CellId) (epoch : Epoch) : Prop :=
  ∃ event, r.events[j]? = some event ∧ Publishes (r.stateAt j) event id epoch

/-- No cell is published at an epoch while a barrier of an earlier runtime of that
cell and epoch is open. -/
def FreshlyPublished (r : Run χ) : Prop :=
  ∀ j id epoch, r.PublishedAt j id epoch → ∀ (op : OpId) (gate : Barrier χ),
    (r.stateAt j).barriers[op]? = some gate → gate.isOn id epoch = false

/-- A barrier that is open at the end of a stretch was open all along it. -/
theorem OpenedAt.persists {op : OpId} (opened : r.OpenedAt m op gate)
    (after : m < j) : ∀ i ≤ r.events.length, j ≤ i → ∀ last,
      (r.stateAt i).barriers[op]? = some last →
        ∃ open_, (r.stateAt j).barriers[op]? = some open_ ∧ open_.Same last := by
  refine history ?_ ?_
  · intro within
    exact absurd (after.trans_le within) (Nat.not_lt_zero m)
  · intro i event told ih within last found
    rcases Nat.of_le_succ within with before | rfl
    · rcases (gateStep told).barriers op last found with ⟨earlier, there, grew⟩ | ⟨later, _⟩
      · obtain ⟨open_, opens, same⟩ := ih before earlier there
        exact ⟨open_, opens, same.trans grew.same⟩
      · -- The id was taken at event `m`, so it cannot be fresh now.
        obtain ⟨first, found', _⟩ := opened.2
        have length := (lt_length_of_told told).le
        have taken := r.barrier_bound (m + 1) (after.trans_le (before.trans length)) op first found'
        have mono := nextOp_mono (after.trans_le before) length
        exact absurd (taken.trans_le (mono.trans later)) (Nat.lt_irrefl op)
    · exact ⟨last, found, .refl last⟩

/-- An open barrier belongs to the current runtime of its cell and epoch. -/
theorem OpenedAt.current {op : OpId} (fresh : r.FreshlyPublished) (opened : r.OpenedAt m op gate)
    (within : i ≤ r.events.length) (found : (r.stateAt i).barriers[op]? = some gate) (after : m < j)
    (before : j < i) :
    ¬ r.PublishedAt j gate.cell gate.epoch := by
  intro published
  obtain ⟨open_, opens, same⟩ := opened.persists after i within before.le gate found
  have on : open_.isOn gate.cell gate.epoch = true := by
    rw [Barrier.isOn, ← same.cell, ← same.epoch]
    simp
  rw [fresh j gate.cell gate.epoch published op open_ opens] at on
  cases on

/-! ## Reader safety -/

/-- Event `n` settles the open barrier with a positive verdict. -/
def ProvedAt (r : Run χ) (n : ℕ) (op : OpId) : Prop :=
  ∃ event gate, r.events[n]? = some event ∧ (r.stateAt n).barriers[op]? = some gate ∧
    event.Proves op gate

/-- A barrier of the runtime that serves the cell at event `i`, at the epoch and at
or above a position, was proved by event `k`. -/
def ProvenSince (r : Run χ) (i k : ℕ) (id : CellId) (epoch : Epoch) (position : ℕ) : Prop :=
  ∃ m op gate n, m ≤ i ∧ r.OpenedAt m op gate ∧ gate.cell = id ∧ gate.epoch = epoch ∧
    position ≤ gate.position ∧ (∀ j, m < j → j < i → ¬ r.PublishedAt j id epoch) ∧
    m < n ∧ n ≤ k ∧ r.ProvedAt n op

theorem ProvenSince.mono {lower : ℕ} {earlier : ℕ}
    (proven : r.ProvenSince i earlier id epoch position) (below : lower ≤ position)
    (later : earlier ≤ k) : r.ProvenSince i k id epoch lower := by
  obtain ⟨m, op, gate, n, atMost, opened, cell, at_, covers, current, after,
    before, proved⟩ := proven
  exact ⟨m, op, gate, n, atMost, opened, cell, at_, below.trans covers, current, after,
    before.trans later, proved⟩

/-- A grant of a proof is the positive verdict on an open barrier. -/
theorem grants_proven {event : Event χ} {s : State χ}
    (granted : (event.grants s).proven id epoch position) :
    ∃ op gate, s.barriers[op]? = some gate ∧ event.Proves op gate ∧ gate.cell = id ∧
      gate.epoch = epoch ∧ gate.position = position := by
  cases event with
  | durableReached op result =>
    obtain ⟨rfl, gate, found, covers, rfl, rfl, rfl⟩ := granted
    exact ⟨op, gate, found, .inl ⟨result, rfl, covers⟩, rfl, rfl, rfl⟩
  | ownershipVerified op =>
    obtain ⟨rfl, gate, found, rfl, rfl, rfl⟩ := granted
    exact ⟨op, gate, found, .inr rfl, rfl, rfl, rfl⟩
  | ownerRead => exact granted.2.elim
  | nodeLeaseRead => exact granted.2.elim
  | nodeLogRecovered => exact granted.2.elim
  | ownerCasCompleted => exact granted.2.elim
  | _ => exact granted.elim

theorem proves_not_published {event : Event χ} {op : OpId} (proves : event.Proves op gate)
    (s : State χ) (id : CellId) (epoch : Epoch) :
    ¬ Publishes s event id epoch := by
  rintro ⟨_, rfl, _⟩
  rcases proves with ⟨_, eq, _⟩ | eq <;> cases eq

/-- **The proof on a resident cell is a proof of its runtime.** -/
theorem provenAt_since (fresh : r.FreshlyPublished) : ∀ i ≤ r.events.length,
    ∀ id epoch position, (((r.stateAt i).view []).cellAt id).ProvenAt epoch position →
      ∃ k < i, r.ProvenSince i k id epoch position := by
  refine history ?_ ?_
  · intro id epoch position proven
    have blank : ((r.stateAt 0).view []).cellAt id = {} := by
      rw [stateAt_zero]
      simp [State.view, State.gate, Turn.gate, Turn.core, CoreTurn.view, State.new]
    rw [blank] at proven
    cases proven.1
  · intro i event told ih id epoch position proven
    have before : (((r.stateAt i).view []).cellAt id).ProvenAt epoch position ∨
        (event.grants (r.stateAt i)).proven id epoch position :=
      (moves told).provenAt proven
    have within := (lt_length_of_told told).le
    rcases before with before | granted
    · obtain ⟨k, earlier, m, op, gate, n, atMost, opened, cell, at_, covers, current, rest⟩ :=
        ih id epoch position before
      refine ⟨k, earlier.trans (lt_add_one i), m, op, gate, n,
        atMost.trans (Nat.le_succ i), opened, cell, at_, covers, fun j after upTo => ?_, rest⟩
      rcases Nat.lt_succ_iff_lt_or_eq.mp upTo with strictly | rfl
      · exact current j after strictly
      · -- A cell with a proof is resident, so this event does not publish it.
        rintro ⟨_, told', _, rfl, publishing⟩
        obtain ⟨_, found, phase⟩ := Option.map_eq_some_iff.mp publishing
        have resident := before.1
        rw [State.view_cellAt found, phase] at resident
        cases resident
    · obtain ⟨op, gate, found, proves, rfl, rfl, rfl⟩ := grants_proven granted
      obtain ⟨m, earlier, opened, _⟩ := opened r i within op gate found
      refine ⟨i, lt_add_one i, m, op, gate, i, earlier.le.trans (Nat.le_succ i), opened, rfl,
        rfl, le_refl _, fun j after upTo => ?_, earlier, le_refl i, event,
          gate, told, found, proves⟩
      rcases Nat.lt_succ_iff_lt_or_eq.mp upTo with strictly | rfl
      · exact opened.current fresh within found after strictly
      · rintro ⟨_, told', publishes⟩
        rw [told] at told'
        cases told'
        exact proves_not_published proves _ _ _ publishes

/-- A read-only output whose residency has a proof of what it observed. -/
theorem readProven_since {held : Held χ} {observed : ℕ} (fresh : r.FreshlyPublished)
    (within : i ≤ r.events.length) (proven : (r.stateAt i).ReadProven held (some observed)) :
    ∃ id epoch, (r.stateAt i).residentCell held.request = some (id, epoch) ∧
      ∃ k < i, r.ProvenSince i k id epoch observed := by
  obtain ⟨id, epoch, resident, covers⟩ := proven observed rfl
  refine ⟨id, epoch, resident, ?_⟩
  obtain ⟨_, found, phase⟩ := residentCell_cell resident
  simp only [Core.provenCovers, found, Option.bind_some] at covers
  obtain ⟨⟨provenAt, highest⟩, record, reaches⟩ := (Option.any_eq_true _ _).mp covers
  simp only [Bool.and_eq_true, decide_eq_true_eq] at reaches
  obtain ⟨rfl, reaches⟩ := reaches
  have onRecord : (((r.stateAt i).view []).cellAt id).ProvenAt provenAt highest := by
    rw [State.view_cellAt found]
    exact ⟨phase, record⟩
  obtain ⟨k, earlier, since⟩ := provenAt_since fresh i within id provenAt highest onRecord
  exact ⟨k, earlier, since.mono reaches (le_refl k)⟩

/-- Reader safety for an output that no other shares its channel with. -/
theorem Unshared.read_proven {held : Held χ} {event : Event χ} {observed : ℕ}
    (unshared : r.Unshared i held)
    (fresh : r.FreshlyPublished) (read : r.events[i]? = some event)
    (output : event.output? = some (held, none, some observed))
    (released : .release held.request held.channel (.ok ()) ∈ r.effectsAt k) :
    ∃ id epoch, (r.stateAt i).residentCell held.request = some (id, epoch) ∧
      r.ProvenSince i k id epoch observed := by
  obtain ⟨cause, told, _⟩ := told_of_effect released
  have within := lt_length_of_told told
  rcases (gateStep told).released _ _ (mem_outputs released rfl) with
    ⟨observed', output', proven⟩ | ⟨op, gate, found, proves, owner | follower⟩
  · obtain ⟨rfl, _, rfl⟩ := unshared.carried read output told output'
    obtain ⟨id, epoch, resident, k', earlier, since⟩ := readProven_since fresh within.le proven
    exact ⟨id, epoch, resident, since.mono (le_refl _) earlier.le⟩
  · obtain ⟨m, before, opened, openedFor⟩ := opened r k within.le op gate found
    obtain ⟨⟨_, at_, observed', there, output', covers⟩, resident⟩ := openedFor _ owner
    obtain ⟨rfl, rfl, rfl⟩ := unshared.carried read output there output'
    have same : observed = gate.position := by simpa using covers
    refine ⟨gate.cell, gate.epoch, resident, m, op, gate, k, le_refl m, opened, rfl, rfl, same.le,
      fun j after upTo => absurd (after.trans upTo) (Nat.lt_irrefl m), before, le_refl k,
      cause, gate, told, found, proves⟩
  · obtain ⟨m, before, taken, _, observed', there, output', how⟩ :=
      followed r k within.le op gate found _ follower
    obtain ⟨rfl, _, rfl⟩ := unshared.carried read output there output'
    rcases how with proven | ⟨at_, id, epoch, eq, resident, on, covers⟩
    · obtain ⟨id, epoch, resident, k', earlier, since⟩ :=
        readProven_since fresh (before.trans within).le proven
      exact ⟨id, epoch, resident, since.mono (le_refl _) (earlier.trans before).le⟩
    · cases eq
      simp only [Barrier.isOn, Bool.and_eq_true, decide_eq_true_eq] at on
      obtain ⟨first, earlier, opened, _⟩ := opened r k within.le op gate found
      have atMost : first ≤ m :=
        Nat.lt_succ_iff.mp (opened.before (earlier.trans within).le taken)
      refine ⟨id, epoch, resident, first, op, gate, k, atMost, opened, on.1, on.2, covers,
        fun j after upTo => ?_, earlier, le_refl k, cause, gate, told, found, proves⟩
      rw [← on.1, ← on.2]
      exact opened.current fresh within.le found after (upTo.trans before)

/-- **Reader safety.**  In a run that publishes no cell over an open barrier of its
epoch, a read-only output that observed a commit is released only after a barrier
of the same runtime, at or above the commit, was proved. -/
theorem read_release_proven (r : Run χ) (fresh : r.tagged.FreshlyPublished) {request : RequestId}
    {channel : χ} {event : Event χ} {observed : ℕ} (read : r.events[i]? = some event)
    (output : event.output? = some (⟨request, channel⟩, none, some observed))
    (released : .release request (channel, i) (.ok ()) ∈ r.tagged.effectsAt k) :
    ∃ id epoch, (r.tagged.stateAt i).residentCell request = some (id, epoch) ∧
      r.tagged.ProvenSince i k id epoch observed := by
  obtain ⟨told, carries⟩ := tagged_output read output
  exact tagged_unshared.read_proven fresh told carries released

/-- A write at position 5 is proved by the fleet, and a reader of it follows. -/
def readAfterProof : Run Unit :=
  booted [.output 1 () (some 5) none none, .durableReached 6 (.ok 5) .fleet,
    .output 1 () none (some 5) none]

theorem readAfterProof_freshlyPublished : readAfterProof.tagged.FreshlyPublished := by
  rintro j _ _ ⟨_, told, _, rfl, _⟩ _ _ found
  have within : j < 9 := lt_length_of_told told
  have empty : (readAfterProof.tagged.stateAt 5).barriers.isEmpty = true := by decide +kernel
  interval_cases j <;> cases told
  rw [Std.ExtTreeMap.isEmpty_iff.mp empty] at found
  simp at found

theorem readAfterProof_release_proven :
    ∃ id epoch, (readAfterProof.tagged.stateAt 8).residentCell 1 = some (id, epoch) ∧
      readAfterProof.tagged.ProvenSince 8 8 id epoch 5 :=
  read_release_proven readAfterProof readAfterProof_freshlyPublished rfl rfl (by decide +kernel)

/-- An export ticket is open at position 10 when a generation swap restarts the
runtime.  Its fleet proof arrives in the new residency, whose positions have started
over, and lets a reader of the new commit 5 out. -/
def swapOverExport : Run Unit :=
  booted [.exportTicket "a" 1 10 77, .activityFinished 1, .generationChanged 2 100 1000 [],
    .runtimeStopped 7, .runtimeStarted 8 none 2 (.ok ()), .published 9 (.ok ()),
    .request 2 "a", .durableReached 6 (.ok 10) .fleet, .output 2 () none (some 5) none]

theorem swapOverExport_republished : swapOverExport.tagged.PublishedAt 11 "a" 1 :=
  ⟨.published 9 (.ok ()), rfl, 9, rfl, by decide +kernel⟩

/-- A proof of an earlier runtime lets a reader of a later one out. -/
theorem export_proof_crosses_swap :
    swapOverExport.events[14]? = some (.output 2 () none (some 5) none) ∧
      .release 2 ((), 14) (.ok ()) ∈ swapOverExport.tagged.effectsAt 14 ∧
      (swapOverExport.tagged.stateAt 14).residentCell 2 = some ("a", 1) ∧
      ¬ swapOverExport.tagged.ProvenSince 14 14 "a" 1 5 := by
  refine ⟨rfl, by decide +kernel, by decide +kernel, ?_⟩
  rintro ⟨m, op, _, n, atMost, opened, _, _, _, current, _, _, event, _, told, _, proves⟩
  -- The one event that settles a barrier settles the export ticket's.
  have ticket : op = 6 := by
    rcases proves with ⟨_, rfl, _⟩ | rfl <;> interval_cases n <;> cases told
    rfl
  have taken : (swapOverExport.tagged.stateAt 7).nextOp = 7 := by decide +kernel
  have early : m < 7 := by
    refine opened.before (atMost.trans (by decide)) ?_
    rw [ticket, taken]
    decide
  exact current 11 (by omega) (by decide) swapOverExport_republished

end Run

end Celld
