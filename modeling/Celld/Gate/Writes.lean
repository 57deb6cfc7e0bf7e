import Celld.Moves.History

/-!
# The output gate releases a write only with a proof

`Celld.Gate.Barriers` says what one event does to the barriers.  Here a barrier is
followed through a whole run: back to the output that opened it (`OpenedAt`), and
forward to the proof that settles it.

### Which output a release answers

A release names a request and a channel, and a request may raise many outputs on
one channel.  An output that is `Unshared` is the one a release of it
answers, and for such an output safety is proved of the run itself.  For the others
the run is instrumented: the core stores the channel of an output and never reads it,
so `Run.tagged` pairs it with the index of the output's event.
-/

namespace Celld

variable {χ : Type}

/-! ## Tags -/

theorem Event.map_output? {ψ : Type} (f : χ → ψ) (event : Event χ) :
    (f <$> event).output?
      = event.output?.map fun (held, positions) => (⟨held.request, f held.channel⟩, positions) := by
  cases event <;> rfl

namespace Run

variable (r : Run χ)

/-- The instrumented run: the channel of an output carries the index of its
event. -/
def tagged : Run (χ × ℕ) where
  node := r.node
  config := r.config
  events := r.events.mapIdx fun i event => (·, i) <$> event

variable {r} {i j k : ℕ} {event : Event χ}

theorem tagged_event (r : Run χ) (i : ℕ) :
    r.tagged.events[i]? = (r.events[i]?).map ((·, i) <$> ·) :=
  List.getElem?_mapIdx

/-- Without its tags, the instrumented run is told what the run is told. -/
theorem tagged_erase (r : Run χ) : r.tagged.events.map (Prod.fst <$> ·) = r.events := by
  refine List.ext_getElem? fun i => ?_
  rw [List.getElem?_map, tagged_event, Option.map_map]
  simp [Function.comp_def]

theorem tagged_output {held : Held χ} {position observed : Option ℕ}
    (told : r.events[i]? = some event) (output : event.output? = some (held, position, observed)) :
    r.tagged.events[i]? = some ((·, i) <$> event) ∧
      Event.output? ((·, i) <$> event)
        = some (⟨held.request, (held.channel, i)⟩, position, observed) := by
  rw [tagged_event, told, Event.map_output?, output]
  exact ⟨rfl, rfl⟩

/-- No other event of the run raises the output. -/
def Unshared (r : Run χ) (i : ℕ) (held : Held χ) : Prop :=
  ∀ j event position observed, r.events[j]? = some event →
    event.output? = some (held, position, observed) → j = i

/-- An output of the instrumented run carries its own index. -/
theorem tagged_unshared {request : RequestId} {channel : χ} :
    r.tagged.Unshared i ⟨request, (channel, i)⟩ := by
  intro j event position observed told output
  rw [tagged_event] at told
  obtain ⟨original, _, rfl⟩ := Option.map_eq_some_iff.mp told
  rw [Event.map_output?] at output
  obtain ⟨⟨_, _⟩, _, same⟩ := Option.map_eq_some_iff.mp output
  cases same
  rfl

theorem Unshared.carried {held : Held χ} {position observed at_ observed' : Option ℕ}
    {other : Event χ} (unshared : r.Unshared i held) (told : r.events[i]? = some event)
    (output : event.output? = some (held, position, observed)) (there : r.events[j]? = some other)
    (again : other.output? = some (held, at_, observed')) :
    j = i ∧ at_ = position ∧ observed' = observed := by
  obtain rfl := unshared j other _ _ there again
  rw [there] at told
  cases told
  rw [again] at output
  cases output
  exact ⟨rfl, rfl, rfl⟩

/-! ## Following a barrier -/

/-- Event `m` opened the barrier: its id was still to come before the event, and it
is open after it. -/
def OpenedAt (r : Run χ) (m : ℕ) (op : OpId) (barrier : Barrier χ) : Prop :=
  (r.stateAt m).nextOp ≤ op ∧
    ∃ opened, (r.stateAt (m + 1)).barriers[op]? = some opened ∧ opened.Same barrier

/-- The output that a barrier was opened for. -/
structure OpenedFor (r : Run χ) (m : ℕ) (barrier : Barrier χ) (held : Held χ) : Prop where
  output : ∃ event position observed, r.events[m]? = some event ∧
    event.output? = some (held, position, observed) ∧
    (position = some barrier.position ∨ position = none ∧ observed = some barrier.position)
  resident : (r.stateAt m).residentCell held.request = some (barrier.cell, barrier.epoch)

/-- **Every open barrier was opened by an earlier event**, and one that holds an
output by the event of that output. -/
theorem opened (r : Run χ) : ∀ i ≤ r.events.length, ∀ op barrier,
    (r.stateAt i).barriers[op]? = some barrier → ∃ m < i, r.OpenedAt m op barrier ∧
      ∀ held, barrier.owner = .output held → r.OpenedFor m barrier held := by
  refine history ?_ ?_
  · intro op barrier found
    rw [stateAt_zero] at found
    simp [State.new] at found
  · intro i event told ih op barrier found
    rcases (gateStep told).barriers op barrier found with ⟨earlier, there, grew⟩ | ⟨later, fresh⟩
    · obtain ⟨m, before, ⟨next, opened, open_, same⟩, owner⟩ := ih op earlier there
      refine ⟨m, before.trans (lt_add_one i),
        ⟨next, opened, open_, same.trans grew.same⟩, fun held eq => ?_⟩
      obtain ⟨output, resident⟩ := owner held (grew.same.owner.symm.trans eq)
      refine ⟨?_, ?_⟩
      · rw [grew.same.position]
        exact output
      · rw [grew.same.cell, grew.same.epoch]
        exact resident
    · refine ⟨i, lt_add_one i, ⟨later, barrier, found, .refl barrier⟩, fun held eq => ?_⟩
      obtain ⟨position, observed, output, resident, covers⟩ := fresh.owner held eq
      exact ⟨⟨event, position, observed, told, output, covers⟩, resident⟩

/-- An event that finds a barrier open comes after the event that opened it. -/
theorem OpenedAt.before {m : ℕ} {op : OpId} {barrier : Barrier χ} (opened : r.OpenedAt m op barrier)
    (within : m ≤ r.events.length) (bound : op < (r.stateAt j).nextOp) : m < j := by
  by_contra later
  have mono := nextOp_mono (Nat.not_lt.mp later) within
  exact absurd (bound.trans_le (mono.trans opened.1)) (Nat.lt_irrefl op)

theorem isOn_same {before after : Barrier χ} (same : before.Same after) :
    after.isOn = before.isOn := by
  funext cell epoch
  rw [Barrier.isOn, Barrier.isOn, same.cell, same.epoch]

/-- How an output came to follow a barrier: it is read-only, and at that moment its
residency had a proof of what it observed, or the barrier itself covers it. -/
structure Followed (r : Run χ) (m : ℕ) (barrier : Barrier χ) (held : Held χ) : Prop where
  output : ∃ event observed, r.events[m]? = some event ∧
    event.output? = some (held, none, observed) ∧
    ((r.stateAt m).ReadProven held observed ∨ ∃ at_ cell epoch, observed = some at_ ∧
      (r.stateAt m).residentCell held.request = some (cell, epoch) ∧
      barrier.isOn cell epoch = true ∧ at_ ≤ barrier.position)

theorem Followed.of_grant {barrier host : Barrier χ} {held : Held χ}
    (told : r.events[i]? = some event) (same : host.Same barrier)
    (granted : (event.gateGrants (r.stateAt i)).follows held host) :
    r.Followed i barrier held := by
  obtain ⟨observed, output, proven | ⟨at_, cell, epoch, eq, resident, on, covers⟩⟩ := granted
  · exact ⟨event, observed, told, output, .inl proven⟩
  · refine ⟨event, observed, told, output, .inr ⟨at_, cell, epoch, eq, resident, ?_, ?_⟩⟩
    · rw [isOn_same same]
      exact on
    · rw [same.position]
      exact covers

/-- **Every follower of an open barrier is a read-only output** of an earlier
event, at which the barrier's id was already taken. -/
theorem followed (r : Run χ) : ∀ i ≤ r.events.length, ∀ op barrier,
    (r.stateAt i).barriers[op]? = some barrier → ∀ held ∈ barrier.followers,
      ∃ m < i, op < (r.stateAt (m + 1)).nextOp ∧ r.Followed m barrier held := by
  refine history ?_ ?_
  · intro op barrier found
    rw [stateAt_zero] at found
    simp [State.new] at found
  · intro i _ told ih op barrier found held member
    have step := gateStep told
    have taken : op < (r.stateAt (i + 1)).nextOp := step.bound op barrier found
    rcases step.barriers op barrier found with ⟨earlier, there, grew⟩ | ⟨_, fresh⟩
    · rcases grew.followers held member with old | ⟨host, same, granted⟩
      · obtain ⟨m, before, below, event', observed, told', output, how⟩ :=
          ih op earlier there held old
        refine ⟨m, before.trans (lt_add_one i), below, event', observed, told', output, ?_⟩
        rw [isOn_same grew.same, grew.same.position]
        exact how
      · exact ⟨i, lt_add_one i, taken, .of_grant told same granted⟩
    · obtain ⟨host, same, granted⟩ := fresh.followers held member
      exact ⟨i, lt_add_one i, taken, .of_grant told same granted⟩

theorem covered_ok {gate : Barrier χ} {result : Except Failure ℕ}
    (covers : gate.covered result = true) :
    ∃ durable, result = .ok durable ∧ gate.position ≤ durable := by
  cases result with
  | error => cases covers
  | ok durable => exact ⟨durable, rfl, by simpa [Barrier.covered] using covers⟩

theorem covered_same {before after : Barrier χ} (same : before.Same after)
    {result : Except Failure ℕ} (covers : before.covered result = true) :
    after.covered result = true := by
  unfold Barrier.covered at covers ⊢
  rw [same.position]
  exact covers

/-- **An ownership read is asked only after a bucket proof** that covers the
barrier. -/
theorem asked (r : Run χ) : ∀ i ≤ r.events.length, ∀ op barrier,
    (r.stateAt i).barriers[op]? = some barrier → ∀ j < i, ∀ cell epoch,
      .verifyOwnership op cell epoch ∈ r.effectsAt j →
        ∃ result, r.events[j]? = some (.durableReached op result .bucket) ∧
          barrier.covered result = true := by
  refine history ?_ ?_
  · intro op barrier _ j before
    exact absurd before (Nat.not_lt_zero j)
  · intro i _ told ih op barrier found j before cell epoch raised
    obtain ⟨_, told', _⟩ := told_of_effect raised
    have step := gateStep told'
    have taken := (step.asked op cell epoch (mem_outputs raised rfl)).1
    rcases Nat.lt_succ_iff_lt_or_eq.mp before with earlier | rfl
    · rcases (gateStep told).barriers op barrier found with ⟨old, there, grew⟩ | ⟨later, _⟩
      · obtain ⟨result, proof, covers⟩ := ih op old there j earlier cell epoch raised
        exact ⟨result, proof, covered_same grew.same covers⟩
      · -- An id that was already asked about cannot be still to come.
        have mono := nextOp_mono earlier (lt_length_of_told told).le
        exact absurd (taken.trans_le (mono.trans later)) (Nat.lt_irrefl op)
    · obtain ⟨_, same, result, rfl, covers⟩ :=
        (step.asked op cell epoch (mem_outputs raised rfl)).2 barrier found
      exact ⟨result, told', covered_same same covers⟩

/-! ## Write safety -/

/-- The shell reports on an ownership read only when it was asked for one. -/
def Answered (r : Run χ) : Prop :=
  ∀ k op result, r.events[k]? = some (.ownershipVerified op result) →
    ∃ j < k, ∃ cell epoch, .verifyOwnership op cell epoch ∈ r.effectsAt j

/-- The barrier was proved between two events of the run: by the fleet, or by the
bucket and then by an ownership read. -/
def ProvenBy (r : Run χ) (op : OpId) (position i k : ℕ) : Prop :=
  ∃ j durable source, i < j ∧ j ≤ k ∧ position ≤ durable ∧
    r.events[j]? = some (.durableReached op (.ok durable) source) ∧
    (source = .bucket → ∃ l, j < l ∧ l ≤ k ∧ r.events[l]? = some (.ownershipVerified op (.ok ())))

/-- A barrier that an event settles with a positive verdict has been proved. -/
theorem provenBy_of_proves {op : OpId} {gate : Barrier χ} {m : ℕ} (answered : r.Answered)
    (told : r.events[k]? = some event) (found : (r.stateAt k).barriers[op]? = some gate)
    (opened : r.OpenedAt m op gate) (before : m < k) (proves : event.Proves op gate)
    (output : ∀ result source, r.events[m]? ≠ some (.durableReached op result source)) :
    r.ProvenBy op gate.position m k := by
  have within := lt_length_of_told told
  rcases proves with ⟨result, rfl, covers⟩ | rfl
  · obtain ⟨durable, rfl, reaches⟩ := covered_ok covers
    exact ⟨k, durable, .fleet, before, le_refl k, reaches, told, by rintro ⟨⟩⟩
  · obtain ⟨j, earlier, cell, epoch, raised⟩ := answered k op _ told
    obtain ⟨result, proof, covers⟩ := asked r k within.le op gate found j earlier cell epoch raised
    obtain ⟨durable, rfl, reaches⟩ := covered_ok covers
    have taken : op < (r.stateAt (j + 1)).nextOp :=
      ((gateStep proof).asked op cell epoch (mem_outputs raised rfl)).1
    have atMost : m ≤ j := Nat.lt_succ_iff.mp (opened.before (before.trans within).le taken)
    have differs : m ≠ j := by
      rintro rfl
      exact output _ _ proof
    exact ⟨j, durable, .bucket, lt_of_le_of_ne atMost differs, earlier.le, reaches, proof,
      fun _ => ⟨k, earlier, le_refl k, told⟩⟩

/-- Write safety for an output that no other shares its channel with. -/
theorem Unshared.write_proven {held : Held χ} {position : ℕ} {observed : Option ℕ}
    (unshared : r.Unshared i held) (answered : r.Answered) (write : r.events[i]? = some event)
    (output : event.output? = some (held, some position, observed))
    (released : .release held.request held.channel (.ok ()) ∈ r.effectsAt k) :
    ∃ op gate, gate.owner = .output held ∧ gate.position = position ∧
      (r.stateAt i).residentCell held.request = some (gate.cell, gate.epoch) ∧
      r.OpenedAt i op gate ∧ r.ProvenBy op position i k := by
  obtain ⟨_, told, _⟩ := told_of_effect released
  have within := lt_length_of_told told
  rcases (gateStep told).released _ _ (mem_outputs released rfl) with
    ⟨observed', output', _⟩ | ⟨op, gate, found, proves, owner | follower⟩
  · exact absurd (unshared.carried write output told output').2.1 (by simp)
  · obtain ⟨m, before, opened, openedFor⟩ := opened r k within.le op gate found
    obtain ⟨⟨_, _, observed', there, output', covers⟩, resident⟩ := openedFor _ owner
    obtain ⟨rfl, rfl, _⟩ := unshared.carried write output there output'
    have same : gate.position = position := by simpa [eq_comm] using covers
    refine ⟨op, gate, owner, same, resident, opened, same ▸ ?_⟩
    refine provenBy_of_proves answered told found opened before proves fun result source eq => ?_
    rw [there] at eq
    cases eq
    cases output'
  · obtain ⟨m, _, _, _, observed', there, output', _⟩ :=
      followed r k within.le op gate found _ follower
    exact absurd (unshared.carried write output there output').2.1 (by simp)

/-- **Write safety.**  In a run whose ownership reads are all answers, an output
that carried a position is released only after a proof that covers the position
reached the very barrier opened for it, at the cell and epoch its request ran at;
and a proof by the bucket was followed by a verified ownership read. -/
theorem write_release_proven (r : Run χ) (answered : r.tagged.Answered) {request : RequestId}
    {channel : χ} {event : Event χ} {position : ℕ} {observed : Option ℕ}
    (write : r.events[i]? = some event)
    (output : event.output? = some (⟨request, channel⟩, some position, observed))
    (released : .release request (channel, i) (.ok ()) ∈ r.tagged.effectsAt k) :
    ∃ op gate, gate.owner = .output ⟨request, (channel, i)⟩ ∧ gate.position = position ∧
      (r.tagged.stateAt i).residentCell request = some (gate.cell, gate.epoch) ∧
      r.tagged.OpenedAt i op gate ∧ r.tagged.ProvenBy op position i k := by
  obtain ⟨told, carries⟩ := tagged_output write output
  exact tagged_unshared.write_proven answered told carries released

/-- A write at position 5, proved by the bucket up to 7 and verified. -/
def verifiedWrite : Run Unit :=
  booted [.output 1 () (some 5) none none, .durableReached 6 (.ok 7) .bucket,
    .ownershipVerified 6 (.ok ())]

theorem verifiedWrite_answered : verifiedWrite.tagged.Answered := by
  intro k _ _ told
  have within : k < 9 := lt_length_of_told told
  have asks : .verifyOwnership 6 "a" 1 ∈ verifiedWrite.tagged.effectsAt 7 := by decide +kernel
  interval_cases k <;> cases told
  exact ⟨7, by decide, "a", 1, asks⟩

theorem verifiedWrite_release_proven :
    ∃ op gate, gate.owner = .output ⟨1, ((), 6)⟩ ∧ gate.position = 5 ∧
      (verifiedWrite.tagged.stateAt 6).residentCell 1 = some (gate.cell, gate.epoch) ∧
      verifiedWrite.tagged.OpenedAt 6 op gate ∧ verifiedWrite.tagged.ProvenBy op 5 6 8 :=
  write_release_proven verifiedWrite verifiedWrite_answered rfl rfl (by decide +kernel)

/-- The same write, told of an ownership read that was never asked for. -/
def unaskedWrite : Run Unit :=
  booted [.output 1 () (some 5) none none, .ownershipVerified 6 (.ok ())]

/-- A barrier is settled by any report on its id: without the shell's promise, the
write leaves with no proof at all. -/
theorem unasked_verification_releases :
    unaskedWrite.events[6]? = some (.output 1 () (some 5) none none) ∧
      .release 1 ((), 6) (.ok ()) ∈ unaskedWrite.tagged.effectsAt 7 ∧
      ∀ op, ¬ unaskedWrite.tagged.ProvenBy op 5 6 7 := by
  refine ⟨rfl, by decide +kernel, ?_⟩
  rintro op ⟨j, _, _, _, _, _, told, _⟩
  interval_cases j
  cases told

end Run

end Celld
