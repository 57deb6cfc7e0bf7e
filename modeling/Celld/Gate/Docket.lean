import Celld.Gate.Barriers

/-!
# What the gate owes

An output that is withheld is owed a release, and an export ticket a verdict.  A barrier stores
what it owes: its owner, the outputs that follow it, the tickets that ride it.  `Docket` adds to
the barriers of a turn what is owed but stored nowhere at the moment: the output or the ticket an
event brings, and what a barrier that was just removed has left behind.

A `DocketMove` passes something owed from one place to another, or answers it.  So the debts of a
docket, those already answered included, never change (`DocketMoves.total`): nothing owed is
dropped, and nothing is answered twice.  What a positive verdict on a ticket rests on is asked of
the moves by an `Evidence`.
-/

namespace Celld

open List Barrier

variable {χ : Type} {after : Option (Barrier χ)}

/-- What waits for an answer: an output, or an export ticket with the residency and the position
it stands for. -/
inductive Owed (χ : Type) where
  | output (held : Held χ)
  | ticket (cell : CellId) (epoch : Epoch) (position ticket : ℕ)
  deriving DecidableEq

/-- What an answer names. -/
inductive Debt (χ : Type) where
  | output (held : Held χ)
  | ticket (ticket : ℕ)
  deriving DecidableEq

namespace Owed

def debt : Owed χ → Debt χ
  | .output held => .output held
  | .ticket _ _ _ number => .ticket number

def answer (result : Except RequestError Unit) : Owed χ → Effect χ
  | .output held => .release held.request held.channel result
  | .ticket cell epoch _ number => .exportProven cell epoch number result

end Owed

namespace Effect

/-- The debt an effect answers. -/
def debt? : Effect χ → Option (Debt χ)
  | .release request channel _ => some (.output ⟨request, channel⟩)
  | .exportProven _ _ ticket _ => some (.ticket ticket)
  | _ => none

/-- The effect answers nothing and asks for no ownership read. -/
def idle : Effect χ → Bool
  | .release _ _ _ | .exportProven _ _ _ _ | .verifyOwnership _ _ _ => false
  | _ => true

@[simp] theorem debt?_answer (owed : Owed χ) (result : Except RequestError Unit) :
    (owed.answer result).debt? = some owed.debt := by
  cases owed <;> rfl

theorem debt?_of_idle {effect : Effect χ} (idle : effect.idle = true) : effect.debt? = none := by
  cases effect <;> first | rfl | cases idle

end Effect

namespace Barrier

/-- A ticket that rides the barrier. -/
def rides (barrier : Barrier χ) (rider : Rider) : Owed χ :=
  .ticket barrier.cell barrier.epoch rider.position rider.ticket

def ownerOwes (barrier : Barrier χ) : List (Owed χ) :=
  match barrier.owner with
  | .output held => [.output held]
  | .alarm _ _ _ => []
  | .export ticket => [.ticket barrier.cell barrier.epoch barrier.position ticket]

/-- What the barrier stores. -/
def owes (barrier : Barrier χ) : List (Owed χ) :=
  barrier.ownerOwes ++ barrier.followers.map .output ++ barrier.riders.map barrier.rides

theorem failure_eq (barrier : Barrier χ) (error : RequestError) :
    barrier.failure error = barrier.owes.map (Owed.answer (.error error)) := by
  have owner : barrier.ownerFailure error = barrier.ownerOwes.map (Owed.answer (.error error)) := by
    unfold ownerFailure ownerOwes
    cases barrier.owner <;> rfl
  simp only [failure, owes, owner, followerFailures, riderVerdicts, map_append, map_map]
  rfl

/-- Followers and riders of a new barrier come later. -/
structure Blank (barrier : Barrier χ) : Prop where
  followers : barrier.followers = []
  riders : barrier.riders = []
  verifying : barrier.verifying = false

end Barrier

/-- The evidence a ticket has, by its residency, position and number. -/
structure Evidence where
  /-- A proof that covers the ticket's position has reached a barrier for it. -/
  landed : CellId → Epoch → ℕ → ℕ → Prop
  /-- The verdict on the ticket may be positive. -/
  proves : CellId → Epoch → ℕ → ℕ → Prop

/-- The answer is one the evidence allows. -/
def Owed.Earns (V : Evidence) (result : Except RequestError Unit) : Owed χ → Prop
  | .output _ => True
  | .ticket cell epoch position number => result = .ok () → V.proves cell epoch position number

/-- The barriers, what is owed outside them, and what was told. -/
structure Docket (χ : Type) where
  nextOp : OpId
  barriers : OpId → Option (Barrier χ)
  pending : Multiset (Owed χ)
  told : List (Effect χ)

namespace Docket

def put (d : Docket χ) (op : OpId) (barrier : Option (Barrier χ)) : Docket χ :=
  { d with barriers := Function.update d.barriers op barrier }

@[simp] theorem put_barriers_self (d : Docket χ) (op : OpId) (barrier : Option (Barrier χ)) :
    (d.put op barrier).barriers op = barrier := Function.update_self _ _ _

theorem put_barriers_of_ne (d : Docket χ) {op other : OpId} (barrier : Option (Barrier χ))
    (differs : other ≠ op) : (d.put op barrier).barriers other = d.barriers other :=
  Function.update_of_ne differs _ _

end Docket

/-- **One move of a debt.** -/
inductive DocketMove (V : Evidence) (d : Docket χ) : Docket χ → Prop
  | spend (nextOp : OpId) (later : d.nextOp ≤ nextOp) : DocketMove V d { d with nextOp := nextOp }
  | tell (effects : List (Effect χ)) (idle : ∀ effect ∈ effects, effect.idle = true) :
      DocketMove V d { d with told := d.told ++ effects }
  /-- A barrier is opened for an owner that is owed an answer, or for an alarm. -/
  | openUp (barrier : Barrier χ) (blank : barrier.Blank) (rest : Multiset (Owed χ))
      (taken : d.pending = rest + barrier.ownerOwes) :
      DocketMove V d { d.put d.nextOp (some barrier) with nextOp := d.nextOp + 1, pending := rest }
  | follow (op : OpId) (barrier : Barrier χ) (held : Held χ) (rest : Multiset (Owed χ))
      (mem : d.barriers op = some barrier) (trailable : barrier.trailable = true)
      (taken : d.pending = rest + {.output held}) :
      DocketMove V d
        { d.put op (some { barrier with followers := barrier.followers ++ [held] }) with
          pending := rest }
  /-- A ticket rides a barrier that has not asked for its ownership read. -/
  | ride (op : OpId) (barrier : Barrier χ) (riders : List Rider) (rest : Multiset (Owed χ))
      (mem : d.barriers op = some barrier) (proving : barrier.verifying = false)
      (within : ∀ rider ∈ riders, rider.position ≤ barrier.position ∨
        V.landed barrier.cell barrier.epoch rider.position rider.ticket)
      (taken : d.pending = rest + (riders.map barrier.rides : List (Owed χ))) :
      DocketMove V d
        { d.put op (some { barrier with riders := barrier.riders ++ riders }) with pending := rest }
  | answer (owed : Owed χ) (result : Except RequestError Unit) (rest : Multiset (Owed χ))
      (taken : d.pending = rest + {owed}) (earns : owed.Earns V result) :
      DocketMove V d { d with pending := rest, told := d.told ++ [owed.answer result] }
  /-- A barrier is removed, and leaves behind what it owes. -/
  | drop (op : OpId) (barrier : Barrier χ) (mem : d.barriers op = some barrier) :
      DocketMove V d { d.put op none with pending := d.pending + barrier.owes }
  /-- The tickets that ride a barrier leave it. -/
  | unhost (op : OpId) (barrier : Barrier χ) (mem : d.barriers op = some barrier) :
      DocketMove V d
        { d.put op (some { barrier with riders := [] }) with
          pending := d.pending + (barrier.riders.map barrier.rides : List (Owed χ)) }
  /-- A barrier takes tickets along and asks for its ownership read: the proofs of all of them
  have landed. -/
  | verify (op : OpId) (barrier : Barrier χ) (riders : List Rider) (rest : Multiset (Owed χ))
      (mem : d.barriers op = some barrier)
      (landed : ∀ cell epoch position ticket, .ticket cell epoch position ticket ∈
        owes { barrier with riders := barrier.riders ++ riders, verifying := true } →
          V.landed cell epoch position ticket)
      (taken : d.pending = rest + (riders.map barrier.rides : List (Owed χ))) :
      DocketMove V d
        { d.put op (some { barrier with
            riders := barrier.riders ++ riders
            verifying := true }) with
          pending := rest
          told := d.told ++ [.verifyOwnership op barrier.cell barrier.epoch] }

/-- A chain of moves. -/
abbrev DocketMoves (V : Evidence) : Docket χ → Docket χ → Prop := Trail (DocketMove V)

namespace DocketMoves

variable {V : Evidence} {c d e : Docket χ}

/-- Everything in a list is answered alike. -/
theorem answers (owed : List (Owed χ)) (result : Except RequestError Unit) (d : Docket χ)
    (rest : Multiset (Owed χ)) (taken : d.pending = rest + owed)
    (earns : ∀ one ∈ owed, one.Earns V result) :
    DocketMoves V d
      { d with pending := rest, told := d.told ++ owed.map (Owed.answer result) } := by
  induction owed generalizing d with
  | nil =>
    have same : d.pending = rest := by simpa using taken
    refine .of_eq ?_
    simp [← same]
  | cons one owed ih =>
    have split : d.pending = (rest + owed) + {one} := by
      rw [taken, ← Multiset.cons_coe, add_assoc, ← Multiset.singleton_add,
        add_comm (owed : Multiset (Owed χ))]
    have first := DocketMove.answer one result (rest + owed) split (earns one (by simp))
    refine (Trail.single first).trans ((ih _ rfl fun other mem => earns other (by simp [mem])).trans
      (.of_eq ?_))
    simp

end DocketMoves

/-! ## Nothing owed is lost -/

/-- What a place in the barriers stores. -/
def Barrier.weighs : Option (Barrier χ) → Multiset (Owed χ)
  | none => 0
  | some barrier => barrier.owes

namespace Docket

variable {d : Docket χ} {op : OpId}

/-- What the barriers store. -/
def stored (d : Docket χ) : Multiset (Owed χ) :=
  ∑ op ∈ Finset.range d.nextOp, weighs (d.barriers op)

/-- No barrier has an id that is still to come. -/
def Bounded (d : Docket χ) : Prop := ∀ op barrier, d.barriers op = some barrier → op < d.nextOp

/-- Every debt: pending, stored or answered. -/
def total (d : Docket χ) : Multiset (Debt χ) :=
  (d.pending + d.stored).map Owed.debt + (d.told.filterMap Effect.debt? : List (Debt χ))

theorem Bounded.absent (bounded : d.Bounded) (late : d.nextOp ≤ op) : d.barriers op = none := by
  cases found : d.barriers op with
  | none => rfl
  | some barrier => exact absurd (bounded op barrier found) (Nat.not_lt.mpr late)

theorem stored_spend (bounded : d.Bounded) {nextOp : OpId} (later : d.nextOp ≤ nextOp) :
    stored { d with nextOp := nextOp } = d.stored := by
  unfold stored
  refine (Finset.sum_subset (Finset.range_mono later) fun op _ late => ?_).symm
  rw [bounded.absent (by simpa using late)]
  rfl

/-- Replacing a barrier exchanges what it stores. -/
theorem stored_put (d : Docket χ) (known : op < d.nextOp) (after : Option (Barrier χ)) :
    (d.put op after).stored + weighs (d.barriers op) = d.stored + weighs after := by
  have mem : op ∈ Finset.range d.nextOp := Finset.mem_range.mpr known
  have others : ∑ other ∈ Finset.range d.nextOp \ {op}, weighs ((d.put op after).barriers other)
      = ∑ other ∈ Finset.range d.nextOp \ {op}, weighs (d.barriers other) := by
    refine Finset.sum_congr rfl fun other mem => ?_
    have differs : other ≠ op := by
      rintro rfl
      simp at mem
    rw [put_barriers_of_ne d after differs]
  have before : d.stored = weighs (d.barriers op)
      + ∑ other ∈ Finset.range d.nextOp \ {op}, weighs (d.barriers other) :=
    Finset.sum_eq_add_sum_sdiff_singleton_of_mem mem _
  have replaced : (d.put op after).stored = weighs ((d.put op after).barriers op)
      + ∑ other ∈ Finset.range d.nextOp \ {op}, weighs ((d.put op after).barriers other) :=
    Finset.sum_eq_add_sum_sdiff_singleton_of_mem mem _
  rw [before, replaced, others, put_barriers_self]
  abel

/-- A barrier that takes more in stores that much more. -/
theorem Bounded.stored_grow (bounded : d.Bounded) {barrier after : Barrier χ}
    {more : Multiset (Owed χ)} (mem : d.barriers op = some barrier)
    (grows : (after.owes : Multiset (Owed χ)) = barrier.owes + more) :
    (d.put op (some after)).stored = d.stored + more := by
  have exchanged := d.stored_put (bounded op barrier mem) (some after)
  rw [mem, weighs, weighs, grows] at exchanged
  refine add_right_cancel (b := (barrier.owes : Multiset (Owed χ))) ?_
  rw [exchanged]
  abel

theorem stored_open (barrier : Barrier χ) :
    stored { d.put d.nextOp (some barrier) with nextOp := d.nextOp + 1 }
      = d.stored + barrier.owes := by
  have earlier : ∀ op ∈ Finset.range d.nextOp,
      weighs ((d.put d.nextOp (some barrier)).barriers op) = weighs (d.barriers op) := by
    intro op mem
    rw [put_barriers_of_ne d _ (Nat.ne_of_lt (Finset.mem_range.mp mem))]
  calc stored { d.put d.nextOp (some barrier) with nextOp := d.nextOp + 1 }
      = ∑ op ∈ Finset.range d.nextOp, weighs ((d.put d.nextOp (some barrier)).barriers op)
          + weighs ((d.put d.nextOp (some barrier)).barriers d.nextOp) :=
        Finset.sum_range_succ _ _
    _ = d.stored + barrier.owes := by
        rw [Finset.sum_congr rfl earlier, put_barriers_self]
        rfl

/-- One barrier is replaced, and the others stay. -/
theorem barriers_put {P : OpId → Barrier χ → Prop}
    (self : ∀ barrier, after = some barrier → P op barrier)
    (others : ∀ other barrier, d.barriers other = some barrier → P other barrier) :
    ∀ other barrier, (d.put op after).barriers other = some barrier → P other barrier := by
  intro other barrier found
  by_cases same : other = op
  · subst same
    rw [put_barriers_self] at found
    exact self barrier found
  · rw [put_barriers_of_ne d after same] at found
    exact others other barrier found

theorem Bounded.put (bounded : d.Bounded) (known : op < d.nextOp) (after : Option (Barrier χ)) :
    (d.put op after).Bounded :=
  barriers_put (fun _ _ => known) bounded

end Docket

namespace Barrier

variable (barrier : Barrier χ)

theorem owes_blank (blank : barrier.Blank) : barrier.owes = barrier.ownerOwes := by
  simp [owes, blank.followers, blank.riders]

theorem owes_follow (held : Held χ) :
    (owes { barrier with followers := barrier.followers ++ [held] } : Multiset (Owed χ))
      = barrier.owes + {.output held} := by
  have owner : ownerOwes { barrier with followers := barrier.followers ++ [held] }
      = barrier.ownerOwes := rfl
  have rides :
    rides { barrier with followers := barrier.followers ++ [held] } = barrier.rides := rfl
  simp only [owes, owner, rides, map_append, map_singleton, ← Multiset.coe_add,
    Multiset.coe_singleton]
  abel

theorem owes_ride (riders : List Rider) (verifying : Bool) :
    (owes { barrier with riders := barrier.riders ++ riders, verifying := verifying } :
        Multiset (Owed χ))
      = barrier.owes + (riders.map barrier.rides : List (Owed χ)) := by
  have owner : ownerOwes
      { barrier with riders := barrier.riders ++ riders, verifying := verifying }
        = barrier.ownerOwes := rfl
  have rides : rides { barrier with riders := barrier.riders ++ riders, verifying := verifying }
      = barrier.rides := rfl
  simp only [owes, owner, rides, map_append, ← Multiset.coe_add]
  abel

theorem owes_unhost :
    (owes { barrier with riders := [] } : Multiset (Owed χ))
        + (barrier.riders.map barrier.rides : List (Owed χ))
      = barrier.owes := by
  have owner : ownerOwes { barrier with riders := [] } = barrier.ownerOwes := rfl
  simp only [owes, owner, map_nil, append_nil, ← Multiset.coe_add]

end Barrier

namespace DocketMove

variable {V : Evidence} {d e : Docket χ}

theorem bounded (move : DocketMove V d e) (bounded : d.Bounded) : e.Bounded := by
  cases move with
  | spend nextOp later => exact fun op barrier found => (bounded op barrier found).trans_le later
  | tell | answer => exact bounded
  | openUp barrier =>
    intro op other found
    by_cases same : op = d.nextOp
    · rw [same]
      exact lt_add_one _
    · have there : (d.put d.nextOp (some barrier)).barriers op = some other := found
      rw [Docket.put_barriers_of_ne d _ same] at there
      exact (bounded op other there).trans (lt_add_one _)
  | follow op barrier _ _ mem | ride op barrier _ _ mem | drop op barrier mem
  | unhost op barrier mem | verify op barrier _ _ mem =>
    exact bounded.put (bounded op barrier mem) _

/-- What is pending and stored after a move, and what the move answered. -/
theorem balance (move : DocketMove V d e) (bounded : d.Bounded) :
    ∃ answered : Multiset (Owed χ), e.pending + e.stored + answered = d.pending + d.stored ∧
      (e.told.filterMap Effect.debt? : Multiset (Debt χ))
        = (d.told.filterMap Effect.debt? : List (Debt χ)) + answered.map Owed.debt := by
  cases move with
  | spend nextOp later =>
    refine ⟨0, ?_, by simp⟩
    rw [Docket.stored_spend bounded later, add_zero]
  | tell effects idle =>
    refine ⟨0, add_zero _, ?_⟩
    have none : effects.filterMap Effect.debt? = [] :=
      filterMap_eq_nil_iff.mpr fun effect mem => Effect.debt?_of_idle (idle effect mem)
    simp [filterMap_append, none]
  | openUp barrier blank rest taken =>
    refine ⟨0, ?_, by simp [Docket.put]⟩
    have stored : Docket.stored { d.put d.nextOp (some barrier) with
        nextOp := d.nextOp + 1, pending := rest } = d.stored + barrier.owes :=
      Docket.stored_open barrier
    rw [stored, barrier.owes_blank blank, taken]
    abel
  | follow op barrier held rest mem trailable taken =>
    refine ⟨0, ?_, by simp [Docket.put]⟩
    change rest + (d.put op _).stored + 0 = _
    rw [bounded.stored_grow mem (barrier.owes_follow held), taken]
    abel
  | ride op barrier riders rest mem proving within taken =>
    refine ⟨0, ?_, by simp [Docket.put]⟩
    change rest + (d.put op _).stored + 0 = _
    rw [bounded.stored_grow mem (barrier.owes_ride riders barrier.verifying), taken]
    abel
  | answer owed result rest taken =>
    refine ⟨{owed}, ?_, by simp [filterMap_append, ← Multiset.coe_add]⟩
    change rest + d.stored + {owed} = _
    rw [taken]
    abel
  | drop op barrier mem =>
    refine ⟨0, ?_, by simp [Docket.put]⟩
    have dropped := d.stored_put (bounded op barrier mem) none
    rw [mem, weighs, weighs, add_zero] at dropped
    change d.pending + barrier.owes + (d.put op none).stored + 0 = _
    rw [← dropped]
    abel
  | unhost op barrier mem =>
    refine ⟨0, ?_, by simp [Docket.put]⟩
    -- The docket before is the one after, with the riders put back.
    have back := d.stored_put (bounded op barrier mem) (some { barrier with riders := [] })
    rw [mem, weighs, weighs, ← barrier.owes_unhost] at back
    have same : (d.put op (some { barrier with riders := [] })).stored
        + (barrier.riders.map barrier.rides : List (Owed χ)) = d.stored := by
      refine add_right_cancel
        (b := (owes { barrier with riders := [] } : Multiset (Owed χ))) ?_
      rw [← back]
      abel
    change d.pending + _ + (d.put op _).stored + 0 = _
    rw [← same]
    abel
  | verify op barrier riders rest mem landed taken =>
    have none : [Effect.verifyOwnership (χ := χ) op barrier.cell barrier.epoch].filterMap
        Effect.debt? = [] := rfl
    refine ⟨0, ?_, by simp [filterMap_append, none]⟩
    change rest + (d.put op _).stored + 0 = _
    rw [bounded.stored_grow mem (barrier.owes_ride riders true), taken]
    abel

/-- **No debt is lost and none is answered twice.** -/
theorem total (move : DocketMove V d e) (bounded : d.Bounded) : e.total = d.total := by
  obtain ⟨_, owed, told⟩ := move.balance bounded
  unfold Docket.total
  rw [← owed, told]
  simp only [Multiset.map_add]
  abel

end DocketMove

theorem DocketMoves.total {V : Evidence} {d e : Docket χ} (moves : DocketMoves V d e)
    (bounded : d.Bounded) : e.Bounded ∧ e.total = d.total := by
  refine moves.invariant (P := fun e => e.Bounded ∧ e.total = d.total) ?_ ⟨bounded, rfl⟩
  rintro _ e move ⟨before, same⟩
  exact ⟨move.bounded before, (move.total before).trans same⟩

/-! ## What a ticket in custody has behind it -/

/-- Where a ticket comes from, and that its ownership read was asked for. -/
structure Custody where
  known : CellId → Epoch → ℕ → ℕ → Prop
  read : OpId → CellId → Epoch → ℕ → ℕ → Prop

/-- What is known of the tickets that a barrier stores. -/
structure Barrier.Vouched (V : Evidence) (K : Custody) (told : List (Effect χ)) (op : OpId)
    (barrier : Barrier χ) : Prop where
  known : ∀ cell epoch position ticket, .ticket cell epoch position ticket ∈ barrier.owes →
    K.known cell epoch position ticket
  /-- The barrier's own proof covers a rider, or the rider's proof landed before. -/
  within : ∀ rider ∈ barrier.riders, rider.position ≤ barrier.position ∨
    V.landed barrier.cell barrier.epoch rider.position rider.ticket
  alone : barrier.isExport = true → barrier.followers = []
  read : barrier.verifying = true → ∀ cell epoch position ticket,
    .ticket cell epoch position ticket ∈ barrier.owes →
      K.read op cell epoch position ticket ∨
        V.landed cell epoch position ticket ∧ .verifyOwnership op cell epoch ∈ told

/-- What is known of every ticket in custody, and of every positive verdict. -/
structure Docket.Vouched (V : Evidence) (K : Custody) (d : Docket χ) : Prop where
  pending : ∀ cell epoch position ticket, .ticket cell epoch position ticket ∈ d.pending →
    K.known cell epoch position ticket
  barriers : ∀ op barrier, d.barriers op = some barrier → barrier.Vouched V K d.told op
  proven : ∀ cell epoch ticket, .exportProven cell epoch ticket (.ok ()) ∈ d.told →
    ∃ position, V.proves cell epoch position ticket

namespace Barrier

variable {V : Evidence} {K : Custody} {told : List (Effect χ)} {op : OpId} {barrier : Barrier χ}

theorem mem_owes {owed : Owed χ} : owed ∈ barrier.owes ↔
    owed ∈ barrier.ownerOwes ∨ (∃ held ∈ barrier.followers, .output held = owed) ∨
      ∃ rider ∈ barrier.riders, barrier.rides rider = owed := by
  simp [owes]

/-- What a barrier stores is of its residency. -/
theorem residency_of_mem {cell : CellId} {epoch : Epoch} {position ticket : ℕ}
    (mem : .ticket cell epoch position ticket ∈ barrier.owes) :
    cell = barrier.cell ∧ epoch = barrier.epoch := by
  rcases mem_owes.mp mem with owner | ⟨_, _, same⟩ | ⟨_, _, same⟩
  · unfold ownerOwes at owner
    split at owner
    · cases mem_singleton.mp owner
    · cases owner
    · cases mem_singleton.mp owner
      exact ⟨rfl, rfl⟩
  · cases same
  · cases same
    exact ⟨rfl, rfl⟩

theorem Vouched.later (vouched : barrier.Vouched V K told op) (effects : List (Effect χ)) :
    barrier.Vouched V K (told ++ effects) op where
  known := vouched.known
  within := vouched.within
  alone := vouched.alone
  read verifying cell epoch position ticket mem :=
    (vouched.read verifying cell epoch position ticket mem).imp_right
      (And.imp_right (mem_append_left effects))

theorem Vouched.follow (vouched : barrier.Vouched V K told op)
    (trailable : barrier.trailable = true)
    (held : Held χ) :
    Vouched V K told op { barrier with followers := barrier.followers ++ [held] } := by
  have same : ∀ cell epoch position ticket, .ticket cell epoch position ticket ∈
      owes { barrier with followers := barrier.followers ++ [held] } →
        .ticket cell epoch position ticket ∈ barrier.owes := by
    intro cell epoch position ticket mem
    rcases mem_owes.mp mem with owner | ⟨_, _, differs⟩ | rider
    · exact mem_owes.mpr (.inl owner)
    · cases differs
    · exact mem_owes.mpr (.inr (.inr rider))
  refine ⟨fun cell epoch position ticket mem => vouched.known _ _ _ _ (same _ _ _ _ mem),
    vouched.within, fun exports => ?_,
    fun verifying _ _ _ _ mem => vouched.read verifying _ _ _ _ (same _ _ _ _ mem)⟩
  have plain : barrier.isExport = false := by simpa [Barrier.trailable] using trailable
  cases plain.symm.trans exports

/-- Tickets that ride a barrier are of its residency. -/
theorem mem_owes_ride (riders : List Rider) (verifying : Bool) {owed : Owed χ}
    (mem : owed ∈
      owes { barrier with riders := barrier.riders ++ riders, verifying := verifying }) :
    owed ∈ barrier.owes ∨ ∃ rider ∈ riders, barrier.rides rider = owed := by
  rcases mem_owes.mp mem with owner | follower | ⟨rider, there, rfl⟩
  · exact .inl (mem_owes.mpr (.inl owner))
  · exact .inl (mem_owes.mpr (.inr (.inl follower)))
  · rcases mem_append.mp there with before | added
    · exact .inl (mem_owes.mpr (.inr (.inr ⟨rider, before, rfl⟩)))
    · exact .inr ⟨rider, added, rfl⟩

theorem Vouched.ride (vouched : barrier.Vouched V K told op) {riders : List Rider}
    (proving : barrier.verifying = false)
    (known : ∀ rider ∈ riders, K.known barrier.cell barrier.epoch rider.position rider.ticket)
    (within : ∀ rider ∈ riders, rider.position ≤ barrier.position ∨
      V.landed barrier.cell barrier.epoch rider.position rider.ticket) :
    Vouched V K told op { barrier with riders := barrier.riders ++ riders } where
  known cell epoch position ticket mem := by
    rcases mem_owes_ride riders barrier.verifying mem with before | ⟨rider, added, same⟩
    · exact vouched.known _ _ _ _ before
    · cases same
      exact known rider added
  within rider mem := (mem_append.mp mem).elim (vouched.within rider) (within rider)
  alone := vouched.alone
  read verifying := by
    cases proving.symm.trans verifying

theorem Vouched.unhost (vouched : barrier.Vouched V K told op) :
    Vouched V K told op { barrier with riders := [] } := by
  have fewer : ∀ owed, owed ∈ owes { barrier with riders := [] } → owed ∈ barrier.owes := by
    intro owed mem
    rcases mem_owes.mp mem with owner | follower | ⟨_, none, _⟩
    · exact mem_owes.mpr (.inl owner)
    · exact mem_owes.mpr (.inr (.inl follower))
    · cases none
  exact ⟨fun _ _ _ _ mem => vouched.known _ _ _ _ (fewer _ mem),
    fun _ none => (not_mem_nil none).elim,
    vouched.alone, fun verifying _ _ _ _ mem => vouched.read verifying _ _ _ _ (fewer _ mem)⟩

theorem Vouched.blank (blank : barrier.Blank)
    (known : ∀ cell epoch position ticket, .ticket cell epoch position ticket ∈ barrier.ownerOwes →
      K.known cell epoch position ticket) : barrier.Vouched V K told op where
  known cell epoch position ticket mem := known _ _ _ _ (barrier.owes_blank blank ▸ mem)
  within rider mem := by
    rw [blank.riders] at mem
    cases mem
  alone _ := blank.followers
  read verifying := by
    cases blank.verifying.symm.trans verifying

end Barrier

namespace Docket

variable {V : Evidence} {K : Custody} {d e : Docket χ} {op : OpId}

theorem Vouched.rest (vouched : d.Vouched V K) {rest more : Multiset (Owed χ)}
    (taken : d.pending = rest + more) :
    (∀ cell epoch position ticket, .ticket cell epoch position ticket ∈ rest →
      K.known cell epoch position ticket) ∧
    ∀ cell epoch position ticket, .ticket cell epoch position ticket ∈ more →
      K.known cell epoch position ticket := by
  constructor <;> intro cell epoch position ticket mem <;>
    refine vouched.pending cell epoch position ticket ?_ <;> rw [taken, Multiset.mem_add]
  · exact .inl mem
  · exact .inr mem

/-- **A move keeps what is known of the tickets.** -/
theorem Vouched.move (vouched : d.Vouched V K) (move : DocketMove V d e) : e.Vouched V K := by
  cases move with
  | spend => exact ⟨vouched.pending, vouched.barriers, vouched.proven⟩
  | tell effects idle =>
    refine ⟨vouched.pending,
      fun op barrier found => (vouched.barriers op barrier found).later _, ?_⟩
    intro cell epoch ticket mem
    rcases mem_append.mp mem with before | told
    · exact vouched.proven cell epoch ticket before
    · cases idle _ told
  | openUp barrier blank rest taken =>
    obtain ⟨known, owner⟩ := vouched.rest taken
    refine ⟨known, barriers_put ?_ vouched.barriers, vouched.proven⟩
    rintro _ ⟨rfl⟩
    exact .blank blank owner
  | follow op barrier held rest mem trailable taken =>
    refine ⟨(vouched.rest taken).1, barriers_put ?_ vouched.barriers, vouched.proven⟩
    rintro _ ⟨rfl⟩
    exact (vouched.barriers op barrier mem).follow trailable held
  | ride op barrier riders rest mem proving within taken =>
    obtain ⟨known, added⟩ := vouched.rest taken
    refine ⟨known, barriers_put ?_ vouched.barriers, vouched.proven⟩
    rintro _ ⟨rfl⟩
    refine (vouched.barriers op barrier mem).ride proving (fun rider there => ?_) within
    exact added _ _ _ _ (Multiset.mem_coe.mpr (mem_map_of_mem there))
  | answer owed result rest taken earns =>
    refine ⟨(vouched.rest taken).1,
      fun op barrier found => (vouched.barriers op barrier found).later _,
      ?_⟩
    intro cell epoch ticket mem
    rcases mem_append.mp mem with before | told
    · exact vouched.proven cell epoch ticket before
    · have same := mem_singleton.mp told
      cases owed with
      | output => cases same
      | ticket =>
        cases same
        exact ⟨_, earns rfl⟩
  | drop op barrier mem =>
    refine ⟨fun cell epoch position ticket there => ?_, barriers_put nofun vouched.barriers,
      vouched.proven⟩
    rcases Multiset.mem_add.mp there with before | left
    · exact vouched.pending _ _ _ _ before
    · exact (vouched.barriers op barrier mem).known _ _ _ _ (Multiset.mem_coe.mp left)
  | unhost op barrier mem =>
    have before := vouched.barriers op barrier mem
    refine ⟨fun cell epoch position ticket there => ?_, barriers_put ?_ vouched.barriers,
      vouched.proven⟩
    · rcases Multiset.mem_add.mp there with pending | left
      · exact vouched.pending _ _ _ _ pending
      · obtain ⟨rider, rode, same⟩ := mem_map.mp (Multiset.mem_coe.mp left)
        exact before.known _ _ _ _ (mem_owes.mpr (.inr (.inr ⟨rider, rode, same⟩)))
    · rintro _ ⟨rfl⟩
      exact before.unhost
  | verify op barrier riders rest mem landed taken =>
    obtain ⟨known, added⟩ := vouched.rest taken
    have before := vouched.barriers op barrier mem
    have all : ∀ other kept, d.barriers other = some kept →
        kept.Vouched V K (d.told ++ [.verifyOwnership op barrier.cell barrier.epoch]) other :=
      fun other kept found => (vouched.barriers other kept found).later _
    refine ⟨known, barriers_put ?_ all, ?_⟩
    · rintro _ ⟨rfl⟩
      refine ⟨fun cell epoch position ticket there => ?_, fun rider there => ?_, before.alone,
        fun _ cell epoch position ticket there => .inr ⟨landed _ _ _ _ there, ?_⟩⟩
      · rcases mem_owes_ride riders true there with carried | ⟨rider, taken, same⟩
        · exact before.known _ _ _ _ carried
        · cases same
          exact added _ _ _ _ (Multiset.mem_coe.mpr (mem_map_of_mem taken))
      · exact .inr (landed _ _ _ _ (mem_owes.mpr (.inr (.inr ⟨rider, there, rfl⟩))))
      · obtain ⟨rfl, rfl⟩ := residency_of_mem there
        exact mem_append_right _ (mem_singleton.mpr rfl)
    · intro cell epoch ticket told
      rcases mem_append.mp told with earlier | asked
      · exact vouched.proven cell epoch ticket earlier
      · cases mem_singleton.mp asked

/-- An ownership read that was asked for is that of a barrier in verification, or of none. -/
def Asked (d : Docket χ) : Prop :=
  ∀ op cell epoch, .verifyOwnership op cell epoch ∈ d.told →
    op < d.nextOp ∧ ∀ barrier, d.barriers op = some barrier → barrier.verifying = true

/-- Every barrier with an earlier id was there before, and goes on verifying if it did. -/
structure Follows (d e : Docket χ) : Prop where
  later : d.nextOp ≤ e.nextOp
  barriers : ∀ op barrier, op < d.nextOp → e.barriers op = some barrier →
    ∃ before, d.barriers op = some before ∧ (before.verifying = true → barrier.verifying = true)

theorem Asked.put (asked : d.Asked) {before : Barrier χ} (mem : d.barriers op = some before)
    (keeps : ∀ barrier, after = some barrier → before.verifying = true → barrier.verifying = true) :
    (d.put op after).Asked := by
  intro other cell epoch told
  obtain ⟨early, verifying⟩ := asked other cell epoch told
  refine ⟨early, fun barrier found => barriers_put (P := fun place barrier => place = other →
    barrier.verifying = true) ?_ ?_ other barrier found rfl⟩
  · rintro barrier kept rfl
    exact keeps barrier kept (verifying before mem)
  · rintro _ barrier there rfl
    exact verifying barrier there

theorem Asked.move (asked : d.Asked) (bounded : d.Bounded) (move : DocketMove V d e) : e.Asked := by
  cases move with
  | spend nextOp later =>
    exact fun op cell epoch told => ⟨(asked op cell epoch told).1.trans_le later,
      (asked op cell epoch told).2⟩
  | tell effects idle =>
    intro op cell epoch mem
    rcases mem_append.mp mem with before | told
    · exact asked op cell epoch before
    · cases idle _ told
  | openUp barrier =>
    intro op cell epoch told
    obtain ⟨early, verifying⟩ := asked op cell epoch told
    refine ⟨early.trans (lt_add_one _), ?_⟩
    change ∀ other, (d.put d.nextOp (some barrier)).barriers op = some other → _
    rw [put_barriers_of_ne d _ (Nat.ne_of_lt early)]
    exact verifying
  | follow op barrier _ _ mem | ride op barrier _ _ mem | unhost op barrier mem =>
    exact asked.put mem fun _ same => by cases same; exact id
  | drop op barrier mem => exact asked.put mem fun _ none => by cases none
  | answer owed =>
    intro op cell epoch mem
    rcases mem_append.mp mem with before | told
    · exact asked op cell epoch before
    · cases owed <;> cases mem_singleton.mp told
  | verify op barrier riders rest mem =>
    intro other cell epoch told
    rcases mem_append.mp told with before | now
    · exact asked.put mem (fun _ same _ => by cases same; rfl) other cell epoch before
    · cases mem_singleton.mp now
      refine ⟨bounded op barrier mem, ?_⟩
      change ∀ kept, (d.put op _).barriers op = some kept → _
      rw [put_barriers_self]
      rintro _ ⟨rfl⟩
      rfl

theorem Follows.refl (d : Docket χ) : d.Follows d :=
  ⟨le_rfl, fun _ barrier _ found => ⟨barrier, found, id⟩⟩

theorem Follows.put {c : Docket χ} (follows : c.Follows d) {before : Barrier χ}
    (mem : d.barriers op = some before)
    (keeps : ∀ barrier, after = some barrier → before.verifying = true → barrier.verifying = true)
    (later : e.nextOp = d.nextOp) (same : e.barriers = (d.put op after).barriers) :
    c.Follows e := by
  refine ⟨follows.later.trans later.ge, fun other barrier early found => ?_⟩
  rw [same] at found
  refine barriers_put
    (fun barrier kept early => ?_) (fun place barrier there early =>
      follows.barriers place barrier early there) other barrier found early
  obtain ⟨first, there, verifying⟩ := follows.barriers op before early mem
  exact ⟨first, there, fun was => keeps barrier kept (verifying was)⟩

theorem Follows.move {c : Docket χ} (follows : c.Follows d) (move : DocketMove V d e) :
    c.Follows e := by
  cases move with
  | spend nextOp later => exact ⟨follows.later.trans later, follows.barriers⟩
  | tell | answer => exact ⟨follows.later, follows.barriers⟩
  | openUp barrier =>
    refine ⟨follows.later.trans (Nat.le_succ _), fun op kept early found => ?_⟩
    have there : (d.put d.nextOp (some barrier)).barriers op = some kept := found
    rw [put_barriers_of_ne d _ (Nat.ne_of_lt (early.trans_le follows.later))] at there
    exact follows.barriers op kept early there
  | follow op barrier _ _ mem | ride op barrier _ _ mem | unhost op barrier mem =>
    exact follows.put mem (fun _ same => by cases same; exact id) rfl rfl
  | drop op barrier mem => exact follows.put mem (fun _ none => by cases none) rfl rfl
  | verify op barrier riders rest mem =>
    exact follows.put mem (fun _ same _ => by cases same; rfl) rfl rfl

end Docket

end Celld
