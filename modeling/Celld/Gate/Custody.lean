import Celld.Gate.Docket

/-!
# The handlers as moves of debts

Every handler of the gate is a chain of docket moves.  What a function is given to hold, or takes
off a barrier to hand on, stands in the pending part of the docket it starts from.
-/

namespace Celld

open List Barrier CoreTurn

variable {χ : Type} {gate : Barrier χ}

theorem GateMoves.nextOp_le {H : GateGrants χ} {f g : GateView χ} (moves : GateMoves H f g) :
    f.core.nextOp ≤ g.core.nextOp := moves.toCore.nextOp_le

/-- A refusal needs no evidence. -/
theorem Owed.earns_error {V : Evidence} (owed : Owed χ) (error : RequestError) :
    owed.Earns V (.error error) := by
  cases owed with
  | output => trivial
  | ticket => rintro ⟨⟩

namespace Barrier

/-- The proof of every ticket on the barrier has landed. -/
def Landed (V : Evidence) (gate : Barrier χ) : Prop :=
  ∀ cell epoch position ticket, .ticket cell epoch position ticket ∈ gate.owes →
    V.landed cell epoch position ticket

/-- An export barrier has no followers. -/
def Alone (gate : Barrier χ) : Prop := gate.isExport = true → gate.followers = []

/-- An export barrier stores its tickets, and nothing else. -/
theorem owes_of_isExport (alone : gate.Alone) (exports : gate.isExport = true) :
    gate.owes = (Turn.exportRiders gate).map gate.rides := by
  have followers := alone exports
  unfold isExport at exports
  cases owner : gate.owner with
  | output | alarm => simp [owner] at exports
  | «export» ticket => simp [owes, ownerOwes, Turn.exportRiders, owner, followers, rides]

end Barrier

namespace Turn

variable {V : Evidence} {t u : Turn χ} {p : Multiset (Owed χ)} {op : OpId} {barrier : Barrier χ}

/-- The docket of a turn that has `pending` in hand. -/
def docket (t : Turn χ) (pending : Multiset (Owed χ)) : Docket χ where
  nextOp := t.nextOp
  barriers op := t.barriers[op]?
  pending := pending
  told := t.effects.filter (·.cell?.isNone)

/-! ## Turns that leave the barriers alone -/

theorem quiet_docket (same : u.barriers = t.barriers) (later : t.nextOp ≤ u.nextOp)
    (effects : List (Effect χ)) (told : u.effects = t.effects ++ effects)
    (idle : ∀ effect ∈ effects, effect.idle = true) :
    DocketMoves V (t.docket p) (u.docket p) := by
  have spent : DocketMoves V (t.docket p) { t.docket p with nextOp := u.nextOp } :=
    .single (.spend _ later)
  have tell := DocketMove.tell (V := V) (d := { t.docket p with nextOp := u.nextOp })
    (effects.filter (·.cell?.isNone)) fun effect mem => idle effect (mem_filter.mp mem).1
  refine (spent.trans (.single tell)).trans (.of_eq ?_)
  simp only [docket, same, told, filter_append]

theorem pushAll_docket (effects : List (Effect χ)) (idle : ∀ effect ∈ effects, effect.idle = true) :
    DocketMoves V (t.docket p) ((t.pushAll effects).docket p) :=
  quiet_docket rfl le_rfl effects rfl idle

theorem push_docket {effect : Effect χ} (idle : effect.idle = true) :
    DocketMoves V (t.docket p) ((t.push effect).docket p) :=
  quiet_docket rfl le_rfl [effect] rfl fun other mem => by
    rw [mem_singleton.mp mem]
    exact idle

theorem onCore_docket {f : CoreTurn → CoreTurn}
    (later : t.nextOp ≤ (f { t.toCore with effects := [] }).nextOp) :
    DocketMoves V (t.docket p) ((t.onCore f).docket p) := by
  refine quiet_docket rfl later _ rfl fun effect mem => ?_
  obtain ⟨_, _, rfl⟩ := mem_map.mp mem
  rfl

theorem onCore_docket_of_turns {G : Grants} {f : CoreTurn → CoreTurn}
    (turns : CoreTurn.Turns G .free { t.toCore with effects := [] }
      (f { t.toCore with effects := [] })) :
    DocketMoves V (t.docket p) ((t.onCore f).docket p) := onCore_docket turns.1.nextOp_le

/-! ## Barriers -/

theorem putBarrier_docket (t : Turn χ) (op : OpId) (barrier : Barrier χ) :
    (t.putBarrier op barrier).docket p = (t.docket p).put op (some barrier) := by
  simp only [docket, putBarrier, Docket.put, BTreeMap.get_insert]

theorem dropBarrier_put (t : Turn χ) (op : OpId) :
    (t.dropBarrier op).docket p = (t.docket p).put op none := by
  simp only [docket, dropBarrier, Docket.put, BTreeMap.get_erase]

theorem dropBarrier_docket (found : t.barriers[op]? = some gate) :
    DocketMoves V (t.docket p) ((t.dropBarrier op).docket (p + gate.owes)) := by
  have drop := DocketMove.drop (V := V) (d := t.docket p) op gate found
  refine (Trail.single drop).trans (.of_eq ?_)
  rw [dropBarrier_put]
  rfl

/-- Everything in a list is answered alike. -/
theorem answers_docket (owed : List (Owed χ)) (result : Except RequestError Unit)
    (earns : ∀ one ∈ owed, one.Earns V result) :
    DocketMoves V (t.docket (p + owed))
      ((t.pushAll (owed.map (Owed.answer result))).docket p) := by
  refine (DocketMoves.answers owed result (t.docket (p + owed)) p rfl earns).trans (.of_eq ?_)
  have foreign : (owed.map (Owed.answer result)).filter (·.cell?.isNone)
      = owed.map (Owed.answer result) := by
    refine filter_eq_self.mpr fun effect mem => ?_
    obtain ⟨one, _, rfl⟩ := mem_map.mp mem
    cases one <;> rfl
  simp only [docket, pushAll, filter_append, foreign]

/-- An output is answered. -/
theorem release_docket (held : Held χ) (result : Except RequestError Unit) :
    DocketMoves V (t.docket (p + {.output held}))
      ((t.push (.release held.request held.channel result)).docket p) :=
  answers_docket [.output held] result fun one mem => by
    rw [mem_singleton.mp mem]
    trivial

theorem openBarrier_docket (owner : GateOwner χ) (cell : CellId) (epoch : Epoch) (position : ℕ) :
    DocketMoves V
      (t.docket (p + ownerOwes
        { owner := owner, cell := cell, epoch := epoch, position := position }))
      ((t.openBarrier owner cell epoch position).docket p) := by
  let barrier : Barrier χ := { owner := owner, cell := cell, epoch := epoch, position := position }
  have opened := DocketMove.openUp (V := V) (d := t.docket (p + barrier.ownerOwes)) barrier
    ⟨rfl, rfl, rfl⟩ p rfl
  have seen : (t.op.2.putBarrier t.nextOp barrier).docket p
      = { (t.docket (p + barrier.ownerOwes)).put t.nextOp (some barrier) with
          nextOp := t.nextOp + 1, pending := p } := by
    rw [putBarrier_docket]
    rfl
  refine (Trail.single opened).trans ((Trail.of_eq seen.symm).trans ?_)
  exact push_docket rfl

theorem openWriteBarrier_docket (held : Held χ) (position : ℕ) :
    DocketMoves V (t.docket (p + {.output held}))
      ((t.openWriteBarrier held position).docket p) := by
  unfold openWriteBarrier
  split
  · exact release_docket held _
  · exact openBarrier_docket (.output held) _ _ _

theorem follow_docket (found : t.barriers[op]? = some barrier)
    (trailable : barrier.trailable = true) (held : Held χ) :
    DocketMoves V (t.docket (p + {.output held})) ((t.follow op barrier held).docket p) := by
  have follow := DocketMove.follow (V := V) (d := t.docket (p + {.output held})) op barrier held p
    found trailable rfl
  refine (Trail.single follow).trans (.of_eq ?_)
  rw [Turn.follow, putBarrier_docket]
  rfl

theorem holdObserved_docket (held : Held χ) (cell : CellId) (epoch : Epoch) (observed : ℕ) :
    DocketMoves V (t.docket (p + {.output held}))
      ((t.holdObserved held cell epoch observed).docket p) := by
  unfold holdObserved
  split
  · rename_i found
    obtain ⟨mem, fits⟩ := newest_open found
    simp only [Bool.and_eq_true] at fits
    exact follow_docket mem fits.2 held
  · exact openWriteBarrier_docket held observed

theorem trailOpenBarrier_docket (held : Held χ) :
    DocketMoves V (t.docket (p + {.output held})) ((t.trailOpenBarrier held).docket p) := by
  unfold trailOpenBarrier
  split
  · exact release_docket held _
  split
  · rename_i found
    obtain ⟨mem, fits⟩ := newest_open found
    simp only [Bool.and_eq_true] at fits
    exact follow_docket mem fits.2 held
  · exact release_docket held _

/-- An output is held or answered. -/
theorem output_docket (request : RequestId) (channel : χ) (position observed : Option ℕ)
    (epoch : Option Epoch) :
    DocketMoves V (t.docket (p + {.output ⟨request, channel⟩}))
      ((t.output request channel position observed epoch).docket p) := by
  unfold output
  dsimp only
  split
  · exact release_docket ⟨request, channel⟩ _
  split
  · exact release_docket ⟨request, channel⟩ _
  split
  · exact openWriteBarrier_docket _ _
  · split
    · split
      · exact trailOpenBarrier_docket _
      · exact holdObserved_docket _ _ _ _
    · exact release_docket ⟨request, channel⟩ _
  · exact trailOpenBarrier_docket _

/-! ## Export tickets -/

theorem ride_docket (found : t.barriers[op]? = some barrier) (proving : barrier.verifying = false)
    (riders : List Rider) (within : ∀ rider ∈ riders, rider.position ≤ barrier.position ∨
      V.landed barrier.cell barrier.epoch rider.position rider.ticket) :
    DocketMoves V (t.docket (p + (riders.map barrier.rides : List (Owed χ))))
      ((t.putBarrier op { barrier with riders := barrier.riders ++ riders }).docket p) := by
  have ride := DocketMove.ride
    (d := t.docket (p + (riders.map barrier.rides : List (Owed χ)))) op barrier riders p found
    proving within rfl
  refine (Trail.single ride).trans (.of_eq ?_)
  rw [putBarrier_docket]
  rfl

/-- A barrier on a residency carries that residency's tickets. -/
theorem rides_of_isOn {cell : CellId} {epoch : Epoch} (on : barrier.isOn cell epoch = true)
    (rider : Rider) :
    barrier.rides rider = .ticket cell epoch rider.position rider.ticket := by
  simp only [isOn, Bool.and_eq_true, decide_eq_true_eq] at on
  rw [rides, on.1, on.2]

/-- A ticket is stored or answered. -/
theorem exportTicket_docket (cell : CellId) (epoch : Epoch) (position ticket : ℕ) :
    DocketMoves V (t.docket (p + {.ticket cell epoch position ticket}))
      ((t.exportTicket cell epoch position ticket).docket p) := by
  unfold exportTicket
  split
  · exact answers_docket [.ticket cell epoch position ticket] _ fun one mem => by
      rw [mem_singleton.mp mem]
      rintro ⟨⟩
  split
  · rename_i found
    obtain ⟨mem, fits⟩ := oldest_open found
    simp only [Bool.and_eq_true, Bool.not_eq_true', decide_eq_true_eq] at fits
    have ridden :=
        ride_docket (V := V) (p := p) mem fits.1.2 [⟨ticket, position⟩] fun rider one => by
      rw [mem_singleton.mp one]
      exact .inl fits.2
    simpa [rides_of_isOn fits.1.1] using ridden
  · exact openBarrier_docket (.export ticket) cell epoch position

/-- Each rider is stored again, on a barrier of its own. -/
theorem reaskRiders_docket (gate : Barrier χ) (riders : List Rider) (t : Turn χ) :
    DocketMoves V (t.docket (p + (riders.map gate.rides : List (Owed χ))))
      ((t.reaskRiders gate.cell gate.epoch riders).docket p) := by
  induction riders generalizing t with
  | nil => exact .of_eq (by simp [reaskRiders])
  | cons rider riders ih =>
    have split : p + ((rider :: riders).map gate.rides : List (Owed χ))
        = p + (riders.map gate.rides : List (Owed χ)) + {gate.rides rider} := by
      rw [map_cons, ← Multiset.cons_coe, ← Multiset.singleton_add]
      abel
    rw [split]
    exact (openBarrier_docket (.export rider.ticket) gate.cell gate.epoch rider.position).trans
      (ih _)

/-- The tickets of an export barrier whose proof landed ride another barrier. -/
theorem handExportOn_docket (found : t.barriers[op]? = some gate) (alone : gate.Alone)
    (landed : gate.Landed V) (handed : t.handExportOn op gate = some u) :
    DocketMoves V (t.docket p) (u.docket p) := by
  unfold handExportOn at handed
  split at handed
  · rename_i ticket owner
    split at handed
    · cases handed
    rename_i host search
    rw [← Option.some.inj handed]
    obtain ⟨mem, fits⟩ := oldest_open search
    simp only [Bool.and_eq_true, Bool.not_eq_true', decide_eq_true_eq] at fits
    have exports : gate.isExport = true := by simp [isExport, owner]
    have riders : exportRiders gate = ⟨ticket, gate.position⟩ :: gate.riders := by
      simp [exportRiders, owner]
    have rides : host.rides = gate.rides := by
      funext rider
      exact rides_of_isOn fits.1.1.2 rider
    have owes : (gate.owes : Multiset (Owed χ))
        = ((⟨ticket, gate.position⟩ :: gate.riders).map host.rides : List (Owed χ)) := by
      rw [owes_of_isExport alone exports, riders, rides]
    have dropped := dropBarrier_docket (V := V) (p := p) found
    rw [owes] at dropped
    refine dropped.trans (ride_docket ((dropBarrier_get fits.1.1.1).trans mem) fits.1.2 _ ?_)
    intro rider there
    refine .inr (landed _ _ _ _ ?_)
    rw [owes_of_isExport alone exports, riders, ← rides]
    exact mem_map_of_mem there
  · cases handed

/-- Barriers that differ are removed one after another. -/
theorem dropAll_docket (l : List (OpId × Barrier χ)) (t : Turn χ) (p : Multiset (Owed χ))
    (distinct : l.Pairwise fun one other => one.1 ≠ other.1)
    (found : ∀ one ∈ l, t.barriers[one.1]? = some one.2) :
    DocketMoves V (t.docket p)
      ((l.foldl (fun t other => t.dropBarrier other.1) t).docket
        (p + (l.flatMap (·.2.owes) : List (Owed χ)))) := by
  induction l generalizing t p with
  | nil => exact .of_eq (by simp)
  | cons one l ih =>
    obtain ⟨apart, distinct⟩ := pairwise_cons.mp distinct
    have rest : ∀ other ∈ l, (t.dropBarrier one.1).barriers[other.1]? = some other.2 :=
      fun other mem =>
        (dropBarrier_get (apart other mem).symm).trans (found other (mem_cons_of_mem _ mem))
    have dropped := dropBarrier_docket (V := V) (p := p) (found one mem_cons_self)
    refine dropped.trans ((ih _ _ distinct rest).trans (.of_eq ?_))
    rw [flatMap_cons, ← Multiset.coe_add, add_assoc]
    rfl

theorem toList_apart (t : Turn χ) :
    t.barriers.toList.Pairwise fun one other => one.1 ≠ other.1 :=
  t.barriers.distinct_keys_toList.imp fun differs same => by simp [same] at differs

theorem toList_found {one : OpId × Barrier χ} (mem : one ∈ t.barriers.toList) :
    t.barriers[one.1]? = some one.2 := Std.ExtTreeMap.mem_toList_iff_getElem?_eq_some.mp mem

/-- A barrier takes along the export barriers that its proof covers, and asks for its ownership
read. -/
theorem verify_docket (found : t.barriers[op]? = some gate) (landed : gate.Landed V)
    (riding : ∀ one ∈ t.ridingExports op gate, one.2.Alone ∧ one.2.Landed V) :
    DocketMoves V (t.docket p)
      ((((t.takeExportRiders op gate).2.putBarrier op
        { (t.takeExportRiders op gate).1 with verifying := true }).push
          (.verifyOwnership op (t.takeExportRiders op gate).1.cell
            (t.takeExportRiders op gate).1.epoch)).docket p) := by
  let taken := t.ridingExports op gate
  let riders := taken.flatMap (exportRiders ·.2)
  let dropped := taken.foldl (fun t other => t.dropBarrier other.1) t
  have fits : ∀ one ∈ taken, one.1 ≠ op ∧ one.2.isOn gate.cell gate.epoch = true ∧
      one.2.isExport = true := by
    intro one mem
    have fits := (mem_filter.mp mem).2
    simp only [Bool.and_eq_true, Bool.not_eq_true', decide_eq_true_eq] at fits
    exact ⟨fits.1.1.1.1, fits.1.1.1.2, fits.2⟩
  have owes : taken.flatMap (·.2.owes) = riders.map gate.rides := by
    rw [map_flatMap]
    refine flatMap_congr fun one mem => ?_
    have rides : one.2.rides = gate.rides := funext fun rider =>
      rides_of_isOn (fits one mem).2.1 rider
    rw [owes_of_isExport (riding one mem).1 (fits one mem).2.2, rides]
  have drops : DocketMoves V (t.docket p)
      (dropped.docket (p + (riders.map gate.rides : List (Owed χ)))) := by
    rw [← owes]
    exact dropAll_docket taken t p ((toList_apart t).filter _) fun one mem =>
      toList_found (mem_filter.mp mem).1
  have kept : dropped.barriers[op]? = some gate :=
    (dropAll_get (fun one mem => (fits one mem).1) t).trans found
  have verify := DocketMove.verify
    (d := dropped.docket (p + (riders.map gate.rides : List (Owed χ)))) op gate riders p kept
    (fun cell epoch position ticket mem => by
      rcases mem_owes_ride riders true mem with own | ⟨rider, there, same⟩
      · exact landed _ _ _ _ own
      · obtain ⟨one, member, rode⟩ := mem_flatMap.mp there
        refine (riding one member).2 _ _ _ _ ?_
        rw [owes_of_isExport (riding one member).1 (fits one member).2.2, ← same]
        refine mem_map.mpr ⟨rider, rode, ?_⟩
        exact rides_of_isOn (fits one member).2.1 rider) rfl
  refine (drops.trans (.single verify)).trans (.of_eq ?_)
  let riding : Barrier χ := { gate with riders := gate.riders ++ riders }
  -- The source writes the barrier back twice: with its riders, then as verifying.
  have put :
    ((dropped.putBarrier op riding).putBarrier op { riding with verifying := true }).docket p
      = (dropped.docket p).put op (some { riding with verifying := true }) := by
    rw [putBarrier_docket, putBarrier_docket, Docket.put, Docket.put, Function.update_idem]
    rfl
  have asked : ∀ u : Turn χ, (u.push (.verifyOwnership op gate.cell gate.epoch)).docket p
      = { u.docket p with
          told := (u.docket p).told ++ [.verifyOwnership op gate.cell gate.epoch] } := by
    intro u
    simp only [docket, push, filter_append]
    rfl
  change _ = (((dropped.putBarrier op riding).putBarrier op { riding with verifying := true }).push
    (.verifyOwnership op gate.cell gate.epoch)).docket p
  rw [asked, put]
  rfl

/-! ## Settling a barrier -/

theorem activityFinished_docket (request : RequestId) :
    DocketMoves V (t.docket p) ((t.activityFinished request).docket p) := by
  unfold activityFinished
  split
  · exact .of_eq rfl
  · exact onCore_docket_of_turns (finishActivity_turn (G := .none) request)

theorem releaseHeld_docket (result : Except RequestError Unit) (held : Held χ) :
    DocketMoves V (t.docket (p + {.output held})) ((releaseHeld result t held).docket p) := by
  unfold releaseHeld
  dsimp only
  refine Trail.trans ?_ (release_docket held result)
  split
  · exact activityFinished_docket (t := { t with gatePinned := t.gatePinned.erase held.request }) _
  · exact .refl _

theorem releaseAllHeld_docket (result : Except RequestError Unit) (l : List (Held χ)) (t : Turn χ) :
    DocketMoves V (t.docket (p + (l.map .output : List (Owed χ))))
      ((l.foldl (releaseHeld result) t).docket p) := by
  induction l generalizing t with
  | nil => exact .of_eq (by simp)
  | cons held l ih =>
    have split : p + ((held :: l).map .output : List (Owed χ))
        = p + (l.map .output : List (Owed χ)) + {.output held} := by
      rw [map_cons, ← Multiset.cons_coe, ← Multiset.singleton_add]
      abel
    rw [split]
    exact (releaseHeld_docket result held).trans (ih _)

theorem alarmFinished_docket (op : OpId) (fired : CellId) (epoch : Epoch) (nowMs nowMonoMs : ℕ)
    (result : Except Failure (AlarmSnapshot × Bool × Option ℕ)) :
    DocketMoves V (t.docket p)
      ((t.alarmFinished op fired epoch nowMs nowMonoMs result).docket p) := by
  unfold alarmFinished
  split
  · rename_i snapshot covered position
    split
    · have opened :=
        openBarrier_docket (V := V) (t := t) (p := p) (.alarm op snapshot covered) fired
        epoch position
      simpa [ownerOwes] using opened
    · exact onCore_docket_of_turns (settleAlarm_turn (G := .none) _ _ _ _)
  · exact onCore_docket_of_turns (settleAlarm_turn (G := .none) _ _ _ _)
  · exact onCore_docket_of_turns (settleAlarm_turn (G := .none) _ _ _ _)

/-- Everything a barrier owed is refused. -/
theorem failure_docket (gate : Barrier χ) (error : RequestError) :
    DocketMoves V (t.docket (p + gate.owes)) ((t.pushAll (gate.failure error)).docket p) := by
  rw [failure_eq]
  exact answers_docket gate.owes _ fun one _ => one.earns_error error

theorem failDoomed_docket (t : Turn χ) (op : OpId) :
    DocketMoves V (t.docket p) ((t.failDoomed op).docket p) := by
  unfold failDoomed
  split
  · exact .refl _
  rename_i gate found
  refine (dropBarrier_docket found).trans (Trail.trans ?_ (failure_docket gate _))
  split
  · exact .of_eq rfl
  · exact alarmFinished_docket _ _ _ _ _ _
  · exact .refl _

/-- A loop whose every pass is a chain of moves. -/
theorem foldl_docket {α : Type} {f : Turn χ → α → Turn χ}
    (pass : ∀ t one, DocketMoves V (t.docket p) ((f t one).docket p)) (l : List α) (t : Turn χ) :
    DocketMoves V (t.docket p) ((l.foldl f t).docket p) := by
  induction l generalizing t with
  | nil => exact .refl _
  | cons one l ih => exact (pass t one).trans (ih _)

theorem failResidency_docket (t : Turn χ) (id : CellId) (epoch : Epoch) :
    DocketMoves V (t.docket p) ((t.failResidency id epoch).docket p) :=
  foldl_docket failDoomed_docket _ t

theorem resetCell_docket (id : CellId) (epoch : Epoch) :
    DocketMoves V (t.docket p) ((t.resetCell id epoch).docket p) := by
  unfold resetCell
  split
  · exact .refl _
  rename_i resident
  have still : (t.failResidency id epoch).phaseAt id = some (.resident epoch) :=
    ((failResidency_steps (H := .none) (r := .free) t id epoch).2 id).trans
      (residentAt_phaseAt (by simpa using resident))
  exact (failResidency_docket t id epoch).trans
    (onCore_docket_of_turns (t := (t.failResidency id epoch).unpinAll _)
      (discardRuntime_turn (G := .none) still))

/-- An owner is owed nothing once it has its verdict. -/
theorem settleOwner_docket (gate : Barrier χ) (proven : Bool) (result : Except RequestError Unit)
    (earns : ∀ one ∈ gate.ownerOwes, one.Earns V result) :
    DocketMoves V (t.docket (p + gate.ownerOwes))
      ((t.settleOwner gate proven result).docket p) := by
  unfold settleOwner
  unfold ownerOwes at earns ⊢
  cases owner : gate.owner with
  | output held => exact releaseHeld_docket result held
  | alarm =>
    have none : p + (([] : List (Owed χ)) : Multiset (Owed χ)) = p := by simp
    simp only [none]
    exact alarmFinished_docket _ _ _ _ _ _
  | «export» ticket =>
    simp only [owner] at earns
    exact answers_docket [.ticket gate.cell gate.epoch gate.position ticket] result earns

theorem noteVerdict_docket (gate : Barrier χ) (proven : Bool) :
    DocketMoves V (t.docket p) ((t.noteVerdict gate proven).docket p) := by
  unfold noteVerdict
  split
  · exact onCore_docket_of_turns (G := { Grants.none with proven := fun _ _ _ => True })
      (noteProven_turn trivial)
  · exact .refl _

theorem riderVerdicts_docket (gate : Barrier χ) (result : Except RequestError Unit)
    (earns : ∀ rider ∈ gate.riders, (gate.rides rider).Earns V result) :
    DocketMoves V (t.docket (p + (gate.riders.map gate.rides : List (Owed χ))))
      ((t.pushAll (gate.riderVerdicts result)).docket p) := by
  have told :
      gate.riderVerdicts result = (gate.riders.map gate.rides).map (Owed.answer result) := by
    rw [map_map]
    rfl
  rw [told]
  refine answers_docket (gate.riders.map gate.rides) result fun one mem => ?_
  obtain ⟨rider, there, rfl⟩ := mem_map.mp mem
  exact earns rider there

/-- **A settled barrier owes nothing.** -/
theorem settleGate_docket (op : OpId) (proven : Bool)
    (alone : ∀ gate, t.barriers[op]? = some gate → gate.Alone)
    (earns : ∀ gate, t.barriers[op]? = some gate →
      ∀ one ∈ gate.owes, one.Earns V (verdict proven)) :
    DocketMoves V (t.docket p) ((t.settleGate op proven).docket p) := by
  unfold settleGate
  split
  · exact .refl _
  rename_i gate found
  have each := earns gate found
  have owner := fun one mem => each one (mem_owes.mpr (.inl mem))
  have riders := fun rider there =>
    each (gate.rides rider) (mem_owes.mpr (.inr (.inr ⟨rider, there, rfl⟩)))
  -- The riders are told first, then the owner, then the followers.
  have split : p + (gate.owes : Multiset (Owed χ))
      = p + (gate.followers.map .output : List (Owed χ)) + gate.ownerOwes
        + (gate.riders.map gate.rides : List (Owed χ)) := by
    simp only [owes, ← Multiset.coe_add]
    abel
  have settled := (((dropBarrier_docket found).trans
    ((noteVerdict_docket gate proven).trans (.of_eq (by rw [split])))).trans
      (riderVerdicts_docket gate (verdict proven) riders)).trans
        (settleOwner_docket gate proven (verdict proven) owner)
  dsimp only
  split
  · rename_i exports
    have none := alone gate found exports
    simpa [none] using settled
  · have followed := settled.trans (releaseAllHeld_docket (verdict proven) gate.followers _)
    split
    · exact followed
    · exact followed.trans (resetCell_docket _ _)

/-- What the handler of a completed proof rests on. -/
structure ProofCustody (V : Evidence) (t : Turn χ) (op : OpId) (result : Except Failure ℕ)
    (source : ProofSource) : Prop where
  /-- A bucket proof has landed for what its barrier carries, and for the export barriers that its
  ownership read covers. -/
  landed : source = .bucket → ∀ gate, t.barriers[op]? = some gate → gate.covered result = true →
    gate.Landed V ∧ ∀ one ∈ t.ridingExports op gate, one.2.Landed V
  /-- A fleet acknowledgement proves the ticket of its barrier's owner. -/
  proves : source = .fleet → ∀ gate, t.barriers[op]? = some gate → gate.covered result = true →
    ∀ one ∈ gate.ownerOwes, one.Earns V (.ok ())

/-- The riders of a barrier are taken off it. -/
theorem unhost_docket (found : t.barriers[op]? = some gate) :
    DocketMoves V (t.docket p) ((t.putBarrier op { gate with riders := [] }).docket
      (p + (gate.riders.map gate.rides : List (Owed χ)))) := by
  refine (Trail.single (.unhost op gate found)).trans (.of_eq ?_)
  rw [putBarrier_docket]
  rfl

theorem durableReached_docket {result : Except Failure ℕ} {source : ProofSource}
    (alone : ∀ (other : OpId) (gate : Barrier χ), t.barriers[other]? = some gate → gate.Alone)
    (custody : ProofCustody V t op result source) :
    DocketMoves V (t.docket p) ((t.durableReached op result source).docket p) := by
  unfold durableReached
  split
  · exact .refl _
  rename_i gate found
  split
  · exact settleGate_docket op false (alone op) fun _ _ one _ => one.earns_error _
  rename_i covers
  simp only [Bool.not_eq_true', Bool.not_eq_false] at covers
  cases source with
  | bucket =>
    obtain ⟨landed, riding⟩ := custody.landed rfl gate found covers
    dsimp only
    split
    · rename_i handed
      exact handExportOn_docket found (alone op gate found) landed handed
    · exact verify_docket found landed fun one mem =>
        ⟨alone _ _ (toList_found (mem_filter.mp mem).1), riding one mem⟩
  | fleet =>
    let bare : Barrier χ := { gate with riders := [] }
    have there : (t.putBarrier op bare).barriers[op]? = some bare := by simp [putBarrier]
    have only : ∀ other, (t.putBarrier op bare).barriers[op]? = some other → other = bare :=
      fun other same => Option.some.inj (same.symm.trans there)
    let riders : List (Owed χ) := gate.riders.map gate.rides
    have settled : DocketMoves V ((t.putBarrier op bare).docket (p + riders))
        (((t.putBarrier op bare).settleGate op true).docket (p + riders)) := by
      refine settleGate_docket op true (fun other same => ?_) (fun other same one mem => ?_)
      · rw [only other same]
        exact alone op gate found
      · rw [only other same] at mem
        rcases mem_owes.mp mem with owner | ⟨_, _, rfl⟩ | ⟨_, none, _⟩
        · exact custody.proves rfl gate found covers one owner
        · trivial
        · cases none
    exact ((unhost_docket found).trans settled).trans (reaskRiders_docket gate gate.riders _)

theorem ownershipVerified_docket {result : Except Failure Unit}
    (alone : ∀ gate, t.barriers[op]? = some gate → gate.Alone)
    (proves : result = .ok () → ∀ gate, t.barriers[op]? = some gate →
      ∀ one ∈ gate.owes, one.Earns V (.ok ())) :
    DocketMoves V (t.docket p) ((t.ownershipVerified op result).docket p) := by
  unfold ownershipVerified
  split
  · refine settleGate_docket op result.isOk alone fun gate found one mem => ?_
    cases result with
    | error => exact one.earns_error _
    | ok => exact proves rfl gate found one mem
  · exact .refl _

/-! ## Drains and fences -/

theorem cancelOutput_docket (t : Turn χ) (op : OpId) :
    DocketMoves V (t.docket p) ((t.cancelOutput op).docket p) := by
  unfold cancelOutput
  split
  · exact .refl _
  rename_i gate found
  split
  · rename_i held owner
    have owes : p + (gate.owes : Multiset (Owed χ))
        = p + (gate.riders.map gate.rides : List (Owed χ))
          + (gate.followers.map .output : List (Owed χ)) + {.output held} := by
      simp only [owes, ownerOwes, owner, ← Multiset.coe_add, Multiset.coe_singleton]
      abel
    have dropped := dropBarrier_docket (V := V) (p := p) found
    rw [owes] at dropped
    exact ((dropped.trans (releaseHeld_docket _ held)).trans
      (releaseAllHeld_docket _ gate.followers _)).trans (reaskRiders_docket gate gate.riders _)
  · exact .refl _

theorem cancelCellOutputs_docket (id : CellId) :
    DocketMoves V (t.docket p) ((t.cancelCellOutputs id).docket p) :=
  foldl_docket cancelOutput_docket _ t

theorem cancel_docket (request : RequestId) :
    DocketMoves V (t.docket p) ((t.cancel request).docket p) := by
  refine Trail.trans ?_
    (onCore_docket_of_turns
      (cancelQueued_turn (G := .none) trivial request fun _ _ => .inl trivial))
  split
  · exact activityFinished_docket request
  · exact .refl _

theorem dropAll_kept (l : List (OpId × Barrier χ)) (t : Turn χ) :
    (l.foldl (fun t other => t.dropBarrier other.1) t).nextOp = t.nextOp ∧
      (l.foldl (fun t other => t.dropBarrier other.1) t).effects = t.effects := by
  induction l generalizing t with
  | nil => exact ⟨rfl, rfl⟩
  | cons one l ih => exact ih (t.dropBarrier one.1)

/-- A barrier that is removed, or that was not there, is not there in the end. -/
theorem dropAll_none (l : List (OpId × Barrier χ)) (t : Turn χ) (op : OpId)
    (gone : t.barriers[op]? = none ∨ ∃ one ∈ l, one.1 = op) :
    (l.foldl (fun t other => t.dropBarrier other.1) t).barriers[op]? = none := by
  induction l generalizing t with
  | nil => exact gone.resolve_right (by simp)
  | cons one l ih =>
    refine ih (t.dropBarrier one.1) ?_
    by_cases same : one.1 = op
    · exact .inl (by simp [dropBarrier, same])
    · refine gone.imp (fun none => (dropBarrier_get (Ne.symm same)).trans none) ?_
      rintro ⟨other, mem, rfl⟩
      rcases mem_cons.mp mem with rfl | later
      · exact absurd rfl same
      · exact ⟨other, later, rfl⟩

/-- A fence refuses everything the gate stores. -/
theorem drainBarriers_docket : DocketMoves V (t.docket p) (t.drainBarriers.docket p) := by
  let dropped := t.barriers.toList.foldl (fun t other => t.dropBarrier other.1) t
  let owed := t.barriers.toList.flatMap (·.2.owes)
  have drops : DocketMoves V (t.docket p) (dropped.docket (p + owed)) :=
    dropAll_docket t.barriers.toList t p (toList_apart t) fun one mem => toList_found mem
  have cleared : ∀ op : OpId, dropped.barriers[op]? = (∅ : BTreeMap OpId (Barrier χ))[op]? := by
    intro op
    have gone : t.barriers[op]? = none ∨ ∃ one ∈ t.barriers.toList, one.1 = op := by
      cases found : t.barriers[op]? with
      | none => exact .inl rfl
      | some gate =>
        exact .inr ⟨(op, gate), Std.ExtTreeMap.mem_toList_iff_getElem?_eq_some.mpr found, rfl⟩
    rw [dropAll_none t.barriers.toList t op gone]
    simp
  have kept : dropped.nextOp = t.nextOp ∧ dropped.effects = t.effects := dropAll_kept _ t
  have empty : dropped.docket (p + owed)
      = Turn.docket { t with barriers := ∅, gatePinned := ∅ } (p + owed) := by
    simp only [docket, kept.1, kept.2, cleared]
  have refused : t.barriers.toList.flatMap (fun gate => gate.2.failure .nodeFenced)
      = owed.map (Owed.answer (.error .nodeFenced)) := by
    rw [map_flatMap]
    exact flatMap_congr fun one _ => one.2.failure_eq _
  refine (drops.trans (.of_eq empty)).trans ?_
  unfold drainBarriers
  rw [refused]
  exact answers_docket owed _
    fun one _ => one.earns_error _

theorem fence_docket : DocketMoves V (t.docket p) (t.fence.docket p) := by
  unfold fence
  split
  · exact .refl _
  · have fenced := fenceCells_turn (G := .none) (r := .free)
      (t := { t.toCore with effects := [] }) (.inl trivial)
    exact ((onCore_docket le_rfl).trans drainBarriers_docket).trans
      (onCore_docket fenced.1.nextOp_le)

theorem fenceNode_docket (reason : HaltReason) :
    DocketMoves V (t.docket p) ((t.fenceNode reason).docket p) :=
  (fence_docket (t := t.setAuthority .fenced)).trans (push_docket rfl)

end Turn

end Celld
