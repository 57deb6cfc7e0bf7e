import Celld.Export.Record
import Celld.Lib.Cache
import Celld.Wire.Bytes

/-!
# What delivery knows about a stream

The delivery state of a stream, what a result, an advance and a watermark do to it, and its
encoding in the spill table.  The integers of the source are of 64 bits; a state within them is read
back as it was spilled (`Delivered.decode_encode`).
-/

namespace Celld.Export

open List Std.ExtTreeMap Wire

/-- A stream as delivery tracks it: the residency and its incarnation. -/
structure DeliveryKey where
  cell : String
  epoch : ℕ
  incarnation : ℕ

namespace DeliveryKey

def lex (k : DeliveryKey) : String ×ₗ ℕ ×ₗ ℕ := toLex (k.cell, toLex (k.epoch, k.incarnation))

theorem lex_injective : Function.Injective lex := by
  rintro ⟨_, _⟩ ⟨_, _⟩ same
  simpa [lex] using same

instance : LinearOrder DeliveryKey := LinearOrder.lift' lex lex_injective

end DeliveryKey

/-- What is registered for a record before the sink gets it. -/
structure Submitted where
  cell : String
  epoch : ℕ
  stream : StreamId
  cellName : Option String := none
  position : Position
  /-- The last fragment of a record. -/
  whole : Bool
  /-- The last record of a commit. -/
  closes : Bool
  watermark : Bool := false
  recovered : Bool := false
  deriving DecidableEq

/-- `delivery_key`. -/
def Submitted.key (m : Submitted) : DeliveryKey := ⟨m.cell, m.epoch, m.stream.incarnation⟩

inductive SinkDelivery where
  | acknowledged
  | dropped (reason : String)
  deriving DecidableEq

/-! ## What delivery knows about one stream -/

structure Delivered where
  stream : Option (StreamId × Option String) := none
  /-- The newest position whose commit is wholly acknowledged. -/
  position : Option Position := none
  /-- The `through` of the last watermark submitted. -/
  marked : Option Position := none
  /-- Whole records acknowledged since the last watermark, per position. -/
  acked : BTreeMap Position ℕ := ∅
  frozen : Bool := false

namespace Delivered

variable (d : Delivered)

instance : Inhabited Delivered := ⟨{}⟩

/-- The result of one record. -/
def settle (m : Submitted) (result : SinkDelivery) : Delivered :=
  let d := { d with stream := some (m.stream, m.cellName) }
  if d.frozen then d
  else
    match result with
    | .acknowledged =>
        if m.watermark then d
        else
          { d with
            acked := if m.whole then d.acked.insert m.position ((d.acked[m.position]?).getD 0 + 1)
              else d.acked
            position := if m.closes then some m.position else d.position }
    | .dropped _ => { d with frozen := true }

/-- The gap a dropped record leaves. -/
def dropGap (m : Submitted) (result : SinkDelivery) : Option GapBody :=
  match result with
  | .acknowledged => none
  | .dropped reason =>
      if d.frozen then none
      else
        some
          { from_ := d.position.getD ⟨m.epoch, 0, 0⟩
            to_ := m.position
            reason := "sink dropped a record: " ++ reason }

/-- An advance that nothing holds up any more. -/
def advance (m : Submitted) : Delivered :=
  { d with
    stream := some (m.stream, m.cellName)
    position :=
      if !d.frozen && d.position.all (· < m.position) then some m.position else d.position }

/-- Where the acknowledged counts are split: the least position above `through`. -/
def above (through : Position) : Position := { through with commit := through.commit + 1 }

def certified (through : Position) : BTreeMap Position ℕ :=
  d.acked.filter fun p _ => p < above through

/-- The watermark a stream is due. -/
def due : Option ((StreamId × Option String) × WatermarkBody) :=
  match d.position, d.stream with
  | some through, some stream =>
      if d.frozen || d.marked.any (through ≤ ·) then none
      else
        some (stream,
          { from_ := d.marked
            through := through
            commits := (d.certified through).size
            records := ((d.certified through).toList.map (·.2)).sum })
  | _, _ => none

/-- The state once the watermark it is due is submitted. -/
def mark : Delivered :=
  match d.due with
  | none => d
  | some (_, w) =>
      { d with
        marked := some w.through
        acked := d.acked.filter fun p _ => !(p < above w.through) }

end Delivered

theorem due_eq_some {d : Delivered} {stream : StreamId × Option String} {w : WatermarkBody}
    (due : d.due = some (stream, w)) : d.frozen = false ∧ d.position = some w.through ∧
      w.from_ = d.marked ∧ (∀ p ∈ d.marked, p < w.through) ∧
      w.commits = (d.certified w.through).size ∧
      w.records = ((d.certified w.through).toList.map (·.2)).sum ∧ d.stream = some stream := by
  unfold Delivered.due at due
  split at due
  case h_1 through stream' position here =>
    split_ifs at due with guard
    obtain ⟨rfl, rfl⟩ := Prod.mk.inj (Option.some.inj due)
    simp only [Bool.or_eq_true, not_or, Bool.not_eq_true] at guard
    refine ⟨guard.1, position, rfl, fun p here => ?_, rfl, rfl, here⟩
    have below := guard.2
    rw [Option.mem_def.mp here] at below
    simpa using below
  case h_2 => cases due

/-! ## The spill -/

def putStr (s : String) : Bytes := writeUvarint (utf8 s).length ++ utf8 s

def putPosition (p : Position) : Bytes :=
  writeUvarint p.epoch ++ (writeUvarint p.txid ++ writeUvarint p.commit)

def putFlag (flag : Bool) : Bytes := [if flag then 1 else 0]

def putOption {α : Type} (put : α → Bytes) (value : Option α) : Bytes :=
  putFlag value.isSome ++ value.elim [] put

def putStream (stream : StreamId × Option String) : Bytes :=
  putStr stream.1.script ++ (putStr stream.1.class_ ++ (putStr stream.1.cell ++
    (putOption putStr stream.1.facet ++ (writeUvarint stream.1.incarnation ++
      putOption putStr stream.2))))

def putAcked (acked : List (Position × ℕ)) : Bytes :=
  acked.flatMap fun (at_, records) => putPosition at_ ++ writeUvarint records

def Delivered.encode (d : Delivered) : Bytes :=
  putOption putStream d.stream ++ (putOption putPosition d.position ++
    (putOption putPosition d.marked ++ (writeUvarint d.acked.size ++
      (putAcked d.acked.toList ++ putFlag d.frozen))))

namespace SpillReader

def flag : Reader Bool := do
  match ← byte with
  | 0 => pure false
  | 1 => pure true
  | _ => failure

def string : Reader String := do
  let bytes ← readExact (← readUvarint)
  StateT.lift (ofUtf8 bytes)

def position : Reader Position := do
  pure ⟨← readUvarint, ← readUvarint, ← readUvarint⟩

def option {α : Type} (read : Reader α) : Reader (Option α) := do
  if ← flag then some <$> read else pure none

def stream : Reader (StreamId × Option String) := do
  pure (⟨← string, ← string, ← string, ← option string, ← readUvarint⟩, ← option string)

/-- The loop over the acknowledged positions. -/
def acked : ℕ → BTreeMap Position ℕ → Reader (BTreeMap Position ℕ)
  | 0, m => pure m
  | n + 1, m => do acked n (m.insert (← position) (← readUvarint))

def delivered : Reader Delivered := do
  pure ⟨← option stream, ← option position, ← option position, ← acked (← readUvarint) ∅, ← flag⟩

end SpillReader

def Delivered.decode (bytes : Bytes) : Option Delivered :=
  match SpillReader.delivered bytes with
  | some (d, []) => some d
  | _ => none

/-! ## What is spilled is read back -/

def fits64 (n : ℕ) : Bool := n < 2 ^ 64

def Position.fits (p : Position) : Bool := fits64 p.epoch && fits64 p.txid && fits64 p.commit

def textFits (s : String) : Bool := fits64 (utf8 s).length

def StreamId.fits (s : StreamId) : Bool :=
  textFits s.script && textFits s.class_ && textFits s.cell && s.facet.all textFits &&
    fits64 s.incarnation

def Submitted.fits (m : Submitted) : Bool :=
  (m.stream.fits && m.cellName.all textFits) && m.position.fits

def Delivered.fits (d : Delivered) : Bool :=
  d.stream.all (fun s => s.1.fits && s.2.all textFits) && d.position.all Position.fits &&
    d.marked.all Position.fits && fits64 d.acked.size &&
    d.acked.toList.all fun e => e.1.fits && fits64 e.2

namespace SpillReader

variable {α : Type} {read : Reader α} {put : α → Bytes} {fits : α → Bool}

theorem takes_varint {n : ℕ} (fits : fits64 n) : Takes readUvarint (writeUvarint n) n :=
  readUvarint_write (of_decide_eq_true fits)

theorem takes_flag (value : Bool) : Takes flag (putFlag value) value := by
  cases value <;> exact fun _ => rfl

theorem takes_string {s : String} (fits : textFits s) : Takes string (putStr s) s := by
  refine (takes_varint fits).bind fun rest => ?_
  have text : ofUtf8 (utf8 s) = some s := ofUtf8_utf8 s
  exact (congrArg (Option.bind · _) (readExact_append rfl)).trans
    (congrArg (Option.bind · fun s => some (s, rest)) text)

theorem takes_position {p : Position} (fits : p.fits) : Takes position (putPosition p) p := by
  simp only [Position.fits, Bool.and_eq_true] at fits
  exact (takes_varint fits.1.1).bind ((takes_varint fits.1.2).bind ((takes_varint fits.2).last _))

theorem takes_option (takes : ∀ a, fits a → Takes read (put a) a) {value : Option α}
    (all : value.all fits) : Takes (option read) (putOption put value) value := by
  refine (takes_flag _).bind ?_
  cases value with
  | none => exact .pure none
  | some a => exact (takes a all).last some

theorem takes_stream {s : StreamId × Option String} (fits : s.1.fits && s.2.all textFits) :
    Takes stream (putStream s) s := by
  simp only [StreamId.fits, Bool.and_eq_true] at fits
  obtain ⟨⟨⟨⟨⟨script, class_⟩, cell⟩, facet⟩, incarnation⟩, name⟩ := fits
  exact (takes_string script).bind ((takes_string class_).bind ((takes_string cell).bind
    ((takes_option (fun _ => takes_string) facet).bind ((takes_varint incarnation).bind
      ((takes_option (fun _ => takes_string) name).last _)))))

theorem takes_acked {l : List (Position × ℕ)} (all : l.all fun e => e.1.fits && fits64 e.2)
    (m : BTreeMap Position ℕ) : Takes (acked l.length m) (putAcked l) (m.insertMany l) := by
  induction l generalizing m with
  | nil => exact .pure m
  | cons e l ih =>
    rw [all_cons, Bool.and_eq_true, Bool.and_eq_true] at all
    rw [insertMany_cons, putAcked, flatMap_cons, append_assoc]
    exact (takes_position all.1.1).bind ((takes_varint all.1.2).bind (ih all.2 _))

theorem ofList_toList {K V : Type} [LinearOrder K] (m : Std.ExtTreeMap K V) :
    Std.ExtTreeMap.ofList m.toList compare = m := by
  refine Std.ExtTreeMap.ext_getElem? fun k => ?_
  cases found : m[k]? with
  | none =>
    refine getElem?_ofList_of_contains_eq_false ?_
    rw [map_fst_toList_eq_keys]
    simpa using found
  | some v =>
    exact getElem?_ofList_of_mem (compare_eq_iff_eq.mpr rfl)
      distinct_keys_toList
      (mem_toList_iff_getElem?_eq_some.mpr found)

theorem takes_delivered {d : Delivered} (fits : d.fits) : Takes delivered d.encode d := by
  simp only [Delivered.fits, Bool.and_eq_true] at fits
  obtain ⟨⟨⟨⟨stream, position⟩, marked⟩, size⟩, acked⟩ := fits
  refine (takes_option (fun _ => takes_stream) stream).bind
    ((takes_option (fun _ => takes_position) position).bind
      ((takes_option (fun _ => takes_position) marked).bind ((takes_varint size).bind ?_)))
  have entries := takes_acked acked ∅
  rw [← ofList_eq_insertMany_empty, ofList_toList,
    length_toList] at entries
  exact entries.bind ((takes_flag d.frozen).last _)

end SpillReader

namespace Delivered

variable {d : Delivered}

theorem decode_encode (fits : d.fits) : decode d.encode = some d := by
  have whole := SpillReader.takes_delivered fits []
  rw [append_nil] at whole
  rw [decode, whole]

theorem fits_advance (fits : d.fits) {m : Submitted} (bounded : m.fits) :
    (d.advance m).fits := by
  simp only [Delivered.fits, Submitted.fits, advance, Bool.and_eq_true] at fits bounded ⊢
  refine ⟨⟨⟨⟨?_, ?_⟩, fits.1.1.2⟩, fits.1.2⟩, fits.2⟩
  · simpa using bounded.1
  · split_ifs
    · exact bounded.2
    · exact fits.1.1.1.2

theorem fits_mark (fits : d.fits) : d.mark.fits := by
  unfold mark
  cases due : d.due with
  | none => exact fits
  | some w =>
    have through : d.position = some w.2.through := (due_eq_some due).2.1
    simp only [Delivered.fits, Bool.and_eq_true, fits64, decide_eq_true_eq, through] at fits ⊢
    obtain ⟨⟨⟨⟨stream, position⟩, -⟩, size⟩, acked⟩ := fits
    rw [← length_toList] at size ⊢
    rw [toList_filter]
    exact ⟨⟨⟨⟨stream, position⟩, position⟩, (length_filter_le _ _).trans_lt size⟩,
      all_eq_true.mpr fun e mem => all_eq_true.mp acked e (mem_filter.mp mem).1⟩

end Delivered

/-! ## The states of a process -/

def deliveryCacheSize : ℕ := 8192

instance : NeZero deliveryCacheSize := ⟨by decide⟩

def spillCodec : Cache.Codec Delivered Bytes where
  encode := Delivered.encode
  decode := Delivered.decode
  Fits d := d.fits
  decode_encode _ := Delivered.decode_encode

abbrev DeliveryStates := Cache.Store DeliveryKey spillCodec deliveryCacheSize

end Celld.Export
