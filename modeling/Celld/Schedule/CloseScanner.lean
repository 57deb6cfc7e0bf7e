import Celld.Wire.Bytes

/-!
# The close scanner

A hop that splices the bytes of a WebSocket may append a Close frame of its own only between
two frames, and only if the owner has not sent one.  `observe` follows the frames without
keeping their payloads.

The bytes come in chunks that know nothing of frames.  A payload is skipped as far as the
chunk goes, which is the same as skipping it byte by byte (`observe_cons`): so only the
stream counts.  `canAppendClose` then says that the stream consists of whole frames that can
be followed by another one.
-/

namespace Celld.Schedule

open List Nat Wire

inductive WebSocketScanState where
  | opcode
  | length
  /-- The bytes of the length that are still to come, and its value so far: eight bytes at
  most, so a `u64` holds it. -/
  | extendedLength (remaining value : ℕ)
  | payload (remaining : ℕ)
  /-- A Close has started, or what the owner sends cannot be followed. -/
  | stopped
  deriving DecidableEq

namespace WebSocketScanState

def ofOpcode (byte : UInt8) : WebSocketScanState := if byte &&& 0x0f = 8 then .stopped else .length

/-- The state in front of a payload. -/
def sized (value : ℕ) : WebSocketScanState := if value = 0 then .opcode else .payload value

def ofLength (byte : UInt8) : WebSocketScanState :=
  if byte = 0 then .opcode
  else if byte ≤ 125 then .payload byte.toNat
  else if byte = 126 then .extendedLength 2 0
  else if byte = 127 then .extendedLength 8 0
  else .stopped

def ofExtended (remaining value : ℕ) (byte : UInt8) : WebSocketScanState :=
  if remaining = 8 ∧ byte &&& 0x80 ≠ 0 then .stopped
  else
    let value := value <<< 8 ||| byte.toNat
    if remaining - 1 = 0 then sized value else .extendedLength (remaining - 1) value

/-- A state that does not take the next byte comes first. -/
def weight : WebSocketScanState → ℕ
  | .payload _ => 1
  | _ => 0

def observe : WebSocketScanState → Bytes → WebSocketScanState
  | state, [] => state
  | .opcode, byte :: rest => observe (ofOpcode byte) rest
  | .length, byte :: rest => observe (ofLength byte) rest
  | .extendedLength remaining value, byte :: rest => observe (ofExtended remaining value byte) rest
  | .payload remaining, byte :: rest =>
      let count := min remaining (rest.length + 1)
      observe (if remaining - count = 0 then .opcode else .payload (remaining - count))
        ((byte :: rest).drop count)
  | .stopped, _ :: _ => .stopped
termination_by state bytes => (bytes.length, weight state)
decreasing_by
  all_goals simp only [length_cons, length_drop]
  · exact Prod.Lex.left _ _ (lt_succ_self _)
  · exact Prod.Lex.left _ _ (lt_succ_self _)
  · exact Prod.Lex.left _ _ (lt_succ_self _)
  · -- An empty payload takes no byte, but it is left.
    by_cases empty : remaining = 0
    · subst empty
      simp only [Nat.zero_min, Nat.sub_zero]
      exact Prod.Lex.right _ Nat.one_pos
    · exact Prod.Lex.left _ _ (by omega)

/-- The stream can take a Close where it ends now. -/
def canAppendClose (state : WebSocketScanState) : Bool := state = .opcode

/-! ## One byte after the other -/

section Chunks

variable {state : WebSocketScanState} {bytes rest : Bytes} {byte : UInt8}

def step (byte : UInt8) : WebSocketScanState → WebSocketScanState
  | .opcode | .payload 0 => ofOpcode byte
  | .length => ofLength byte
  | .extendedLength remaining value => ofExtended remaining value byte
  | .payload (remaining + 1) => sized remaining
  | .stopped => .stopped

theorem observe_nil : observe state [] = state := by
  cases state <;> rw [observe]

theorem observe_stopped : observe .stopped bytes = .stopped := by
  cases bytes <;> rw [observe]

theorem observe_cons : observe state (byte :: rest) = observe (step byte state) rest := by
  cases state with
  | opcode => rw [observe, step]
  | length => rw [observe, step]
  | extendedLength => rw [observe, step]
  | stopped => rw [observe, step, observe_stopped]
  | payload remaining =>
    rw [observe]
    match remaining with
    | 0 => simp only [Nat.zero_min, Nat.sub_zero, if_true, drop_zero, observe, step]
    | 1 =>
      have one : min 1 (rest.length + 1) = 1 := by omega
      simp only [one, Nat.sub_self, if_true, drop_one, tail_cons, step, sized]
    | more + 2 =>
      -- The rest of the chunk is skipped at once, with this byte or after it.
      have first : min (more + 2) (rest.length + 1) = min (more + 1) rest.length + 1 := by omega
      have left : more + 2 - (min (more + 1) rest.length + 1)
          = more + 1 - min (more + 1) rest.length := by omega
      simp only [first, left, drop_succ_cons, step, sized, if_neg (succ_ne_zero more)]
      cases rest with
      | nil => simp [observe_nil]
      | cons => rw [observe, length_cons]

/-- **A stream may be cut anywhere.** -/
theorem observe_append (bytes rest : Bytes) (state : WebSocketScanState) :
    observe state (bytes ++ rest) = observe (observe state bytes) rest := by
  induction bytes generalizing state with
  | nil => rw [observe_nil, nil_append]
  | cons byte bytes ih => rw [cons_append, observe_cons, observe_cons, ih]

theorem foldl_observe (chunks : List Bytes) (state : WebSocketScanState) :
    chunks.foldl observe state = observe state chunks.flatten := by
  induction chunks generalizing state with
  | nil => exact observe_nil.symm
  | cons chunk chunks ih => rw [foldl_cons, ih, flatten_cons, observe_append]

end Chunks

/-! ## Frames -/

/-- The bytes that a length takes beyond its first. -/
def extendedBytes (length : UInt8) : ℕ := if length = 126 then 2 else if length = 127 then 8 else 0

/-- A whole frame that is not masked. -/
structure Frame where
  head : UInt8
  size : UInt8
  extended : Bytes
  payload : Bytes
  unmasked : size ≤ 127
  extended_length : extended.length = extendedBytes size
  payload_length : payload.length = if size ≤ 125 then size.toNat else beValue extended

namespace Frame

def bytes (f : Frame) : Bytes := f.head :: f.size :: (f.extended ++ f.payload)

def opcode (f : Frame) : UInt8 := f.head &&& 0x0f

/-- The top bit of the 64-bit length is set. -/
def topBit (f : Frame) : Prop := f.size = 127 ∧ ∃ byte ∈ f.extended.head?, byte &&& 0x80 ≠ 0

end Frame

/-- The stream ends between two frames. -/
def Between (state : WebSocketScanState) (bytes : Bytes) : Prop := observe state bytes = .opcode

/-- The state in front of the rest of a length. -/
def toGo (remaining value : ℕ) : WebSocketScanState :=
  if remaining = 0 then sized value else .extendedLength remaining value

section Frames

variable {bytes : Bytes} {remaining value : ℕ}

theorem between_sized :
    Between (sized value) bytes ↔ value ≤ bytes.length ∧ Between .opcode (bytes.drop value) := by
  induction value generalizing bytes with
  | zero => exact (and_iff_right (Nat.zero_le _)).symm
  | succ value ih =>
    cases bytes with
    | nil => exact iff_of_false (by simp [Between, sized, observe_nil]) (by simp)
    | cons =>
      rw [Between, sized, if_neg (succ_ne_zero value), observe_cons, step, ← Between, ih,
        length_cons, succ_le_succ_iff, drop_succ_cons]

/-- Of the bytes of a length only the first of eight is looked at. -/
theorem between_toGo (few : remaining ≤ 8) : Between (toGo remaining value) bytes ↔
    remaining ≤ bytes.length ∧ ¬ (remaining = 8 ∧ ∃ byte ∈ bytes.head?, byte &&& 0x80 ≠ 0) ∧
      Between (sized
        ((bytes.take remaining).foldl (fun value byte => value * 256 + byte.toNat) value))
        (bytes.drop remaining) := by
  induction remaining generalizing bytes value with
  | zero => simp [toGo]
  | succ remaining ih =>
    cases bytes with
    | nil => exact iff_of_false (by simp [Between, toGo, observe_nil]) (by simp)
    | cons byte bytes =>
      have shifted : value <<< 8 ||| byte.toNat = value * 256 + byte.toNat := by
        rw [Nat.or_comm, or_shiftLeft byte.toNat_lt, Nat.add_comm]
        rfl
      rw [Between, toGo, if_neg (succ_ne_zero remaining), observe_cons, step, ofExtended,
        shifted, Nat.add_sub_cancel]
      by_cases top : remaining + 1 = 8 ∧ byte &&& 0x80 ≠ 0
      · rw [if_pos top, observe_stopped]
        exact iff_of_false (by rintro ⟨⟩) fun all => all.2.1 ⟨top.1, byte, rfl, top.2⟩
      · have first :
            ¬ (remaining + 1 = 8 ∧ ∃ other ∈ (byte :: bytes).head?, other &&& 0x80 ≠ 0) := by
          rintro ⟨eight, other, ⟨⟩, set_⟩
          exact top ⟨eight, set_⟩
        have fewer : ¬ (remaining = 8 ∧ ∃ other ∈ bytes.head?, other &&& 0x80 ≠ 0) := by
          rintro ⟨eight, _⟩
          omega
        rw [if_neg top]
        show Between (toGo remaining _) bytes ↔ _
        rw [ih (by omega), length_cons, succ_le_succ_iff, and_iff_right fewer,
          and_iff_right first]
        rfl

theorem ofLength_eq : ∀ length : UInt8, ofLength length = if length ≤ 127 then
    toGo (extendedBytes length) (if length ≤ 125 then length.toNat else 0) else .stopped := by
  decide +kernel

/-- What the bytes of a length say. -/
theorem declared_eq {length : UInt8} {extended : Bytes}
    (size : extended.length = extendedBytes length) :
    extended.foldl (fun value byte => value * 256 + byte.toNat) (if length ≤ 125
      then length.toNat else 0)
      = if length ≤ 125 then length.toNat else beValue extended := by
  have alone : ∀ length : UInt8, length ≤ 125 → extendedBytes length = 0 := by decide +kernel
  by_cases short : length ≤ 125
  · rw [alone length short] at size
    rw [if_pos short, if_pos short, length_eq_zero_iff.mp size, foldl_nil]
  · rw [if_neg short, if_neg short, beValue]

/-- Between frames the stream ends, or a frame is next. -/
theorem between_opcode : Between .opcode bytes ↔ bytes = [] ∨ ∃ f : Frame, ∃ rest,
    bytes = f.bytes ++ rest ∧ (f.opcode ≠ 8 ∧ ¬ f.topBit) ∧ Between .opcode rest := by
  have eight : ∀ size : UInt8, extendedBytes size = 8 ↔ size = 127 := by decide +kernel
  have few : ∀ size : UInt8, extendedBytes size ≤ 8 := by decide +kernel
  constructor
  · intro here
    match bytes with
    | [] => exact .inl rfl
    | [head] =>
      rw [Between, observe_cons, step, ofOpcode, observe_nil] at here
      split at here <;> cases here
    | head :: size :: bytes =>
      rw [Between, observe_cons, step, ofOpcode] at here
      split at here
      · rw [observe_stopped] at here
        cases here
      rename_i open_
      rw [observe_cons, step, ofLength_eq] at here
      by_cases unmasked : size ≤ 127
      · rw [if_pos unmasked, ← Between, between_toGo (few size), between_sized] at here
        obtain ⟨long, low, whole, here⟩ := here
        have length : (bytes.take (extendedBytes size)).length = extendedBytes size :=
          length_take_of_le long
        rw [declared_eq length] at whole here
        refine .inr ⟨⟨head, size, bytes.take (extendedBytes size), _, unmasked, length,
          length_take_of_le whole⟩, _, ?_, ⟨open_, ?_⟩, here⟩
        · simp only [Frame.bytes, cons_append, append_assoc, take_append_drop]
        · rintro ⟨rfl, byte, first, top⟩
          refine low ⟨rfl, byte, ?_, top⟩
          rwa [head?_take, if_neg (by decide)] at first
      · rw [if_neg unmasked, observe_stopped] at here
        cases here
  · rintro (rfl | ⟨f, rest, rfl, ⟨open_, low⟩, here⟩)
    · exact observe_nil
    · have length := f.extended_length
      have open_ : ¬ f.head &&& 0x0f = 8 := open_
      rw [Frame.bytes, Between, cons_append, observe_cons, step, ofOpcode, if_neg open_,
        cons_append, observe_cons, step, ofLength_eq, if_pos f.unmasked, ← Between,
        between_toGo (few f.size), append_assoc, ← length, take_left, drop_left,
        declared_eq length, ← f.payload_length, between_sized, drop_left]
      refine ⟨by simp, ?_, by simp, here⟩
      rintro ⟨size, byte, first, top⟩
      refine low ⟨(eight f.size).mp (length ▸ size), byte, ?_, top⟩
      rwa [head?_append_of_ne_nil] at first
      rintro none_
      rw [none_] at size
      cases size

/-- **The scanner does not see the chunks, and a Close can be appended exactly behind whole
frames.** -/
theorem canAppendClose_iff (chunks : List Bytes) :
    (∀ state, chunks.foldl observe state = observe state chunks.flatten) ∧
    (canAppendClose (chunks.foldl observe .opcode) = true ↔
      ∃ frames : List Frame, chunks.flatten = frames.flatMap Frame.bytes ∧
        ∀ f ∈ frames, f.opcode ≠ 8 ∧ ¬ f.topBit) := by
  refine ⟨foldl_observe chunks, ?_⟩
  rw [foldl_observe, canAppendClose, decide_eq_true_iff]
  generalize chunks.flatten = stream
  show Between .opcode stream ↔ _
  -- A frame has two bytes at least, so what is behind it is shorter.
  have shorter : ∀ (f : Frame) (rest : Bytes), rest.length < (f.bytes ++ rest).length := by
    intro f rest
    simp only [Frame.bytes, length_append, length_cons]
    omega
  induction long : stream.length using Nat.strong_induction_on generalizing stream with
  | _ n ih =>
      subst long
      rw [between_opcode]
      constructor
      · rintro (rfl | ⟨f, rest, rfl, plain, here⟩)
        · exact ⟨[], rfl, by rintro _ ⟨⟩⟩
        · obtain ⟨frames, rfl, all⟩ := (ih _ (shorter f rest) rest rfl).mp here
          exact ⟨f :: frames, rfl, forall_mem_cons.mpr ⟨plain, all⟩⟩
      · rintro ⟨frames, rfl, all⟩
        cases frames with
        | nil => exact .inl rfl
        | cons f frames =>
            obtain ⟨plain, others⟩ := forall_mem_cons.mp all
            exact .inr ⟨f, _, rfl, plain, (ih _ (shorter f _) _ rfl).mpr ⟨frames, rfl, others⟩⟩

end Frames

end WebSocketScanState

end Celld.Schedule
