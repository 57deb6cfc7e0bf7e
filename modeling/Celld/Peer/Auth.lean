import Celld.Lib.Numerals
import Celld.Wire.Bytes

/-!
# Requests between peers

Nodes of a fleet share a key and sign what they ask of each other (`crates/celld/peer_auth.rs`).
A request is taken if its signature is that of its own text, its clock is within a window of
the reader's, and its nonce has not been seen.  The cache of nonces is swept by the time they
were seen, twice the window back: what is forgotten was stamped more than one window ago.

A header's text is visible ASCII, so that its characters are its bytes.
-/

namespace Celld.Peer

open Wire Numerals List

inductive Header where
  | version | source | target | timestamp | nonce | bodySha256 | signature

abbrev Headers := Header → Option (List Char)

inductive VerifyError where
  | unauthorized | wrongTarget | incompatibleVersion | replay | replayCapacity
deriving DecidableEq

def protocolVersion : List Char := ['5']

def clockWindowMs : ℕ := 30000

def replayRetentionMs : ℕ := clockWindowMs * 2

def maxReplayEntries : ℕ := 1000000

/-! ## Gates -/

def validIdentity (id : List Char) : Bool :=
  !id.isEmpty && decide (id.length ≤ 128) && id ∉ [['.'], ['.', '.']] &&
    id.all fun c => c.isAlphanum || c ∈ ['_', '-', '.']

def withinClockWindow (now timestamp window : ℕ) : Bool :=
  (now - timestamp) + (timestamp - now) ≤ window

def replayEntryExpired (now seenMs retention : ℕ) : Bool := retention < now - seenMs

def encodeHex (bytes : Bytes) : List Char :=
  bytes.flatMap fun byte => [(byte.toNat / 16).digitChar, (byte.toNat % 16).digitChar]

def hexNibble (c : Char) : Option ℕ :=
  if '0' ≤ c ∧ c ≤ '9' then some (c.toNat - 48)
  else if 'a' ≤ c ∧ c ≤ 'f' then some (c.toNat - 87)
  else none

def decodePairs : List Char → Option Bytes
  | [] | [_] => some []
  | high :: low :: encoded => do
      let byte := UInt8.ofNat (16 * (← hexNibble high) + (← hexNibble low))
      return byte :: (← decodePairs encoded)

def decodeHex (n : ℕ) (encoded : List Char) : Option Bytes :=
  if encoded.length = n * 2 then decodePairs encoded else none

/-! ## Signing -/

/-- The text that is signed. -/
def canonical (method path bodyHash source target : List Char) (timestamp : ℕ)
    (nonce : List Char) : List Char :=
  List.intercalate ['\n'] ["cells-peer-request-v1".toList, protocolVersion, method, path, bodyHash,
    source, target, Nat.toDigits 10 timestamp, nonce]

/-- A request as its sender has it, with the time and the nonce it was given. -/
structure Request where
  method : List Char
  path : List Char
  body : Bytes
  source : List Char
  target : List Char
  timestamp : ℕ
  nonce : Bytes

/-- A request as it arrives, with the node it should be for and the clock of the reader. -/
structure Call where
  method : List Char
  path : List Char
  headers : Headers
  body : Bytes
  expectedTarget : List Char
  now : Option ℕ

def Call.timestamp (call : Call) : Option ℕ :=
  (call.headers .timestamp).bind (parseUnsigned 10 (2 ^ 64))

def Call.signature (call : Call) : Option Bytes := (call.headers .signature).bind (decodeHex 32)

/-- What tells a call from others: the nonce and the time. -/
def Call.stamp (call : Call) : Option (Bytes × ℕ) := do
  return (← (call.headers .nonce).bind (decodeHex 16), ← call.timestamp)

structure ReplayCache where
  entries : List (Bytes × ℕ) := []
  checks : ℕ := 0

/-- The entries that a check finds: every so often, and at capacity, the old ones are swept. -/
def ReplayCache.swept (c : ReplayCache) (now : ℕ) : List (Bytes × ℕ) :=
  if min (c.checks + 1) (2 ^ 64 - 1) % 1024 = 0 ∨ maxReplayEntries ≤ c.entries.length then
    c.entries.filter fun e => !replayEntryExpired now e.2 replayRetentionMs
  else c.entries

/-- How `verify` ends. -/
def ReplayCache.admitNonce (c : ReplayCache) (nonce : Bytes) (now : ℕ) :
    Except VerifyError Unit × ReplayCache :=
  let checks := min (c.checks + 1) (2 ^ 64 - 1)
  let entries := c.swept now
  if entries.any fun e => e.1 = nonce then (.error .replay, ⟨entries, checks⟩)
  else if maxReplayEntries ≤ entries.length then (.error .replayCapacity, ⟨entries, checks⟩)
  else (.ok (), ⟨(nonce, now) :: entries, checks⟩)

theorem ReplayCache.mem_swept (c : ReplayCache) (now : ℕ) {e : Bytes × ℕ} (mem : e ∈ c.entries) :
    e ∈ c.swept now ∨ e.2 + replayRetentionMs < now := by
  unfold swept
  split
  · by_cases expired : replayEntryExpired now e.2 replayRetentionMs = true
    · have elapsed : replayRetentionMs < now - e.2 := of_decide_eq_true expired
      exact .inr (by omega)
    · exact .inl (mem_filter.mpr ⟨mem, by simpa using expired⟩)
  · exact .inl mem

/-- The key of a fleet, and the two functions that its nodes compute with. -/
structure Fleet where
  key : Bytes
  sha256 : Bytes → Bytes
  hmac : Bytes → List Char → Bytes

namespace Fleet

variable (fleet : Fleet)

def sha256Hex (body : Bytes) : List Char := encodeHex (fleet.sha256 body)

def textOf (r : Request) : List Char :=
  canonical r.method r.path (fleet.sha256Hex r.body) r.source r.target r.timestamp
    (encodeHex r.nonce)

/-- The sender's own name was checked when it was given the key. -/
def signedHeaders (r : Request) : Option Headers :=
  if validIdentity r.source && validIdentity r.target then
    some fun
      | .version => some protocolVersion
      | .source => some r.source
      | .target => some r.target
      | .timestamp => some (Nat.toDigits 10 r.timestamp)
      | .nonce => some (encodeHex r.nonce)
      | .bodySha256 => some (fleet.sha256Hex r.body)
      | .signature => some (encodeHex (fleet.hmac fleet.key (fleet.textOf r)))
  else none

/-! ## Verifying -/

def required {α : Type} : Option α → Except VerifyError α
  | some a => .ok a
  | none => .error .unauthorized

def ensure (holds : Bool) (error : VerifyError) : Except VerifyError Unit :=
  if holds then .ok () else .error error

/-- What `verify` checks before it looks at the nonces it has seen. -/
def authenticate (call : Call) : Except VerifyError (Bytes × ℕ) := do
  let version ← required (call.headers .version)
  ensure (version = protocolVersion) .incompatibleVersion
  let source ← required (call.headers .source)
  let target ← required (call.headers .target)
  ensure (validIdentity source && validIdentity target) .unauthorized
  let timestamp ← required call.timestamp
  let now ← required call.now
  ensure (withinClockWindow now timestamp clockWindowMs) .unauthorized
  let nonceText ← required (call.headers .nonce)
  let nonce ← required (decodeHex 16 nonceText)
  let claimedBodyHash ← required (call.headers .bodySha256)
  let bodyHash := fleet.sha256Hex call.body
  ensure (claimedBodyHash = bodyHash) .unauthorized
  let signature ← required call.signature
  let text := canonical call.method call.path bodyHash source target timestamp nonceText
  ensure (fleet.hmac fleet.key text = signature) .unauthorized
  ensure (target = call.expectedTarget) .wrongTarget
  return (nonce, now)

def verify (c : ReplayCache) (call : Call) : Except VerifyError Unit × ReplayCache :=
  match fleet.authenticate call with
  | .error error => (.error error, c)
  | .ok (nonce, now) => c.admitNonce nonce now

/-- The text of a call whose signature `verify` checks. -/
def text (call : Call) : Option (List Char) := do
  return canonical call.method call.path (fleet.sha256Hex call.body) (← call.headers .source)
    (← call.headers .target) (← call.timestamp) (← call.headers .nonce)

/-- The calls that are accepted, one after the other. -/
def accepted : ReplayCache → List Call → List Call
  | _, [] => []
  | c, call :: calls =>
      let rest := accepted (fleet.verify c call).2 calls
      if (fleet.verify c call).1 = .ok () then call :: rest else rest

end Fleet

/-! ## What is accepted -/

/-- The call is the signed request. -/
structure Call.Carries (call : Call) (r : Request) : Prop where
  method : call.method = r.method
  path : call.path = r.path
  body : call.body = r.body
  source : call.headers .source = some r.source
  target : call.headers .target = some r.target
  timestamp : call.timestamp = some r.timestamp
  nonce : call.headers .nonce = some (encodeHex r.nonce)

theorem bind_eq_ok {α β ε : Type} {first : Except ε α} {next : α → Except ε β} {b : β} :
    first >>= next = .ok b ↔ ∃ a, first = .ok a ∧ next a = .ok b := by
  cases first <;> simp [bind, Except.bind]

section Texts

variable {s : List Char}

theorem newline_notMem_encodeHex (bytes : Bytes) : '\n' ∉ encodeHex bytes := by
  intro mem
  obtain ⟨byte, _, here⟩ := mem_flatMap.mp mem
  have digit : ∀ n < 16, '\n' ≠ n.digitChar := by decide
  have below : byte.toNat < 256 := byte.toNat_lt
  rcases mem_pair.mp here with high | low
  · exact digit _ (by omega) high
  · exact digit _ (by omega) low

theorem newline_notMem_of_decode {bytes : Bytes} (read : decodePairs s = some bytes)
    (even : s.length % 2 = 0) : '\n' ∉ s := by
  induction s using decodePairs.induct generalizing bytes with
  | case1 => exact not_mem_nil
  | case2 => cases even
  | case3 high low s ih =>
    simp only [decodePairs, bind, Option.bind_eq_some_iff] at read
    obtain ⟨_, highRead, _, lowRead, _, restRead, _⟩ := read
    have others := ih restRead (by simp only [length_cons] at even; omega)
    simp only [mem_cons, not_or]
    refine ⟨?_, ?_, others⟩
    · rintro rfl
      cases highRead
    · rintro rfl
      cases lowRead

theorem newline_notMem_of_valid (valid : validIdentity s = true) : '\n' ∉ s := by
  intro mem
  simp only [validIdentity, Bool.and_eq_true, all_eq_true] at valid
  exact absurd (valid.2 _ mem) (by decide)

theorem newline_notMem_toDigits (n : ℕ) : '\n' ∉ Nat.toDigits 10 n :=
  notMem_of_value (by decide) (value_toDigits (by decide) (by decide) n)

/-- **The signed text tells its fields apart.** -/
theorem canonical_inj {m p b s t n m' p' b' s' t' n' : List Char} {time time' : ℕ}
    (lines : ∀ field ∈ [m, p, b, s, t, n, m', p', b', s', t', n'], '\n' ∉ field)
    (same : canonical m p b s t time n = canonical m' p' b' s' t' time' n') :
    m = m' ∧ p = p' ∧ b = b' ∧ s = s' ∧ t = t' ∧ time = time' ∧ n = n' := by
  have fixed : '\n' ∉ "cells-peer-request-v1".toList ∧ '\n' ∉ protocolVersion := by decide
  have digits := newline_notMem_toDigits
  simp only [forall_mem_cons] at lines
  have split := congrArg (List.splitOn '\n') same
  rw [canonical, canonical, splitOn_intercalate _ (by simp_all) (by simp),
    splitOn_intercalate _ (by simp_all) (by simp)] at split
  simp only [List.cons.injEq, and_true, true_and] at split
  obtain ⟨rfl, rfl, rfl, rfl, rfl, stamps, rfl⟩ := split
  have read := congrArg (value? 10 0) stamps
  rw [value_toDigits (by decide) (by decide), value_toDigits (by decide) (by decide)] at read
  exact ⟨rfl, rfl, rfl, rfl, rfl, Option.some.inj read, rfl⟩

end Texts

section Accepted

variable {fleet : Fleet} {call : Call} {calls : List Call} {nonce : Bytes} {now : ℕ}
  {c : ReplayCache}

theorem required_eq_ok {α : Type} {o : Option α} {a : α} :
    Fleet.required o = .ok a ↔ o = some a := by
  cases o <;> simp [Fleet.required]

theorem ensure_eq_ok {holds : Bool} {error : VerifyError} {u : Unit} :
    Fleet.ensure holds error = .ok u ↔ holds = true := by
  cases holds <;> simp [Fleet.ensure]

/-- What a call shows that is let through to the nonces. -/
theorem authenticate_eq_ok (ok : fleet.authenticate call = .ok (nonce, now)) :
    ∃ source target timestamp nonceText,
      (call.headers .source = some source ∧ call.headers .target = some target ∧
        call.timestamp = some timestamp ∧ call.headers .nonce = some nonceText) ∧
      (validIdentity source = true ∧ validIdentity target = true ∧ target = call.expectedTarget) ∧
      (call.now = some now ∧ withinClockWindow now timestamp clockWindowMs = true) ∧
      decodeHex 16 nonceText = some nonce ∧
      call.signature = some (fleet.hmac fleet.key (canonical call.method call.path
        (fleet.sha256Hex call.body) source target timestamp nonceText)) := by
  simp only [Fleet.authenticate, bind_eq_ok, required_eq_ok, ensure_eq_ok, Bool.and_eq_true,
    decide_eq_true_eq] at ok
  obtain ⟨_, _, _, _, source, hasSource, target, hasTarget, _, ⟨named, named'⟩, timestamp, stamped,
    _, clock, _, window, nonceText, hasNonce, _, decoded, _, _, _, _, signature, signed, _,
    same, _, expected, done⟩ := ok
  cases done
  exact ⟨source, target, timestamp, nonceText, ⟨hasSource, hasTarget, stamped, hasNonce⟩,
    ⟨named, named', expected⟩, ⟨clock, window⟩, decoded, same ▸ signed⟩

/-- A call is accepted with a nonce that is new to the cache, or that it may forget. -/
theorem verify_eq_ok (ok : (fleet.verify c call).1 = .ok ()) :
    ∃ nonce now timestamp, fleet.authenticate call = .ok (nonce, now) ∧
      call.stamp = some (nonce, timestamp) ∧ call.now = some now ∧
      (now ≤ timestamp + clockWindowMs ∧ timestamp ≤ now + clockWindowMs) ∧
      (nonce, now) ∈ (fleet.verify c call).2.entries ∧
      ∀ seen, (nonce, seen) ∈ c.entries → seen + replayRetentionMs < now := by
  unfold Fleet.verify at ok ⊢
  split at ok
  · cases ok
  rename_i nonce now through
  obtain ⟨_, _, timestamp, _, ⟨_, _, stamped, hasNonce⟩, _, ⟨clock, window⟩, decoded, _⟩ :=
    authenticate_eq_ok through
  have near : (now - timestamp) + (timestamp - now) ≤ clockWindowMs := of_decide_eq_true window
  refine ⟨nonce, now, timestamp, through, ?_, clock, by omega, ?_⟩
  · simp [Call.stamp, hasNonce, decoded, stamped]
  unfold ReplayCache.admitNonce at ok ⊢
  dsimp only at ok ⊢
  split at ok
  · cases ok
  rename_i absent
  split at ok
  · cases ok
  rename_i room
  rw [if_neg absent, if_neg room]
  refine ⟨mem_cons_self, fun seen mem => ?_⟩
  refine (c.mem_swept now mem).resolve_left fun kept => absent ?_
  exact any_eq_true.mpr ⟨_, kept, by simp⟩

/-- A call forgets what is old by its clock. -/
theorem mem_verify (fleet : Fleet) (call : Call) {e : Bytes × ℕ} (mem : e ∈ c.entries) :
    e ∈ (fleet.verify c call).2.entries ∨ ∃ now ∈ call.now, e.2 + replayRetentionMs < now := by
  unfold Fleet.verify
  split
  · exact .inl mem
  · rename_i now through
    obtain ⟨_, _, _, _, _, _, ⟨clock, _⟩, _⟩ := authenticate_eq_ok through
    refine (c.mem_swept now mem).imp (fun kept => ?_) fun old => ⟨now, clock, old⟩
    unfold ReplayCache.admitNonce
    dsimp only
    split
    · exact kept
    split
    · exact kept
    · exact mem_cons_of_mem _ kept

/-- Clocks do not go back. -/
abbrev Ordered (calls : List Call) : Prop :=
  calls.Pairwise fun a b => ∀ now ∈ a.now, ∀ now' ∈ b.now, now ≤ now'

/-- A nonce that was accepted is in the cache, or too old for every later call. -/
def ReplayCache.Remembers (c : ReplayCache) (nonce : Bytes) (timestamp : ℕ) (calls : List Call) :
    Prop :=
  (∃ seen, (nonce, seen) ∈ c.entries ∧ timestamp ≤ seen + clockWindowMs) ∨
    ∀ call ∈ calls, ∀ now ∈ call.now, timestamp + clockWindowMs < now

/-- **What is remembered stays so.**  A sweep goes back twice the window. -/
theorem verify_remembers (fleet : Fleet) {timestamp : ℕ}
    (remembers : c.Remembers nonce timestamp (call :: calls))
    (later : ∀ other ∈ calls, ∀ now ∈ call.now, ∀ now' ∈ other.now, now ≤ now') :
    (fleet.verify c call).2.Remembers nonce timestamp calls := by
  rcases remembers with ⟨seen, mem, close⟩ | old
  · refine (mem_verify fleet call mem).imp (fun kept => ⟨seen, kept, close⟩) ?_
    rintro ⟨now, clock, gone⟩ other mem now' reads
    have le := later other mem now clock now' reads
    simp only [replayRetentionMs] at gone
    omega
  · exact .inr fun other mem => old other (mem_cons_of_mem _ mem)

/-- **No two calls are accepted with one stamp.** -/
theorem accepted_fresh (ordered : Ordered calls) :
    (∀ nonce timestamp, c.Remembers nonce timestamp calls → ∀ call ∈ fleet.accepted c calls,
      call.stamp ≠ some (nonce, timestamp)) ∧
    (fleet.accepted c calls).Pairwise fun a b => a.stamp ≠ b.stamp := by
  induction calls generalizing c with
  | nil => exact ⟨fun _ _ _ _ mem => absurd mem not_mem_nil, .nil⟩
  | cons call calls ih =>
    obtain ⟨later, rest⟩ := pairwise_cons.mp ordered
    obtain ⟨others, apart⟩ := ih rest
    rw [Fleet.accepted]
    split
    · rename_i ok
      obtain ⟨nonce, now, timestamp, _, shown, clock, near, noted, new⟩ := verify_eq_ok ok
      refine ⟨fun nonce' timestamp' remembers => forall_mem_cons.mpr ⟨fun same => ?_,
        others _ _ (verify_remembers fleet remembers later)⟩, .cons (fun other mem => ?_) apart⟩
      · cases shown.symm.trans same
        rcases remembers with ⟨seen, mem, _⟩ | old
        · have forgotten := new seen mem
          simp only [replayRetentionMs] at forgotten
          omega
        · have far := old call mem_cons_self now clock
          omega
      · rw [shown]
        exact (others nonce timestamp (.inl ⟨now, noted, near.2⟩) other mem).symm
    · exact ⟨fun _ _ remembers => others _ _ (verify_remembers fleet remembers later), apart⟩

theorem mem_of_accepted (mem : call ∈ fleet.accepted c calls) :
    call ∈ calls ∧ ∃ c : ReplayCache, (fleet.verify c call).1 = .ok () := by
  induction calls generalizing c with
  | nil => exact absurd mem not_mem_nil
  | cons first calls ih =>
    rw [Fleet.accepted] at mem
    split at mem
    · rename_i ok
      rcases mem_cons.mp mem with rfl | mem
      · exact ⟨mem_cons_self, c, ok⟩
      · exact (ih mem).imp_left (mem_cons_of_mem first)
    · exact (ih mem).imp_left (mem_cons_of_mem first)

/-! ## As signed -/

/-- What was signed, and what is taken for granted of it and of the calls. -/
structure Ideal (fleet : Fleet) (signed : List Request) (calls : List Call) : Prop where
  made : ∀ r ∈ signed, (fleet.signedHeaders r).isSome
  lines : ∀ r ∈ signed, '\n' ∉ r.method ∧ '\n' ∉ r.path
  callLines : ∀ call ∈ calls, '\n' ∉ call.method ∧ '\n' ∉ call.path
  /-- No two bodies have one hash. -/
  collisionFree : ∀ call ∈ calls, ∀ r ∈ signed,
    fleet.sha256Hex call.body = fleet.sha256Hex r.body → call.body = r.body
  /-- Whoever shows the tag of a text has it from a request that was signed. -/
  held : ∀ call ∈ calls, ∀ text ∈ fleet.text call,
    call.signature = some (fleet.hmac fleet.key text) →
      ∃ r ∈ signed, fleet.hmac fleet.key text = fleet.hmac fleet.key (fleet.textOf r)
  /-- No two texts have one tag. -/
  injective : ∀ call ∈ calls, ∀ text ∈ fleet.text call, ∀ r ∈ signed,
    fleet.hmac fleet.key text = fleet.hmac fleet.key (fleet.textOf r) → text = fleet.textOf r

/-- **A request is accepted at most once, and only as signed.** -/
theorem accepted_signed_once (fleet : Fleet) (c : ReplayCache) (signed : List Request)
    (calls : List Call) (ordered : Ordered calls) (ideal : Ideal fleet signed calls) :
    (∀ call ∈ fleet.accepted c calls, ∃ r ∈ signed, call.Carries r ∧
      r.target = call.expectedTarget) ∧
    (fleet.accepted c calls).Pairwise fun a b => ∀ r, a.Carries r → ¬ b.Carries r := by
  refine ⟨fun call mem => ?_,
    (accepted_fresh ordered).2.imp fun apart r carries carries' => apart ?_⟩
  swap
  · simp only [Call.stamp, carries.nonce, carries'.nonce, carries.timestamp, carries'.timestamp]
  obtain ⟨told, _, ok⟩ := mem_of_accepted mem
  obtain ⟨nonce, _, _, through, _⟩ := verify_eq_ok ok
  obtain ⟨source, target, timestamp, nonceText, ⟨hasSource, hasTarget, stamped, hasNonce⟩,
    ⟨named, named', expected⟩, _, decoded, tagged⟩ := authenticate_eq_ok through
  have text : fleet.text call = some (canonical call.method call.path (fleet.sha256Hex call.body)
      source target timestamp nonceText) := by
    rw [Fleet.text, hasSource, hasTarget, stamped, hasNonce]
    rfl
  obtain ⟨r, mem, same⟩ := ideal.held call told _ text tagged
  have made := ideal.made r mem
  have valid : validIdentity r.source = true ∧ validIdentity r.target = true := by
    rw [Fleet.signedHeaders] at made
    split at made
    · simpa using ‹(_ && _) = true›
    · cases made
  have oneLine : '\n' ∉ nonceText := by
    unfold decodeHex at decoded
    split at decoded
    · exact newline_notMem_of_decode decoded (by omega)
    · cases decoded
  obtain ⟨method, path, hash, rfl, rfl, rfl, rfl⟩ := canonical_inj
    (by simp [ideal.lines r mem, ideal.callLines call told, newline_notMem_of_valid, named, named',
      valid, oneLine, newline_notMem_encodeHex, Fleet.sha256Hex])
    (ideal.injective call told _ text r mem same)
  exact ⟨r, mem, ⟨method, path, ideal.collisionFree call told r mem hash, hasSource, hasTarget,
    stamped, hasNonce⟩, expected⟩

/-- A fleet whose hash is the body, and whose tag is the length of the text. -/
def plainFleet : Fleet where
  key := []
  sha256 body := body
  hmac _ text := List.replicate 31 0 ++ [UInt8.ofNat text.length]

def ping : Request where
  method := "GET".toList
  path := ['/']
  body := [1]
  source := ['a']
  target := ['b']
  timestamp := 130000
  nonce := List.replicate 16 7

/-- The request, early on the reader's clock, and then again. -/
def pings : List Call := [100000, 159999].map fun now =>
  { ping with
    headers := (plainFleet.signedHeaders ping).getD fun _ => none
    expectedTarget := ping.target
    now := some now }

theorem pings_once : (plainFleet.accepted {} pings).map (·.now) = [some 100000] ∧
    ∀ call ∈ plainFleet.accepted {} pings, ∃ r ∈ [ping], call.Carries r ∧
      r.target = call.expectedTarget :=
  ⟨by decide +kernel, (accepted_signed_once plainFleet {} [ping] pings (by decide +kernel)
    ⟨by decide +kernel, by decide +kernel, by decide +kernel, by decide +kernel, by decide +kernel,
      by decide +kernel⟩).1⟩

end Accepted

end Celld.Peer
