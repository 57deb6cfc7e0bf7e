import Celld.Lib.Numerals

/-!
# References to large values

A namespace keeps a large value in the bucket and writes a reference into its row
(`crates/logic/kv.rs`): a bare digest in the old layout, `v2:e<epoch>:<digest>` in the new one,
whose objects lie at `kv/blobs-v2/<cell>/e<epoch>/<digest>`.  The readers are meant to be
strict, so that each reference has one spelling and a collector that lists an object deletes
that object.  They check the epoch's first digit and leave the rest to the integer parser,
which skips a plus sign.
-/

namespace Celld.Keys

open List Nat

inductive BlobRef where
  | legacy (digest : List Char)
  | v2 (epoch : ℕ) (digest : List Char)
deriving DecidableEq

inductive BlobRefError where
  | shape
  | version
  | epoch
  | digest
deriving DecidableEq

/-- Sixty-four lowercase hexadecimal digits. -/
def validateBlobDigest (digest : List Char) : Except BlobRefError (List Char) :=
  if digest.length = 64 ∧ digest.all (fun c => ('0' ≤ c && c ≤ '9') || ('a' ≤ c && c ≤ 'f')) then
    .ok digest
  else .error .digest

def parseBlobEpoch (epoch : List Char) : Except BlobRefError ℕ :=
  match epoch with
  | 'e' :: digits =>
      if digits.isEmpty || digits.head? = some '0' then .error .epoch
      else
        match (Numerals.parseUnsigned 10 (2 ^ 64) digits).filter (0 < ·) with
        | some epoch => .ok epoch
        | none => .error .epoch
  | _ => .error .epoch

namespace BlobRef

/-- How both readers end. -/
def ofParts (epoch digest : List Char) : Except BlobRefError BlobRef := do
  return .v2 (← parseBlobEpoch epoch) (← validateBlobDigest digest)

/-- Read a reference from its row. -/
def parse (reference : List Char) : Except BlobRefError BlobRef :=
  if !reference.contains ':' then do
    return .legacy (← validateBlobDigest reference)
  else
    match reference.splitOn ':' with
    | _ :: _ :: _ :: _ :: _ => .error .shape
    | [version, epoch, digest] =>
        if version ≠ ['v', '2'] then .error .version else ofParts epoch digest
    | version :: _ => if version ≠ ['v', '2'] then .error .version else .error .shape
    | [] => .error .version

/-- The reference a new write commits. -/
def mintV2 (epoch : ℕ) (digest : List Char) : Except BlobRefError BlobRef :=
  if epoch = 0 then .error .epoch else do
    return .v2 epoch (← validateBlobDigest digest)

/-- Read what follows the prefix of a listed object. -/
def parseObjectSuffix (suffix : List Char) : Except BlobRefError BlobRef :=
  match suffix.splitOn '/' with
  | [epoch, digest] => ofParts epoch digest
  | _ => .error .shape

def encode : BlobRef → List Char
  | .legacy digest => digest
  | .v2 epoch digest => "v2:e".toList ++ toDigits 10 epoch ++ ":".toList ++ digest

def v2ObjectPrefix (cell : List Char) : List Char := "kv/blobs-v2/".toList ++ cell ++ "/".toList

def objectKey (r : BlobRef) (cell : List Char) : List Char :=
  match r with
  | .legacy digest => "kv/blobs/".toList ++ cell ++ "/".toList ++ digest
  | .v2 epoch digest =>
      "kv/blobs-v2/".toList ++ cell ++ "/e".toList ++ toDigits 10 epoch ++ "/".toList ++ digest

end BlobRef

variable {epoch : ℕ} {digest s : List Char} {r : BlobRef}

theorem validateBlobDigest_eq {result : List Char}
    (valid : validateBlobDigest digest = .ok result) : result = digest := by
  unfold validateBlobDigest at valid
  split at valid
  · cases valid
    rfl
  · cases valid

theorem colon_notMem_digest {result : List Char} (valid : validateBlobDigest digest = .ok result) :
    ':' ∉ digest := by
  unfold validateBlobDigest at valid
  split at valid
  · rename_i hex
    exact fun mem => absurd (all_eq_true.mp hex.2 _ mem) (by decide)
  · cases valid

/-! ## Epochs -/

/-- An epoch that is read is spelled as it is written, unless it has a plus sign. -/
theorem parseBlobEpoch_ok (read : parseBlobEpoch s = .ok epoch) :
    ∃ c rest, s = 'e' :: c :: rest ∧ (toDigits 10 epoch = c :: rest ↔ c ≠ '+') := by
  unfold parseBlobEpoch at read
  split at read
  · rename_i digits
    split at read
    · cases read
    · rename_i proper
      cases digits with
      | nil => exact absurd rfl proper
      | cons c rest =>
        refine ⟨c, rest, rfl, ?_⟩
        have plus : '+' ∉ toDigits 10 epoch :=
          Numerals.notMem_of_value (by decide)
            (Numerals.value_toDigits (by decide) (by decide) epoch)
        by_cases sign : c = '+'
        · subst sign
          exact iff_of_false (fun same => plus (same ▸ mem_cons_self)) (fun other => other rfl)
        · refine iff_of_true (Numerals.toDigits_of_value ?_ ?_) sign
          · rintro rfl
            exact proper rfl
          · split at read
            · rename_i parsed
              cases read
              simp [Numerals.parseUnsigned, sign] at parsed
              exact parsed.1
            · cases read
  · cases read

theorem parseBlobEpoch_toDigits (pos : 0 < epoch) (fits : epoch < 2 ^ 64) :
    parseBlobEpoch ('e' :: toDigits 10 epoch) = .ok epoch := by
  have parsed : Numerals.parseUnsigned 10 (2 ^ 64) (toDigits 10 epoch) = some epoch :=
    Numerals.parseUnsigned_of_value toDigits_ne_nil
      (Numerals.value_toDigits (by decide) (by decide) epoch) fits
  have head : (toDigits 10 epoch).head? ≠ some '0' :=
    Numerals.head_toDigits_ne_zero (by decide) (by decide) pos
  simp only [parseBlobEpoch, parsed, Option.filter_some, pos, decide_true, if_true]
  simp [head, toDigits_ne_nil]

namespace BlobRef

/-! ## References -/

theorem ofParts_ok {text : List Char} (read : ofParts text digest = .ok r) :
    ∃ epoch c rest, r = .v2 epoch digest ∧ text = 'e' :: c :: rest ∧
      ∀ tail, toDigits 10 epoch ++ tail = c :: (rest ++ tail) ↔ c ≠ '+' := by
  cases parsed : parseBlobEpoch text with
  | error => simp [ofParts, parsed, bind, Except.bind] at read
  | ok epoch =>
    cases valid : validateBlobDigest digest with
    | error => simp [ofParts, parsed, valid, bind, Except.bind] at read
    | ok =>
      obtain ⟨c, rest, shape, spelled⟩ := parseBlobEpoch_ok parsed
      simp only [ofParts, parsed, valid, bind, Except.bind, pure, Except.pure,
        Except.ok.injEq] at read
      exact ⟨epoch, c, rest, by rw [← read, validateBlobDigest_eq valid], shape, fun _ =>
        (append_cancel_right_eq _ _ (c :: rest)).to_iff.trans spelled⟩

theorem encode_v2 (epoch : ℕ) (digest : List Char) : (BlobRef.v2 epoch digest).encode
    = 'v' :: '2' :: ':' :: 'e' :: (toDigits 10 epoch ++ ':' :: digest) := by
  have head : "v2:e".toList = ['v', '2', ':', 'e'] := rfl
  have colon : ":".toList = [':'] := rfl
  simp only [encode, head, colon, append_assoc, cons_append, nil_append]

theorem objectKey_v2 (epoch : ℕ) (digest cell : List Char) :
    (BlobRef.v2 epoch digest).objectKey cell
    = v2ObjectPrefix cell ++ 'e' :: (toDigits 10 epoch ++ '/' :: digest) := by
  have head : "/e".toList = "/".toList ++ ['e'] := rfl
  have slash : "/".toList = ['/'] := rfl
  have key : (BlobRef.v2 epoch digest).objectKey cell = "kv/blobs-v2/".toList ++ cell ++ "/e".toList
      ++ toDigits 10 epoch ++ "/".toList ++ digest := rfl
  have listed : v2ObjectPrefix cell = "kv/blobs-v2/".toList ++ cell ++ "/".toList := rfl
  rw [key, listed, head, slash]
  simp only [append_assoc, cons_append, nil_append]

theorem parse_ok (read : parse s = .ok r) : (':' ∉ s ∧ r = .legacy s) ∨
    ∃ text digest, s = 'v' :: '2' :: ':' :: (text ++ ':' :: digest) ∧
      ofParts text digest = .ok r := by
  unfold parse at read
  split at read
  · rename_i bare
    refine .inl ⟨by simpa using bare, ?_⟩
    cases valid : validateBlobDigest s with
    | error => simp [valid, bind, Except.bind] at read
    | ok =>
      simp only [valid, bind, Except.bind, pure, Except.pure, Except.ok.injEq] at read
      rw [← read, validateBlobDigest_eq valid]
  have joined : [':'].intercalate (s.splitOn ':') = s := intercalate_splitOn ':'
  split at read
  · cases read
  · rename_i text digest split
    split at read
    · cases read
    · rename_i same
      refine .inr ⟨text, digest, ?_, read⟩
      rw [← joined, split, not_not.mp same]
      simp [List.intercalate]
  · split at read <;> cases read
  · cases read

theorem parseObjectSuffix_ok (read : parseObjectSuffix s = .ok r) :
    ∃ text digest, s = text ++ '/' :: digest ∧ ofParts text digest = .ok r := by
  have joined : ['/'].intercalate (s.splitOn '/') = s := intercalate_splitOn '/'
  unfold parseObjectSuffix at read
  generalize s.splitOn '/' = parts at joined read
  split at read
  · rename_i text digest
    exact ⟨text, digest, by simpa [List.intercalate] using joined.symm, read⟩
  · cases read

/-! ## Spelling -/

/-- A reference is spelled as it is written, unless its epoch has a plus sign. -/
theorem encode_eq_iff (read : parse s = .ok r) : r.encode = s ↔ ¬ "v2:e+".toList <+: s := by
  have sign : "v2:e+".toList = ['v', '2', ':', 'e', '+'] := rfl
  rw [sign]
  rcases parse_ok read with ⟨bare, rfl⟩ | ⟨_, _, rfl, parts⟩
  · refine iff_of_true rfl fun ⟨rest, eq⟩ => bare ?_
    rw [← eq]
    simp
  · obtain ⟨_, _, rest, rfl, rfl, spelled⟩ := ofParts_ok parts
    rw [encode_v2]
    simp [spelled, eq_comm (a := '+')]

/-- So is the key of an object. -/
theorem objectKey_eq_iff (cell : List Char) (read : parseObjectSuffix s = .ok r) :
    r.objectKey cell = v2ObjectPrefix cell ++ s ↔ ¬ "e+".toList <+: s := by
  have sign : "e+".toList = ['e', '+'] := rfl
  rw [sign]
  obtain ⟨_, _, rfl, parts⟩ := parseObjectSuffix_ok read
  obtain ⟨_, _, _, rfl, rfl, spelled⟩ := ofParts_ok parts
  rw [objectKey_v2, append_cancel_left_eq]
  simp [spelled, eq_comm (a := '+')]

theorem parse_encode (fits : epoch < 2 ^ 64) (minted : mintV2 epoch digest = .ok r) :
    parse r.encode = .ok r := by
  have colon : ':' ∉ toDigits 10 epoch :=
    Numerals.notMem_of_value (by decide) (Numerals.value_toDigits (by decide) (by decide) epoch)
  unfold mintV2 at minted
  split at minted
  · cases minted
  rename_i pos
  cases valid : validateBlobDigest digest with
  | error => simp [valid, bind, Except.bind] at minted
  | ok result =>
    simp only [valid, bind, Except.bind, pure, Except.pure, Except.ok.injEq] at minted
    obtain rfl := validateBlobDigest_eq valid
    rw [← minted, encode_v2]
    have split : ([':'].intercalate [['v', '2'], 'e' :: toDigits 10 epoch, result]).splitOn ':'
        = [['v', '2'], 'e' :: toDigits 10 epoch, result] :=
      splitOn_intercalate ':' (by simp [colon, colon_notMem_digest valid]) (by simp)
    simp only [List.intercalate, List.intersperse, flatten_cons, flatten_nil,
      cons_append, nil_append, append_nil] at split
    simp [parse, split, ofParts, parseBlobEpoch_toDigits (pos_of_ne_zero pos) fits, valid, bind,
      Except.bind, pure, Except.pure]

/-- **References have one spelling, but for the plus sign** that the integer parser skips. -/
theorem canonical_iff (s cell digest : List Char) (r : BlobRef) (epoch : ℕ) :
    (parse s = .ok r → (r.encode = s ↔ ¬ "v2:e+".toList <+: s)) ∧
    (parseObjectSuffix s = .ok r →
      (r.objectKey cell = v2ObjectPrefix cell ++ s ↔ ¬ "e+".toList <+: s)) ∧
    (1 ≤ epoch → epoch < 2 ^ 64 → validateBlobDigest digest = .ok digest →
      mintV2 epoch digest = .ok (.v2 epoch digest) ∧
        parse (BlobRef.v2 epoch digest).encode = .ok (.v2 epoch digest)) := by
  refine ⟨encode_eq_iff, objectKey_eq_iff cell, fun pos fits valid => ?_⟩
  have minted : mintV2 epoch digest = .ok (.v2 epoch digest) := by
    rw [mintV2, if_neg (by omega), valid]
    rfl
  exact ⟨minted, parse_encode fits minted⟩

/-- The reference `v2:e5:aa…` is read and written. -/
theorem canonical_five : let digest := List.replicate 64 'a'
    validateBlobDigest digest = .ok digest ∧
      parse (BlobRef.v2 5 digest).encode = .ok (.v2 5 digest) ∧
      (BlobRef.v2 5 digest).objectKey ['c'] = v2ObjectPrefix ['c'] ++ "e5/".toList ++ digest := by
  have valid : validateBlobDigest (List.replicate 64 'a') = .ok (List.replicate 64 'a') := by
    decide +kernel
  have read : parseObjectSuffix ("e5/".toList ++ List.replicate 64 'a')
      = .ok (.v2 5 (List.replicate 64 'a')) := by
    decide +kernel
  refine ⟨valid, ((canonical_iff [] [] _ (.v2 0 []) 5).2.2 (by decide) (by decide) valid).2, ?_⟩
  rw [append_assoc]
  exact ((canonical_iff _ ['c'] [] _ 0).2.1 read).mpr (by decide +kernel)

/-- The reference `v2:e+5:aa…` and the object `e+5/aa…` are read as those of epoch 5. -/
theorem plus_accepted : let digest := List.replicate 64 'a'
    parse ("v2:e+5:".toList ++ digest) = .ok (.v2 5 digest) ∧
      (BlobRef.v2 5 digest).encode ≠ "v2:e+5:".toList ++ digest ∧
      parseObjectSuffix ("e+5/".toList ++ digest) = .ok (.v2 5 digest) ∧
      (BlobRef.v2 5 digest).objectKey ['c'] ≠ v2ObjectPrefix ['c'] ++ "e+5/".toList ++ digest := by
  decide +kernel

end BlobRef

end Celld.Keys
