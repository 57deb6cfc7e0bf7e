import Mathlib

/-!
# A write-back cache over a table

States are kept by key.  The most recently used ones are in memory, each with the clock of its last
use; the others are encoded into a table.  Using a key that is not in memory loads it, and first
spills the least recently used state if the memory is full.

`Store.value` is the map the cache stands for: spilling and loading do not change it, and a use
changes it at its key alone (`Store.value_modify`), as long as every state fits the table.
-/

namespace Cache

open Std.ExtTreeMap

/-- How states are written to the table.  Those the table has room for are read back. -/
structure Codec (S B : Type*) where
  encode : S → B
  decode : B → Option S
  Fits : S → Prop
  decode_encode : ∀ s, Fits s → decode (encode s) = some s

variable {K S B : Type*} [LinearOrder K] {key : K}

/-- The states in memory with the clock of their last use, the keys in memory by that clock, and
the table. -/
structure Raw (K S B : Type*) [LinearOrder K] where
  hot : Std.ExtTreeMap K (ℕ × S) := ∅
  recency : Std.ExtTreeMap ℕ K := ∅
  clock : ℕ := 0
  cold : Std.ExtTreeMap K B := ∅

namespace Raw

/-- Spill the least recently used state. -/
def evict (codec : Codec S B) (c : Raw K S B) : Raw K S B :=
  match c.recency.toList.head? with
  | none => c
  | some (used, oldest) =>
      match c.hot[oldest]? with
      | none => c
      | some (_, s) =>
          { c with
            hot := c.hot.erase oldest
            recency := c.recency.erase used
            cold := c.cold.insert oldest (codec.encode s) }

/-- The state the table holds for a key. -/
def load [Inhabited S] (codec : Codec S B) (c : Raw K S B) (key : K) : S :=
  ((c.cold[key]?).bind codec.decode).getD default

/-- Use a key: bring its state into memory and change it in place. -/
def touch [Inhabited S] (codec : Codec S B) (c : Raw K S B) (key : K) (change : S → S) :
    Raw K S B :=
  match c.hot[key]? with
  | some (used, s) =>
      { c with
        hot := c.hot.insert key (c.clock + 1, change s)
        recency := (c.recency.erase used).insert (c.clock + 1) key
        clock := c.clock + 1 }
  | none =>
      { hot := c.hot.insert key (c.clock + 1, change (c.load codec key))
        recency := c.recency.insert (c.clock + 1) key
        clock := c.clock + 1
        cold := c.cold.erase key }

def modify [Inhabited S] (codec : Codec S B) (capacity : ℕ) (c : Raw K S B) (key : K)
    (change : S → S) : Raw K S B :=
  if capacity ≤ c.hot.size ∧ key ∉ c.hot then (c.evict codec).touch codec key change
  else c.touch codec key change

/-- The state of a key, wherever it is. -/
def value [Inhabited S] (codec : Codec S B) (c : Raw K S B) (key : K) : S :=
  match c.hot[key]? with
  | some (_, s) => s
  | none => c.load codec key

/-- The recency index lists the states in memory, and the memory is within its bound. -/
structure Sound (capacity : ℕ) (c : Raw K S B) : Prop where
  recency : ∀ (used : ℕ) (key : K), c.recency[used]? = some key ↔ ∃ s, c.hot[key]? = some (used, s)
  used_le : ∀ (used : ℕ) (key : K), c.recency[used]? = some key → used ≤ c.clock
  size_le : c.hot.size ≤ capacity

variable {capacity : ℕ} {c : Raw K S B} (codec : Codec S B)

/-- What is spilled is one state in memory. -/
theorem evict_cases (sound : c.Sound capacity) : c.evict codec = c ∧ c.hot.size = 0 ∨
    ∃ (used : ℕ) (oldest : K) (s : S), c.recency[used]? = some oldest ∧
      c.hot[oldest]? = some (used, s) ∧
      c.evict codec =
        { c with
          hot := c.hot.erase oldest
          recency := c.recency.erase used
          cold := c.cold.insert oldest (codec.encode s) } := by
  cases first : c.recency.toList.head? with
  | none =>
    refine .inl ⟨by simp only [evict, first], ?_⟩
    by_contra some_hot
    have nonempty : c.hot.toList ≠ [] := fun empty => some_hot (by
      rw [← length_toList, empty, List.length_nil])
    obtain ⟨⟨key, used, s⟩, mem⟩ := List.exists_mem_of_ne_nil _ nonempty
    have listed := (sound.recency used key).mpr
      ⟨s, mem_toList_iff_getElem?_eq_some.mp mem⟩
    rw [← mem_toList_iff_getElem?_eq_some, List.head?_eq_none_iff.mp first] at listed
    exact List.not_mem_nil listed
  | some entry =>
    obtain ⟨used, oldest⟩ := entry
    have listed := mem_toList_iff_getElem?_eq_some.mp (List.mem_of_head? first)
    obtain ⟨s, here⟩ := (sound.recency used oldest).mp listed
    exact .inr ⟨used, oldest, s, listed, here, by simp only [evict, first, here]⟩

/-- A state in memory is listed under one clock. -/
theorem Sound.used_eq (sound : c.Sound capacity) {used used' : ℕ}
    (listed : c.recency[used]? = some key) (listed' : c.recency[used']? = some key) :
    used = used' := by
  obtain ⟨_, here⟩ := (sound.recency used key).mp listed
  obtain ⟨_, here'⟩ := (sound.recency used' key).mp listed'
  rw [here] at here'
  exact (Prod.mk.inj (Option.some.inj here')).1

/-- A state leaves the memory. -/
theorem Sound.leave (sound : c.Sound capacity) {used : ℕ} (listed : c.recency[used]? = some key)
    (cold : Std.ExtTreeMap K B) :
    Sound capacity { c with
      hot := c.hot.erase key
      recency := c.recency.erase used
      cold := cold } := by
  refine ⟨fun used' key' => ?_, fun used' key' there => ?_, ?_⟩
  · simp only [getElem?_erase, compare_eq_iff_eq]
    by_cases sameUse : used = used'
    · -- The clock that leaves lists the key that leaves.
      subst sameUse
      rw [if_pos rfl]
      simp only [reduceCtorEq, false_iff, not_exists]
      intro s' there
      split_ifs at there with other
      have same := (sound.recency used key').mpr ⟨s', there⟩
      rw [listed] at same
      exact other (Option.some.inj same)
    · rw [if_neg sameUse, sound.recency]
      refine exists_congr fun s' => ?_
      split_ifs with other
      · subst other
        refine ⟨fun there => ?_, fun there => by cases there⟩
        exact absurd (sound.used_eq listed ((sound.recency _ _).mpr ⟨s', there⟩)) sameUse
      · rfl
  · rw [getElem?_erase] at there
    split_ifs at there
    exact sound.used_le used' key' there
  · exact (size_erase_le).trans sound.size_le

/-- A state enters the memory. -/
theorem Sound.enter (sound : c.Sound capacity) (absent : c.hot[key]? = none)
    (room : c.hot.size < capacity) (s : S) (cold : Std.ExtTreeMap K B) :
    Sound capacity
      { hot := c.hot.insert key (c.clock + 1, s)
        recency := c.recency.insert (c.clock + 1) key
        clock := c.clock + 1
        cold := cold } := by
  have unused : ∀ key', c.recency[c.clock + 1]? ≠ some key' := fun key' listed =>
    absurd (sound.used_le _ key' listed) (by omega)
  refine ⟨fun used' key' => ?_, fun used' key' => ?_, ?_⟩
  · simp only [getElem?_insert, compare_eq_iff_eq]
    by_cases now : c.clock + 1 = used' <;> by_cases mine : key = key'
    · simp [now, mine]
    · subst now
      simp [mine, ← sound.recency, unused]
    · subst mine
      simp [now, sound.recency, absent]
    · simp only [now, mine, if_false, ← sound.recency]
  · simp only [getElem?_insert, compare_eq_iff_eq]
    intro there
    split_ifs at there with now
    · omega
    · exact (sound.used_le used' key' there).trans (Nat.le_succ _)
  · exact size_insert_le.trans (Nat.succ_le_of_lt room)

theorem Sound.evict (sound : c.Sound capacity) : (c.evict codec).Sound capacity := by
  rcases evict_cases codec sound with ⟨same, -⟩ | ⟨_, _, _, listed, _, eq⟩
  · rwa [same]
  · rw [eq]
    exact sound.leave listed _

/-- Spilling makes room. -/
theorem evict_size (sound : c.Sound capacity) : (c.evict codec).hot.size ≤ c.hot.size - 1 := by
  rcases evict_cases codec sound with ⟨same, empty⟩ | ⟨_, oldest, _, _, here, eq⟩
  · rw [same, empty]
  · have mem : oldest ∈ c.hot := mem_iff_isSome_getElem?.mpr (by rw [here]; rfl)
    simp only [eq, size_erase, contains_iff_mem, mem, if_true, le_refl]

theorem Sound.touch [Inhabited S] (sound : c.Sound capacity) (change : S → S)
    (room : key ∈ c.hot ∨ c.hot.size < capacity) : (c.touch codec key change).Sound capacity := by
  unfold Raw.touch
  cases here : c.hot[key]? with
  | some entry =>
    -- The state leaves the memory, and enters it again.
    have mem : key ∈ c.hot := mem_iff_isSome_getElem?.mpr (by rw [here]; rfl)
    have left := sound.leave ((sound.recency entry.1 key).mpr ⟨entry.2, here⟩) c.cold
    have absent : (c.hot.erase key)[key]? = none := by simp
    have again := left.enter absent ?_ (change entry.2) c.cold
    · have same : (c.hot.erase key).insert key (c.clock + 1, change entry.2)
          = c.hot.insert key (c.clock + 1, change entry.2) := by
        ext k : 1
        simp only [getElem?_insert, getElem?_erase]
        split_ifs <;> rfl
      rwa [same] at again
    · have some_hot : c.hot.size ≠ 0 := fun empty => by
        simp [eq_empty_iff_size_eq_zero.mpr empty] at mem
      have bound := sound.size_le
      simp only [size_erase, contains_iff_mem, mem, if_true]
      omega
  | none =>
    refine sound.enter here (room.resolve_left fun mem => ?_) _ _
    simpa [here] using mem_iff_isSome_getElem?.mp mem

/-- Spilling leaves every state's value. -/
theorem value_evict [Inhabited S] (sound : c.Sound capacity)
    (fits : ∀ key, codec.Fits (c.value codec key)) :
    (c.evict codec).value codec = c.value codec := by
  rcases evict_cases codec sound with ⟨same, -⟩ | ⟨_, oldest, _, _, here, eq⟩
  · rw [same]
  · funext key
    rw [eq]
    by_cases other : oldest = key
    · subst other
      have fits := fits oldest
      simp only [value, here] at fits
      simp [value, load, here, codec.decode_encode _ fits]
    · simp [value, load, getElem?_erase, getElem?_insert, other]

theorem value_touch [Inhabited S] (c : Raw K S B) (key : K) (change : S → S) :
    (c.touch codec key change).value codec =
      Function.update (c.value codec) key (change (c.value codec key)) := by
  funext other
  unfold touch
  by_cases mine : key = other
  · subst mine
    cases here : c.hot[key]? with
    | some => simp [value, here]
    | none => simp [value, here]
  · cases here : c.hot[key]? with
    | some => simp [value, load, getElem?_insert, mine, Ne.symm mine]
    | none =>
      simp [value, load, getElem?_insert, getElem?_erase, mine,
        Ne.symm mine]

end Raw

/-- A cache whose index and bound are kept. -/
def Store (K : Type*) {S B : Type*} [LinearOrder K] (_ : Codec S B) (capacity : ℕ) :=
  { c : Raw K S B // c.Sound capacity }

namespace Store

variable {codec : Codec S B} {capacity : ℕ}

def empty (K : Type*) [LinearOrder K] (codec : Codec S B) (capacity : ℕ) : Store K codec capacity :=
  ⟨{}, by simp, by simp, by simp⟩

variable [Inhabited S]

def value (c : Store K codec capacity) : K → S := c.1.value codec

theorem value_empty : (empty K codec capacity).value = fun _ => default := by
  funext key
  simp [value, empty, Raw.value, Raw.load]

variable [NeZero capacity]

/-- Use a key's state, and change it in place. -/
def modify (c : Store K codec capacity) (key : K) (change : S → S) : Store K codec capacity :=
  ⟨c.1.modify codec capacity key change, by
    unfold Raw.modify
    split_ifs with full
    · refine (c.2.evict codec).touch codec change (.inr ?_)
      have room := Raw.evict_size codec c.2
      have bound := c.2.size_le
      have pos := NeZero.pos capacity
      omega
    · refine c.2.touch codec change ?_
      by_cases mem : key ∈ c.1.hot
      · exact .inl mem
      · exact .inr (not_le.mp fun le => full ⟨le, mem⟩)⟩

/-- A use changes the map at its key alone. -/
theorem value_modify (c : Store K codec capacity) (fits : ∀ key, codec.Fits (c.value key))
    (key : K) (change : S → S) :
    (c.modify key change).value = Function.update c.value key (change (c.value key)) := by
  unfold value modify Raw.modify
  dsimp only
  split_ifs
  · rw [Raw.value_touch, Raw.value_evict codec c.2 fits]
  · rw [Raw.value_touch]

/-- What holds of every state holds after a use, if it holds of the state at its key. -/
theorem modify_forall {P : K → S → Prop} {c : Store K codec capacity} {change : S → S}
    (fits : ∀ key, codec.Fits (c.value key)) (here : P key (change (c.value key)))
    (others : ∀ k ≠ key, P k (c.value k)) (k : K) :
    P k ((c.modify key change).value k) := by
  rw [value_modify c fits]
  exact (Function.forall_update_iff _ P).mpr ⟨here, others⟩ k

end Store

end Cache
