import Kanata.Basic

/-!
# Kanata.Parser.Trie — the table of key sequences

`parser/src/trie.rs` stores sequences of 16 bit elements in a map of the
`patricia_tree` crate, under their bytes. The map is a parameter here
(`PatriciaMap`), with what its documentation says of it (`LawfulPatriciaMap`).
Whole elements have two bytes, so that prefixes of bytes are prefixes of elements
(`castSlice_prefix_iff`) and the questions the trie answers are about elements.
-/

namespace Kanata

/-- What is used of `patricia_tree::map::PatriciaMap`. -/
class PatriciaMap (M : Type → Type) where
  new {T : Type} : M T
  get {T : Type} : M T → List UInt8 → Option T
  insert {T : Type} : M T → List UInt8 → T → M T
  getLongestCommonPrefix {T : Type} : M T → List UInt8 → Option (List UInt8 × T)
  longestCommonPrefixLen {T : Type} : M T → List UInt8 → Nat
  iterPrefix {T : Type} : M T → List UInt8 → List (List UInt8 × T)

/-- It is a map, with the two queries about prefixes and the entries below a
prefix, of which the prefix itself is the first one in order. -/
class LawfulPatriciaMap (M : Type → Type) [PatriciaMap M] : Prop where
  get_new {T : Type} (k : List UInt8) : PatriciaMap.get (PatriciaMap.new : M T) k = none
  get_insert {T : Type} (m : M T) (k k' : List UInt8) (v : T) :
    PatriciaMap.get (PatriciaMap.insert m k v) k' =
      if k' = k then some v else PatriciaMap.get m k'
  getLongestCommonPrefix_isSome {T : Type} (m : M T) (k : List UInt8) :
    (PatriciaMap.getLongestCommonPrefix m k).isSome ↔
      ∃ k', k' <+: k ∧ (PatriciaMap.get m k').isSome
  le_longestCommonPrefixLen {T : Type} (m : M T) (k : List UInt8) (n : Nat) (hn : n ≤ k.length) :
    n ≤ PatriciaMap.longestCommonPrefixLen m k ↔
      n = 0 ∨ ∃ k', k.take n <+: k' ∧ (PatriciaMap.get m k').isSome
  longestCommonPrefixLen_le {T : Type} (m : M T) (k : List UInt8) :
    PatriciaMap.longestCommonPrefixLen m k ≤ k.length
  mem_iterPrefix {T : Type} (m : M T) (k k' : List UInt8) (v : T) :
    (k', v) ∈ PatriciaMap.iterPrefix m k ↔ k <+: k' ∧ PatriciaMap.get m k' = some v
  head_iterPrefix {T : Type} (m : M T) (k : List UInt8) (v : T) :
    PatriciaMap.get m k = some v → (PatriciaMap.iterPrefix m k).head? = some (k, v)

/-- `cast_slice` from elements to bytes. -/
def castSlice (k : List UInt16) : List UInt8 :=
  k.flatMap fun e : UInt16 => [e.toUInt8, (e >>> 8).toUInt8]

inductive GetOrDescendentExistsResult (T : Type) where
  | notInTrie
  | inTrie
  | hasValue (v : T)
deriving DecidableEq, Repr

structure Trie (M : Type → Type) (T : Type) where
  inner : M T

namespace Trie

variable {M : Type → Type} [PatriciaMap M] {T : Type}

/-- `Trie::new`. -/
def new : Trie M T := ⟨PatriciaMap.new⟩

/-- `key_len`: two bytes for each element. -/
def keyLen (k : List UInt16) : Nat := k.length * 2

/-- `ancestor_exists`: a stored key is a prefix of the key. -/
def ancestorExists (t : Trie M T) (key : List UInt16) : Bool :=
  (PatriciaMap.getLongestCommonPrefix t.inner (castSlice key)).isSome

/-- `descendant_exists`: the key is a prefix of a stored one. -/
def descendantExists (t : Trie M T) (key : List UInt16) : Bool :=
  PatriciaMap.longestCommonPrefixLen t.inner (castSlice key) == keyLen key

/-- `insert`: the value is stored under the bytes. -/
def insert (t : Trie M T) (key : List UInt16) (val : T) : Trie M T :=
  ⟨PatriciaMap.insert t.inner (castSlice key) val⟩

/-- `get_or_descendant_exists`: the first entry at or below the key decides. -/
def getOrDescendantExists (t : Trie M T) (key : List UInt16) : GetOrDescendentExistsResult T :=
  match (PatriciaMap.iterPrefix t.inner (castSlice key)).head? with
  | none => .notInTrie
  | some descendant =>
    if descendant.1.length = keyLen key then .hasValue descendant.2 else .inTrie

/-- The value stored for a sequence. -/
def get (t : Trie M T) (key : List UInt16) : Option T := PatriciaMap.get t.inner (castSlice key)

end Trie

/-! ## Elements and bytes -/

/-- The bytes of a sequence. -/
theorem length_castSlice (k : List UInt16) : (castSlice k).length = Trie.keyLen k := by
  unfold castSlice Trie.keyLen
  induction k with
  | nil => rfl
  | cons e k ih =>
    rw [List.flatMap_cons, List.length_append, ih, List.length_cons]
    simp only [List.length_cons, List.length_nil]
    omega

/-- The two bytes of an element determine it. -/
theorem eq_of_bytes {e e' : UInt16} (hlow : e.toUInt8 = e'.toUInt8)
    (hhigh : (e >>> 8).toUInt8 = (e' >>> 8).toUInt8) : e = e' := by
  have hlow' := congrArg UInt8.toNat hlow
  have hhigh' := congrArg UInt8.toNat hhigh
  have hlt := e.toNat_lt
  have hlt' := e'.toNat_lt
  simp only [UInt16.toNat_toUInt8, UInt16.toNat_shiftRight] at hlow' hhigh'
  refine UInt16.toNat_inj.mp ?_
  simp [Nat.shiftRight_eq_div_pow] at hlow' hhigh'
  omega

/-- A prefix in bytes is a prefix in elements: the bytes of a stored key do not end inside an
element. -/
theorem castSlice_prefix_iff {k k' : List UInt16} : castSlice k <+: castSlice k' ↔ k <+: k' := by
  induction k generalizing k' with
  | nil => simp [castSlice]
  | cons e k ih =>
    cases k' with
    | nil =>
      simp [castSlice]
    | cons e' k' =>
      -- one element is its low byte, then its high byte
      have hcons : ∀ (x : UInt16) (xs : List UInt16),
          castSlice (x :: xs) = x.toUInt8 :: (x >>> 8).toUInt8 :: castSlice xs := fun _ _ => rfl
      rw [hcons, hcons, List.cons_prefix_cons, List.cons_prefix_cons, List.cons_prefix_cons, ih]
      constructor
      · rintro ⟨hlow, hhigh, h⟩
        exact ⟨eq_of_bytes hlow hhigh, h⟩
      · rintro ⟨rfl, h⟩
        exact ⟨rfl, rfl, h⟩

/-- Different sequences have different bytes. -/
theorem castSlice_injective {k k' : List UInt16} (h : castSlice k = castSlice k') : k = k' := by
  have hle : k <+: k' := castSlice_prefix_iff.mp (h ▸ List.prefix_refl _)
  have hge : k' <+: k := castSlice_prefix_iff.mp (h ▸ List.prefix_refl _)
  exact hle.eq_of_length (Nat.le_antisymm hle.length_le hge.length_le)

/-- The whole sequence as a prefix of itself. -/
theorem take_castSlice (k : List UInt16) : (castSlice k).take (Trie.keyLen k) = castSlice k := by
  rw [← length_castSlice, List.take_length]

namespace Trie

variable {M : Type → Type} [PatriciaMap M] [LawfulPatriciaMap M] {T : Type}

/-- All that is stored is stored under elements. -/
def OfElements (t : Trie M T) : Prop :=
  ∀ bytes, (PatriciaMap.get t.inner bytes).isSome → ∃ k, bytes = castSlice k

/-- No stored sequence is a prefix of another one. -/
def PrefixFree (t : Trie M T) : Prop :=
  ∀ k k', (t.get k).isSome → (t.get k').isSome → k <+: k' → k = k'

/-- The empty table. -/
theorem ofElements_new : OfElements (new : Trie M T) := by
  intro bytes h
  have hnone : PatriciaMap.get (new : Trie M T).inner bytes = none :=
    LawfulPatriciaMap.get_new bytes
  rw [hnone] at h
  cases h

/-- It has no entry. -/
theorem get_new (k : List UInt16) : (new : Trie M T).get k = none :=
  LawfulPatriciaMap.get_new (castSlice k)

/-- So none is a prefix of another. -/
theorem prefixFree_new : PrefixFree (new : Trie M T) := by
  intro k k' h
  rw [get_new] at h
  cases h

/-- An insertion changes one entry. -/
theorem get_insert (t : Trie M T) (k k' : List UInt16) (v : T) :
    (t.insert k v).get k' = if k' = k then some v else t.get k' := by
  unfold get insert
  rw [LawfulPatriciaMap.get_insert]
  by_cases h : k' = k
  · rw [if_pos h, if_pos (congrArg castSlice h)]
  · rw [if_neg h, if_neg fun heq => h (castSlice_injective heq)]

/-- What is inserted is a sequence of elements. -/
theorem OfElements.insert {t : Trie M T} (h : t.OfElements) (k : List UInt16) (v : T) :
    (t.insert k v).OfElements := by
  intro bytes hsome
  unfold Trie.insert at hsome
  rw [LawfulPatriciaMap.get_insert] at hsome
  by_cases heq : bytes = castSlice k
  · exact ⟨k, heq⟩
  · rw [if_neg heq] at hsome
    exact h bytes hsome

section Queries

variable {t : Trie M T} (h : t.OfElements) {k : List UInt16}

include h

omit [LawfulPatriciaMap M] in
/-- Only keys are stored. -/
theorem exists_stored_iff {p : List UInt8 → Prop} :
    (∃ bytes, p bytes ∧ (PatriciaMap.get t.inner bytes).isSome) ↔
      ∃ k', p (castSlice k') ∧ (t.get k').isSome := by
  constructor
  · rintro ⟨bytes, hbytes, hsome⟩
    rcases h bytes hsome with ⟨k', rfl⟩
    exact ⟨k', hbytes, hsome⟩
  · rintro ⟨k', hk', hsome⟩
    exact ⟨castSlice k', hk', hsome⟩

/-- The query answers what its name says. -/
theorem ancestorExists_iff : t.ancestorExists k = true ↔ ∃ k', k' <+: k ∧ (t.get k').isSome := by
  unfold ancestorExists
  rw [LawfulPatriciaMap.getLongestCommonPrefix_isSome]
  rw [exists_stored_iff h]
  simp only [castSlice_prefix_iff]

/-- The empty sequence counts as a prefix in an empty table, too. -/
theorem descendantExists_iff :
    t.descendantExists k = true ↔ k = [] ∨ ∃ k', k <+: k' ∧ (t.get k').isSome := by
  have hle := LawfulPatriciaMap.longestCommonPrefixLen_le t.inner (castSlice k)
  have hlen : Trie.keyLen k ≤ (castSlice k).length := Nat.le_of_eq (length_castSlice k).symm
  have hiff := LawfulPatriciaMap.le_longestCommonPrefixLen t.inner (castSlice k) (keyLen k) hlen
  rw [length_castSlice] at hle
  rw [take_castSlice] at hiff
  unfold descendantExists
  rw [beq_iff_eq]
  have heq : PatriciaMap.longestCommonPrefixLen t.inner (castSlice k) = keyLen k ↔
      keyLen k ≤ PatriciaMap.longestCommonPrefixLen t.inner (castSlice k) := by
    omega
  have hzero : keyLen k = 0 ↔ k = [] := by
    unfold keyLen
    rw [Nat.mul_eq_zero, List.length_eq_zero_iff]
    simp
  rw [heq, hiff, hzero]
  refine or_congr Iff.rfl ?_
  rw [exists_stored_iff h]
  simp only [castSlice_prefix_iff]

/-- Only sequences that extend the queried one matter. -/
theorem getOrDescendantExists_eq_notInTrie :
    t.getOrDescendantExists k = .notInTrie ↔ ∀ k', k <+: k' → t.get k' = none := by
  unfold getOrDescendantExists
  constructor
  · intro hnot k' hk'
    cases hget : t.get k' with
    | none => rfl
    | some v =>
      have hmem := (LawfulPatriciaMap.mem_iterPrefix t.inner (castSlice k) (castSlice k') v).mpr
        ⟨castSlice_prefix_iff.mpr hk', hget⟩
      cases hhead : (PatriciaMap.iterPrefix t.inner (castSlice k)).head? with
      | none =>
        rw [List.head?_eq_none_iff.mp hhead] at hmem
        cases hmem
      | some descendant =>
        rw [hhead] at hnot
        simp only at hnot
        split at hnot <;> cases hnot
  · intro hall
    cases hhead : (PatriciaMap.iterPrefix t.inner (castSlice k)).head? with
    | none => rfl
    | some descendant =>
      rcases descendant with ⟨bytes, v⟩
      have hmem := (LawfulPatriciaMap.mem_iterPrefix t.inner (castSlice k) bytes v).mp
        (List.mem_of_mem_head? hhead)
      -- what is found first is a stored sequence that extends the queried one
      rcases h bytes (by rw [hmem.2]; rfl) with ⟨k', rfl⟩
      have hnone := hall k' (castSlice_prefix_iff.mp hmem.1)
      unfold get at hnone
      rw [hmem.2] at hnone
      cases hnone

omit h in
/-- A value is found for exactly the stored sequences. -/
theorem getOrDescendantExists_eq_hasValue {v : T} :
    t.getOrDescendantExists k = .hasValue v ↔ t.get k = some v := by
  unfold getOrDescendantExists
  constructor
  · intro hval
    cases hhead : (PatriciaMap.iterPrefix t.inner (castSlice k)).head? with
    | none =>
      rw [hhead] at hval
      cases hval
    | some descendant =>
      rcases descendant with ⟨bytes, v'⟩
      rw [hhead] at hval
      simp only at hval
      split at hval
      · rename_i hlen
        cases hval
        have hmem := (LawfulPatriciaMap.mem_iterPrefix t.inner (castSlice k) bytes v).mp
          (List.mem_of_mem_head? hhead)
        -- the first key found has the length of the queried one, of which it is an extension
        have heq : castSlice k = bytes := by
          refine hmem.1.eq_of_length ?_
          rw [length_castSlice]
          exact hlen.symm
        unfold get
        rw [heq]
        exact hmem.2
      · cases hval
  · intro hget
    rw [LawfulPatriciaMap.head_iterPrefix t.inner (castSlice k) v hget]
    simp only [length_castSlice, if_true]

end Queries

/-! ## Incomparable sequences -/

/-- The checks before an insertion keep the table prefix-free and its entries. -/
theorem PrefixFree.insert {t : Trie M T} {k : List UInt16} {v : T} (h : t.PrefixFree)
    (hanc : ∀ k', k' <+: k → t.get k' = none) (hdesc : ∀ k', k <+: k' → t.get k' = none) :
    (t.insert k v).PrefixFree ∧ ∀ k' v', t.get k' = some v' → (t.insert k v).get k' = some v' := by
  constructor
  · intro k₁ k₂ h₁ h₂ hle
    rw [get_insert] at h₁ h₂
    -- the new key may be the shorter one, the longer one, both or neither
    by_cases heq₁ : k₁ = k
    · by_cases heq₂ : k₂ = k
      · rw [heq₁, heq₂]
      · rw [if_neg heq₂, hdesc k₂ (heq₁ ▸ hle)] at h₂
        cases h₂
    · rw [if_neg heq₁] at h₁
      by_cases heq₂ : k₂ = k
      · rw [hanc k₁ (heq₂ ▸ hle)] at h₁
        cases h₁
      · rw [if_neg heq₂] at h₂
        exact h k₁ k₂ h₁ h₂ hle
  · intro k' v' hget
    have hne : k' ≠ k := by
      rintro rfl
      rw [hanc k' (List.prefix_refl _)] at hget
      cases hget
    rw [get_insert, if_neg hne, hget]

end Trie

/-! ## A map as a list of entries -/

/-- Entries in front hide those of the same key behind them. -/
structure EntryMap (T : Type) where
  entries : List (List UInt8 × T)

namespace EntryMap

variable {T : Type}

/-- The length of the longest common prefix. -/
def commonLen : List UInt8 → List UInt8 → Nat
  | a :: k, b :: k' => if a = b then commonLen k k' + 1 else 0
  | _, _ => 0

/-- The first entry of a key. -/
def lookup (m : EntryMap T) (k : List UInt8) : Option T := m.entries.lookup k

instance : PatriciaMap EntryMap where
  new := ⟨[]⟩
  get := lookup
  insert m k v := ⟨(k, v) :: m.entries⟩
  getLongestCommonPrefix m k :=
    (List.range (k.length + 1)).reverse.findSome? fun n =>
      (m.lookup (k.take n)).map fun v => (k.take n, v)
  longestCommonPrefixLen m k := m.entries.foldr (fun e n => max (commonLen k e.1) n) 0
  iterPrefix m k :=
    ((m.lookup k).map fun v => (k, v)).toList ++
      ((m.entries.map Prod.fst).filter fun k' => k.isPrefixOf k' && k' != k).filterMap fun k' =>
        (m.lookup k').map fun v => (k', v)

/-- A common prefix of some length. -/
theorem le_commonLen {n : Nat} : ∀ {k k' : List UInt8}, n ≤ k.length →
    (n ≤ commonLen k k' ↔ k.take n <+: k') := by
  induction n with
  | zero => simp
  | succ n ih =>
    intro k k' hn
    cases k with
    | nil => simp at hn
    | cons a k =>
      cases k' with
      | nil => simp [commonLen]
      | cons b k' =>
        unfold commonLen
        rw [List.take_succ_cons, List.cons_prefix_cons]
        by_cases hab : a = b
        · rw [if_pos hab, Nat.succ_le_succ_iff, ih (Nat.le_of_succ_le_succ hn)]
          simp [hab]
        · rw [if_neg hab]
          simp [hab]

/-- It is no longer than the key. -/
theorem commonLen_le (k k' : List UInt8) : commonLen k k' ≤ k.length := by
  induction k generalizing k' with
  | nil => simp [commonLen]
  | cons a k ih =>
    cases k' with
    | nil => simp [commonLen]
    | cons b k' =>
      unfold commonLen
      split
      · exact Nat.succ_le_succ (ih k')
      · exact Nat.zero_le _

/-- A key has an entry if it is in the list. -/
theorem isSome_lookup {m : EntryMap T} {k : List UInt8} :
    (m.lookup k).isSome ↔ ∃ e ∈ m.entries, e.1 = k := by
  unfold lookup
  induction m.entries with
  | nil => simp
  | cons e es ih =>
    rcases e with ⟨k', v⟩
    rw [List.lookup_cons]
    by_cases h : k = k'
    · simp [h]
    · rw [beq_false_of_ne h]
      simp [ih, Ne.symm h]

/-- The longest common prefix with any of the entries. -/
theorem le_foldr_commonLen {n : Nat} {k : List UInt8} {es : List (List UInt8 × T)} :
    n ≤ es.foldr (fun e n => max (commonLen k e.1) n) 0 ↔
      n = 0 ∨ ∃ e ∈ es, n ≤ commonLen k e.1 := by
  induction es with
  | nil => simp
  | cons e es ih =>
    have hmax : ∀ a b : Nat, n ≤ max a b ↔ n ≤ a ∨ n ≤ b := by
      intro a b
      omega
    rw [List.foldr_cons, hmax, ih, List.exists_mem_cons_iff]
    exact or_left_comm

instance : LawfulPatriciaMap EntryMap where
  get_new _ := rfl
  get_insert m k k' v := by
    change List.lookup k' ((k, v) :: m.entries) = _
    rw [List.lookup_cons]
    by_cases h : k' = k
    · simp [h]
    · rw [beq_false_of_ne h, if_neg h]
      rfl
  getLongestCommonPrefix_isSome m k := by
    change ((List.range (k.length + 1)).reverse.findSome? _).isSome ↔ _
    rw [List.isSome_findSome?, List.any_eq_true]
    constructor
    · rintro ⟨n, _, hn⟩
      rw [Option.isSome_map] at hn
      exact ⟨k.take n, List.take_prefix n k, hn⟩
    · rintro ⟨k', hk', hsome⟩
      refine ⟨k'.length, ?_, ?_⟩
      · rw [List.mem_reverse, List.mem_range]
        exact Nat.lt_succ_of_le hk'.length_le
      · rw [Option.isSome_map, ← List.prefix_iff_eq_take.mp hk']
        exact hsome
  le_longestCommonPrefixLen m k n hn := by
    refine le_foldr_commonLen.trans (or_congr Iff.rfl ?_)
    constructor
    · rintro ⟨e, he, hle⟩
      exact ⟨e.1, (le_commonLen hn).mp hle, isSome_lookup.mpr ⟨e, he, rfl⟩⟩
    · rintro ⟨k', hk', hsome⟩
      rcases isSome_lookup.mp hsome with ⟨e, he, rfl⟩
      exact ⟨e, he, (le_commonLen hn).mpr hk'⟩
  longestCommonPrefixLen_le m k := by
    rcases le_foldr_commonLen.mp (Nat.le_refl (m.entries.foldr
      (fun e n => max (commonLen k e.1) n) 0)) with hzero | ⟨e, _, hle⟩
    · exact Nat.le_trans (Nat.le_of_eq hzero) (Nat.zero_le _)
    · exact Nat.le_trans hle (commonLen_le k e.1)
  mem_iterPrefix m k k' v := by
    change (k', v) ∈ _ ++ _ ↔ k <+: k' ∧ m.lookup k' = some v
    have hsome : ∀ k'' : List UInt8, (k'', v) ∈ ((m.lookup k'').map fun v => (k'', v)).toList ↔
        m.lookup k'' = some v := by
      intro k''
      cases m.lookup k'' <;> simp [eq_comm]
    rw [List.mem_append, List.mem_filterMap]
    constructor
    -- the key itself comes first, then what extends it
    · rintro (hown | ⟨k'', hk'', hget⟩)
      · cases hlookup : m.lookup k with
        | none =>
          rw [hlookup] at hown
          simp at hown
        | some v' =>
          rw [hlookup] at hown
          simp only [Option.map_some, Option.toList_some, List.mem_singleton, Prod.mk.injEq] at hown
          rcases hown with ⟨rfl, rfl⟩
          exact ⟨List.prefix_refl _, hlookup⟩
      · rw [Option.map_eq_some_iff] at hget
        rcases hget with ⟨v', hlookup, heq⟩
        cases heq
        rw [List.mem_filter, Bool.and_eq_true, List.isPrefixOf_iff_prefix] at hk''
        exact ⟨hk''.2.1, hlookup⟩
    · rintro ⟨hle, hlookup⟩
      by_cases h : k' = k
      · subst h
        exact .inl ((hsome k').mpr hlookup)
      · refine .inr ⟨k', ?_, by rw [hlookup]; rfl⟩
        rcases isSome_lookup.mp (by rw [hlookup]; rfl : (m.lookup k').isSome) with ⟨e, he, rfl⟩
        rw [List.mem_filter, Bool.and_eq_true, List.isPrefixOf_iff_prefix]
        exact ⟨List.mem_map.mpr ⟨e, he, rfl⟩, hle, by simpa using h⟩
  head_iterPrefix m k v h := by
    change (((m.lookup k).map fun v => (k, v)).toList ++ _).head? = some (k, v)
    have hlookup : m.lookup k = some v := h
    rw [hlookup]
    rfl

end EntryMap

end Kanata
