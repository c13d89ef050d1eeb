import Kanata.Lib.BinarySearch
import Mathlib.Data.Finset.Dedup
import Mathlib.Data.List.AList
import Mathlib.Data.List.Lex

/-!
# Kanata.Parser.Subset — the map with subset queries

`parser/src/subset.rs`: a value is stored under a slice, in the list of every item of
the slice, and a query asks in the list of one of its items.

* `Holds`: what a map stores after some insertions, kept by each one (`Holds.insert`);
* `subset_map_is_exact`: the answers of a map to every query, in terms of the
  insertions it was made by.

The hash map is an association list with unique keys; nothing here depends on its
order.
-/

namespace Kanata

open BinarySearch

@[ext] structure SsmKeyValue (K V : Type) where
  key : List K
  value : V
deriving DecidableEq, Repr

inductive GetOrIsSubsetOfKnownKey (T : Type) where
  | hasValue (v : T)
  | isSubset
  | neither
deriving DecidableEq, Repr

inductive SsmKeyExistedBeforeInsert where
  | existed
  | notThere
deriving DecidableEq, Repr

structure SubsetMap (K V : Type) [DecidableEq K] where
  map : AList fun _ : K => List (SsmKeyValue K V)

namespace SubsetMap

variable {K V : Type} [LinearOrder K]

def ssmNew : SubsetMap K V := ⟨∅⟩

/-- The entries in the list of an item, none if there is no list. -/
def keyvals (m : SubsetMap K V) (k : K) : List (SsmKeyValue K V) := (m.map.lookup k).getD []

def searchKey (kvs : List (SsmKeyValue K V)) (key : List K) : Except Nat Nat :=
  searchBy (cmpKey SsmKeyValue.key key) kvs

/-- The body of the loop of an insertion, on the list of one item. -/
def place (kvs : List (SsmKeyValue K V)) (key : List K) (val : V) :
    List (SsmKeyValue K V) × SsmKeyExistedBeforeInsert :=
  match searchKey kvs key with
  | .ok pos => (kvs.set pos ⟨key, val⟩, .existed)
  | .error pos => (kvs.insertIdx pos ⟨key, val⟩, .notThere)

def insertItem (key : List K) (val : V)
    (st : SubsetMap K V × SsmKeyExistedBeforeInsert) (k : K) :
    SubsetMap K V × SsmKeyExistedBeforeInsert :=
  let placed := place (st.1.keyvals k) key val
  (⟨st.1.map.insert k placed.1⟩,
    match placed.2 with
    | .existed => .existed
    | .notThere => st.2)

def ssmInsertKsorted (m : SubsetMap K V) (key : List K) (val : V) :
    SubsetMap K V × SsmKeyExistedBeforeInsert :=
  key.foldl (insertItem key val) (m, .notThere)

def isEmpty (m : SubsetMap K V) : Bool := m.map.keys.isEmpty

def ssmGetOrIsSubsetKsorted (m : SubsetMap K V) (getKey : List K) :
    GetOrIsSubsetOfKnownKey V :=
  match getKey with
  | [] => if m.isEmpty then .neither else .isSubset
  | k :: _ =>
    match m.map.lookup k with
    | none => .neither
    | some kvs =>
      match searchKey kvs getKey with
      | .ok pos =>
        match kvs[pos]? with
        | some kv => .hasValue kv.value
        | none => .neither
      | .error _ =>
        if kvs.any fun kv => getKey.all fun kitem => kv.key.contains kitem then .isSubset
        else .neither

/-- The map after some insertions. -/
def insertAll (m : SubsetMap K V) (ins : List (List K × V)) : SubsetMap K V :=
  ins.foldl (fun m p => (m.ssmInsertKsorted p.1 p.2).1) m

/-- The value of the latest insertion under a key. -/
def latest (ins : List (List K × V)) (key : List K) : Option V :=
  (ins.reverse.find? fun p => p.1 = key).map Prod.snd

/-! ## Sorted keys -/

/-- A sorted key without duplicates stands for the set of its items. -/
theorem eq_of_toFinset_eq {key key' : List K} (h : key.Pairwise (· < ·))
    (h' : key'.Pairwise (· < ·)) (heq : key.toFinset = key'.toFinset) : key = key' := by
  refine List.Perm.eq_of_pairwise (fun a b _ _ hab hba => absurd (hab.trans hba) (lt_irrefl a))
    h h' ?_
  refine (List.perm_ext_iff_of_nodup (h.imp ne_of_lt) (h'.imp ne_of_lt)).mpr fun k => ?_
  rw [← List.mem_toFinset, heq, List.mem_toFinset]

theorem ssubset_iff {q key : List K} (hq : q.Pairwise (· < ·)) (hkey : key.Pairwise (· < ·)) :
    q.toFinset ⊂ key.toFinset ↔ (∀ k ∈ q, k ∈ key) ∧ q ≠ key := by
  rw [Finset.ssubset_iff_subset_ne]
  constructor
  · rintro ⟨hsub, hne⟩
    refine ⟨fun k hk => ?_, fun heq => hne (congrArg _ heq)⟩
    exact List.mem_toFinset.mp (hsub (List.mem_toFinset.mpr hk))
  · rintro ⟨hsub, hne⟩
    refine ⟨fun k hk => ?_, fun heq => hne (eq_of_toFinset_eq hq hkey heq)⟩
    exact List.mem_toFinset.mpr (hsub k (List.mem_toFinset.mp hk))

/-! ## The list of an item -/

/-- The entries of a list in the order of their keys, each key once. -/
def Sorted (kvs : List (SsmKeyValue K V)) : Prop := SortedBy SsmKeyValue.key kvs

section Entries

variable {kvs : List (SsmKeyValue K V)} {key : List K} {val : V}

/-- A key that is not found is in no entry. -/
theorem Sorted.ne_of_error (h : Sorted kvs) {pos : Nat} (hsearch : searchKey kvs key = .error pos)
    {kv : SsmKeyValue K V} (hkv : kv ∈ kvs) : kv.key ≠ key := by
  rcases h.search_error hsearch with ⟨pre, post, rfl, -, hpre, hpost⟩
  rcases List.mem_append.mp hkv with hmem | hmem
  · exact ne_of_lt (hpre kv hmem)
  · exact ne_of_gt (hpost kv hmem)

/-- What the body of the loop does to a sorted list: it stays sorted, and its entries
are the new one and those of other keys. -/
structure Placed (kvs kvs' : List (SsmKeyValue K V)) (key : List K) (val : V) : Prop where
  sorted : Sorted kvs'
  mem_iff : ∀ kv, kv ∈ kvs' ↔ kv = ⟨key, val⟩ ∨ kv ∈ kvs ∧ kv.key ≠ key

theorem Sorted.placed_new {pre post : List (SsmKeyValue K V)} (h : Sorted (pre ++ post))
    (hpre : ∀ kv ∈ pre, kv.key < key) (hpost : ∀ kv ∈ post, key < kv.key) :
    Placed (pre ++ post) (pre ++ ⟨key, val⟩ :: post) key val := by
  have happend := List.pairwise_append.mp h
  constructor
  · refine List.pairwise_append.mpr ⟨happend.1, ?_, fun a ha b hb => ?_⟩
    · exact List.pairwise_cons.mpr ⟨hpost, happend.2.1⟩
    · rcases List.mem_cons.mp hb with rfl | hb
      · exact hpre a ha
      · exact happend.2.2 a ha b hb
  · intro kv
    have hne : kv ∈ pre ++ post → kv.key ≠ key := by
      intro hkv
      rcases List.mem_append.mp hkv with hmem | hmem
      · exact ne_of_lt (hpre kv hmem)
      · exact ne_of_gt (hpost kv hmem)
    rw [and_iff_left_of_imp hne]
    simp only [List.mem_append, List.mem_cons]
    tauto

theorem Sorted.placed_again {pre post : List (SsmKeyValue K V)} {old : V}
    (h : Sorted (pre ++ ⟨key, old⟩ :: post)) :
    Placed (pre ++ ⟨key, old⟩ :: post) (pre ++ ⟨key, val⟩ :: post) key val := by
  have happend := List.pairwise_append.mp h
  have hpost := List.pairwise_cons.mp happend.2.1
  -- without the old entry the new one is a new one
  have hrest : Sorted (pre ++ post) := by
    refine List.pairwise_append.mpr ⟨happend.1, hpost.2, fun a ha b hb => ?_⟩
    exact happend.2.2 a ha b (List.mem_cons_of_mem _ hb)
  have hnew : Placed (pre ++ post) (pre ++ ⟨key, val⟩ :: post) key val :=
    hrest.placed_new (fun kv hkv => happend.2.2 kv hkv _ List.mem_cons_self) hpost.1
  refine ⟨hnew.sorted, fun kv => ?_⟩
  rw [hnew.mem_iff]
  simp only [List.mem_append, List.mem_cons]
  constructor
  · rintro (hkv | ⟨hkv | hkv, hne⟩)
    · exact .inl hkv
    · exact .inr ⟨.inl hkv, hne⟩
    · exact .inr ⟨.inr (.inr hkv), hne⟩
  · rintro (hkv | ⟨hkv | rfl | hkv, hne⟩)
    · exact .inl hkv
    · exact .inr ⟨.inl hkv, hne⟩
    · exact absurd rfl hne
    · exact .inr ⟨.inr hkv, hne⟩

theorem Sorted.place (h : Sorted kvs) :
    Placed kvs (SubsetMap.place kvs key val).1 key val ∧
      ((SubsetMap.place kvs key val).2 = .existed ↔ ∃ kv ∈ kvs, kv.key = key) := by
  unfold SubsetMap.place
  rcases hsearch : searchKey kvs key with pos | pos
  · have hne : ∀ kv ∈ kvs, kv.key ≠ key := fun kv hkv => h.ne_of_error hsearch hkv
    rcases h.search_error hsearch with ⟨pre, post, rfl, rfl, hpre, hpost⟩
    constructor
    · simpa only [insertIdx_length] using h.placed_new hpre hpost
    · simpa using hne
  · rcases search_ok hsearch with ⟨pre, old, post, rfl, rfl, rfl⟩
    constructor
    · simpa using h.placed_again
    · exact ⟨fun _ => ⟨old, by simp, rfl⟩, fun _ => rfl⟩

end Entries

/-! ## One insertion -/

section Insert

variable {m : SubsetMap K V} {key : List K} {val : V}

theorem keyvals_insertItem (st : SubsetMap K V × SsmKeyExistedBeforeInsert) (k k' : K) :
    (insertItem key val st k).1.keyvals k' =
      if k' = k then (place (st.1.keyvals k) key val).1 else st.1.keyvals k' := by
  unfold insertItem keyvals
  split
  · next h =>
    subst h
    rw [AList.lookup_insert]
    rfl
  · next h => rw [AList.lookup_insert_ne h]

theorem mem_map_insertItem (st : SubsetMap K V × SsmKeyExistedBeforeInsert) (k k' : K) :
    k' ∈ (insertItem key val st k).1.map ↔ k' = k ∨ k' ∈ st.1.map :=
  AList.mem_insert _

theorem existed_insertItem (st : SubsetMap K V × SsmKeyExistedBeforeInsert) (k : K) :
    (insertItem key val st k).2 = .existed ↔
      (place (st.1.keyvals k) key val).2 = .existed ∨ st.2 = .existed := by
  unfold insertItem
  dsimp only
  split
  · next h => simp [h]
  · next h => simp [h]

/-- The loop over different items puts the entry into the list of each one. -/
theorem insertItems : ∀ {ks : List K} {st : SubsetMap K V × SsmKeyExistedBeforeInsert}, ks.Nodup →
    (∀ k, (ks.foldl (insertItem key val) st).1.keyvals k =
      if k ∈ ks then (place (st.1.keyvals k) key val).1 else st.1.keyvals k) ∧
    (∀ k, k ∈ (ks.foldl (insertItem key val) st).1.map ↔ k ∈ ks ∨ k ∈ st.1.map) ∧
    ((ks.foldl (insertItem key val) st).2 = .existed ↔
      (∃ k ∈ ks, (place (st.1.keyvals k) key val).2 = .existed) ∨ st.2 = .existed)
  | [], st, _ => by simp
  | x :: ks, st, hnodup => by
    rw [List.nodup_cons] at hnodup
    rcases @insertItems ks (insertItem key val st x) hnodup.2 with ⟨hat, hmem, hexisted⟩
    simp only [List.foldl_cons]
    refine ⟨fun k => ?_, fun k => ?_, ?_⟩
    · rw [hat, keyvals_insertItem]
      by_cases hk : k = x
      · subst hk
        rw [if_neg hnodup.1, if_pos rfl, if_pos List.mem_cons_self]
      · rw [if_neg hk]
        simp only [List.mem_cons, hk, false_or]
    · rw [hmem, mem_map_insertItem, List.mem_cons, or_left_comm, or_assoc]
    · have hother : ∀ k ∈ ks, (insertItem key val st x).1.keyvals k = st.1.keyvals k := by
        intro k hk
        have hne : k ≠ x := fun h => hnodup.1 (h ▸ hk)
        rw [keyvals_insertItem, if_neg hne]
      rw [hexisted, existed_insertItem, List.exists_mem_cons_iff]
      constructor
      · rintro (⟨k, hk, hplace⟩ | hplace | hst)
        · exact .inl (.inr ⟨k, hk, hother k hk ▸ hplace⟩)
        · exact .inl (.inl hplace)
        · exact .inr hst
      · rintro ((hplace | ⟨k, hk, hplace⟩) | hst)
        · exact .inr (.inl hplace)
        · exact .inl ⟨k, hk, (hother k hk).symm ▸ hplace⟩
        · exact .inr (.inr hst)

end Insert

/-! ## All insertions -/

section Latest

variable {ins : List (List K × V)} {key : List K} {v : V}

theorem latest_append (p : List K × V) :
    latest (ins ++ [p]) key = if p.1 = key then some p.2 else latest ins key := by
  unfold latest
  rw [List.reverse_append, List.reverse_singleton, List.singleton_append, List.find?_cons]
  by_cases h : p.1 = key <;> simp [h]

theorem latest_eq_none_iff : latest ins key = none ↔ ∀ p ∈ ins, p.1 ≠ key := by
  simp [latest]

theorem mem_of_latest (h : latest ins key = some v) : ∃ p ∈ ins, p.1 = key := by
  by_contra hnot
  push Not at hnot
  rw [latest_eq_none_iff.mpr hnot] at h
  cases h

theorem exists_latest {p : List K × V} (h : p ∈ ins) : ∃ v, latest ins p.1 = some v := by
  rw [← Option.isSome_iff_exists, Option.isSome_iff_ne_none, ne_eq, latest_eq_none_iff]
  exact fun hnot => hnot p h rfl

end Latest

/-- What a key of an insertion is promised to be. -/
def IsKey (key : List K) : Prop := key ≠ [] ∧ key.Pairwise (· < ·)

/-- The map stores the latest value of each key in the list of each of its items. -/
structure Holds (m : SubsetMap K V) (ins : List (List K × V)) : Prop where
  sorted : ∀ k, Sorted (m.keyvals k)
  mem_iff : ∀ k kv, kv ∈ m.keyvals k ↔ k ∈ kv.key ∧ latest ins kv.key = some kv.value
  mem_map : ∀ k, k ∈ m.map ↔ ∃ p ∈ ins, k ∈ p.1

theorem Holds.new : Holds (ssmNew : SubsetMap K V) [] := by
  constructor
  · exact fun _ => List.Pairwise.nil
  · simp [keyvals, ssmNew, latest]
  · simp [ssmNew]

section Holds

variable {m : SubsetMap K V} {ins : List (List K × V)} {key : List K} {val : V}

/-- An entry of a key is in the list of any of its items or in none. -/
theorem Holds.exists_entry_iff (h : Holds m ins) {k : K} (hk : k ∈ key) :
    (∃ kv ∈ m.keyvals k, kv.key = key) ↔ ∃ p ∈ ins, p.1 = key := by
  constructor
  · rintro ⟨kv, hkv, rfl⟩
    exact mem_of_latest ((h.mem_iff k kv).mp hkv).2
  · rintro ⟨p, hp, rfl⟩
    rcases exists_latest hp with ⟨v, hv⟩
    exact ⟨⟨p.1, v⟩, (h.mem_iff k _).mpr ⟨hk, hv⟩, rfl⟩

theorem Holds.insert (h : Holds m ins) (hkey : IsKey key) :
    Holds (m.ssmInsertKsorted key val).1 (ins ++ [(key, val)]) ∧
      ((m.ssmInsertKsorted key val).2 = .existed ↔ ∃ p ∈ ins, p.1 = key) := by
  have hnodup : key.Nodup := hkey.2.imp ne_of_lt
  rcases @insertItems _ _ _ key val key (m, .notThere) hnodup with ⟨hat, hmem, hexisted⟩
  have hplace : ∀ k, Placed (m.keyvals k) (place (m.keyvals k) key val).1 key val ∧
      ((place (m.keyvals k) key val).2 = .existed ↔ ∃ kv ∈ m.keyvals k, kv.key = key) :=
    fun k => (h.sorted k).place
  constructor
  · constructor
    · intro k
      rw [ssmInsertKsorted, hat]
      split
      · exact (hplace k).1.sorted
      · exact h.sorted k
    · intro k kv
      rw [ssmInsertKsorted, hat, latest_append]
      split
      · next hk =>
        rw [(hplace k).1.mem_iff, h.mem_iff]
        by_cases heq : key = kv.key
        · -- the one entry of this key is the new one
          subst heq
          simp [SsmKeyValue.ext_iff, hk, eq_comm]
        · have hne : kv ≠ ⟨key, val⟩ := fun hkv => heq (congrArg SsmKeyValue.key hkv).symm
          simp [heq, hne, Ne.symm heq]
      · next hk =>
        rw [h.mem_iff]
        have hne : k ∈ kv.key → key ≠ kv.key := fun hmem heq => hk (heq ▸ hmem)
        exact and_congr_right fun hmem => by rw [if_neg (hne hmem)]
    · intro k
      rw [ssmInsertKsorted, hmem, h.mem_map]
      simp [or_comm]
  · rw [ssmInsertKsorted, hexisted]
    constructor
    · rintro (⟨k, hk, hfound⟩ | hno)
      · exact (h.exists_entry_iff hk).mp ((hplace k).2.mp hfound)
      · cases hno
    · intro hp
      rcases List.exists_mem_of_ne_nil key hkey.1 with ⟨k, hk⟩
      exact .inl ⟨k, hk, (hplace k).2.mpr ((h.exists_entry_iff hk).mpr hp)⟩

theorem Holds.insertAll : ∀ {ins' : List (List K × V)} {m : SubsetMap K V}
    {ins : List (List K × V)}, Holds m ins → (∀ p ∈ ins', IsKey p.1) →
    Holds (m.insertAll ins') (ins ++ ins')
  | [], m, ins, h, _ => by simpa [SubsetMap.insertAll] using h
  | p :: ins', m, ins, h, hkeys => by
    have hfirst := (@Holds.insert _ _ _ _ _ _ p.2 h (hkeys p List.mem_cons_self)).1
    have := hfirst.insertAll fun p' hp' => hkeys p' (List.mem_cons_of_mem _ hp')
    simpa [SubsetMap.insertAll] using this

end Holds

/-! ## Queries -/

section Queries

variable {m : SubsetMap K V} {ins : List (List K × V)}

theorem Holds.isEmpty_iff (h : Holds m ins) (hkeys : ∀ p ∈ ins, IsKey p.1) :
    m.isEmpty = true ↔ ins = [] := by
  rw [isEmpty, List.isEmpty_iff, List.eq_nil_iff_forall_not_mem, List.eq_nil_iff_forall_not_mem]
  constructor
  · intro hnone p hp
    rcases List.exists_mem_of_ne_nil p.1 (hkeys p hp).1 with ⟨k, hk⟩
    exact hnone k (AList.mem_keys.mp ((h.mem_map k).mpr ⟨p, hp, hk⟩))
  · intro hnone k hk
    rcases (h.mem_map k).mp (AList.mem_keys.mpr hk) with ⟨p, hp, _⟩
    exact hnone p hp

/-- What a query is to answer. -/
def Answers (ins : List (List K × V)) (q : List K) (r : GetOrIsSubsetOfKnownKey V) : Prop :=
  (∀ v, r = .hasValue v ↔ latest ins q = some v) ∧
    (r = .isSubset ↔ latest ins q = none ∧ ∃ p ∈ ins, q.toFinset ⊂ p.1.toFinset) ∧
    (r = .neither ↔ latest ins q = none ∧ ¬∃ p ∈ ins, q.toFinset ⊂ p.1.toFinset)

theorem answers_value {q : List K} {v : V} (h : latest ins q = some v) :
    Answers ins q (.hasValue v) := by
  simp [Answers, h]

theorem answers_isSubset {q : List K} (h : latest ins q = none)
    (hsub : ∃ p ∈ ins, q.toFinset ⊂ p.1.toFinset) : Answers ins q .isSubset := by
  refine ⟨by simp [h], ⟨fun _ => ⟨h, hsub⟩, fun _ => rfl⟩, ?_⟩
  simp [hsub]

theorem answers_neither {q : List K} (h : latest ins q = none)
    (hsub : ¬∃ p ∈ ins, q.toFinset ⊂ p.1.toFinset) : Answers ins q .neither := by
  refine ⟨by simp [h], ?_, ⟨fun _ => ⟨h, hsub⟩, fun _ => rfl⟩⟩
  simp [hsub]

/-- The list of one item of the query holds every key that the query is a subset of. -/
theorem Holds.any_superset_iff (h : Holds m ins) (hkeys : ∀ p ∈ ins, IsKey p.1) {k : K}
    {q : List K} (hq : (k :: q).Pairwise (· < ·)) (hnone : latest ins (k :: q) = none) :
    (((m.keyvals k).any fun kv => (k :: q).all fun kitem => kv.key.contains kitem) = true) ↔
      ∃ p ∈ ins, (k :: q).toFinset ⊂ p.1.toFinset := by
  simp only [List.any_eq_true, List.all_eq_true, List.contains_iff_mem]
  constructor
  · rintro ⟨kv, hkv, hsub⟩
    rcases mem_of_latest ((h.mem_iff k kv).mp hkv).2 with ⟨p, hp, hkey⟩
    refine ⟨p, hp, (ssubset_iff hq (hkeys p hp).2).mpr ⟨hkey ▸ hsub, fun heq => ?_⟩⟩
    exact latest_eq_none_iff.mp hnone p hp heq.symm
  · rintro ⟨p, hp, hsub⟩
    have hsub := ((ssubset_iff hq (hkeys p hp).2).mp hsub).1
    rcases exists_latest hp with ⟨v, hv⟩
    exact ⟨⟨p.1, v⟩, (h.mem_iff k _).mpr ⟨hsub k List.mem_cons_self, hv⟩, hsub⟩

theorem Holds.answers_nil (h : Holds m ins) (hkeys : ∀ p ∈ ins, IsKey p.1) :
    Answers ins [] (m.ssmGetOrIsSubsetKsorted []) := by
  have hnone : latest ins [] = none := latest_eq_none_iff.mpr fun p hp => (hkeys p hp).1
  unfold ssmGetOrIsSubsetKsorted
  dsimp only
  split
  · next hempty =>
    have hins : ins = [] := (h.isEmpty_iff hkeys).mp hempty
    exact answers_neither hnone (by simp [hins])
  · next hempty =>
    have hins : ins ≠ [] := fun hins => hempty ((h.isEmpty_iff hkeys).mpr hins)
    rcases List.exists_mem_of_ne_nil ins hins with ⟨p, hp⟩
    refine answers_isSubset hnone ⟨p, hp, ?_⟩
    exact (ssubset_iff .nil (hkeys p hp).2).mpr ⟨by simp, (hkeys p hp).1.symm⟩

theorem Holds.answers_cons (h : Holds m ins) (hkeys : ∀ p ∈ ins, IsKey p.1) {k : K} {q : List K}
    (hq : (k :: q).Pairwise (· < ·)) :
    Answers ins (k :: q) (m.ssmGetOrIsSubsetKsorted (k :: q)) := by
  have hk : k ∈ k :: q := List.mem_cons_self
  unfold ssmGetOrIsSubsetKsorted
  dsimp only
  rcases hlookup : m.map.lookup k with _ | kvs
  · -- no key has this item
    have hnot : ∀ p ∈ ins, k ∉ p.1 := fun p hp hmem =>
      AList.lookup_eq_none.mp hlookup ((h.mem_map k).mpr ⟨p, hp, hmem⟩)
    refine answers_neither (latest_eq_none_iff.mpr fun p hp heq => hnot p hp (heq ▸ hk)) ?_
    rintro ⟨p, hp, hsub⟩
    exact hnot p hp (((ssubset_iff hq (hkeys p hp).2).mp hsub).1 k hk)
  · have hkvs : m.keyvals k = kvs := by rw [keyvals, hlookup, Option.getD_some]
    have hsorted : Sorted kvs := hkvs ▸ h.sorted k
    rcases hsearch : searchKey kvs (k :: q) with pos | pos
    · have hnone : latest ins (k :: q) = none := by
        refine latest_eq_none_iff.mpr fun p hp heq => ?_
        rcases (h.exists_entry_iff hk).mpr ⟨p, hp, heq⟩ with ⟨kv, hkv, hkey⟩
        exact hsorted.ne_of_error hsearch (hkvs ▸ hkv) hkey
      have hany := h.any_superset_iff hkeys hq hnone
      rw [hkvs] at hany
      simp only [hsearch]
      split
      · next hsub => exact answers_isSubset hnone (hany.mp hsub)
      · next hsub => exact answers_neither hnone fun hex => hsub (hany.mpr hex)
    · rcases search_ok hsearch with ⟨pre, kv, post, heq, rfl, hkey⟩
      have hkv : kv ∈ m.keyvals k := by
        rw [hkvs, heq]
        exact List.mem_append_right _ List.mem_cons_self
      have hlatest := ((h.mem_iff k kv).mp hkv).2
      rw [hkey] at hlatest
      have hget : kvs[pre.length]? = some kv := by simp [heq]
      simp only [hsearch, hget]
      exact answers_value hlatest

end Queries

/-- After any insertions the map answers every query exactly, and the next insertion
reports whether its key was there. -/
theorem subset_map_is_exact (ins : List (List K × V)) (hkeys : ∀ p ∈ ins, IsKey p.1) :
    (∀ q : List K, q.Pairwise (· < ·) →
      Answers ins q ((ssmNew.insertAll ins).ssmGetOrIsSubsetKsorted q)) ∧
    ∀ key : List K, IsKey key → ∀ val : V,
      (((ssmNew.insertAll ins).ssmInsertKsorted key val).2 = .existed ↔ ∃ p ∈ ins, p.1 = key) := by
  have h : Holds (ssmNew.insertAll ins : SubsetMap K V) ins := Holds.new.insertAll hkeys
  constructor
  · intro q hq
    rcases q with _ | ⟨k, q⟩
    · exact h.answers_nil hkeys
    · exact h.answers_cons hkeys hq
  · exact fun key hkey val => (h.insert hkey).2

theorem subset_map_is_exact_overlapping :
    Answers [([1, 2], 10), ([2], 11), ([1, 2], 12)] [1, 2]
        ((ssmNew.insertAll [([1, 2], 10), ([2], 11), ([1, 2], 12)]).ssmGetOrIsSubsetKsorted
          [1, 2]) ∧
      (((ssmNew.insertAll [([1, 2], 10), ([2], 11), ([1, 2], 12)]).ssmInsertKsorted [1] 13).2 =
          .existed ↔
        ∃ p ∈ [([1, 2], 10), ([2], 11), ([1, 2], 12)], p.1 = [1]) := by
  have hkeys : ∀ p ∈ [([1, 2], 10), ([2], 11), ([1, 2], 12)], IsKey p.1 := by simp [IsKey]
  have h := subset_map_is_exact [([1, 2], 10), ([2], 11), ([1, 2], 12)] hkeys
  exact ⟨h.1 [1, 2] (by simp), h.2 [1] (by simp [IsKey]) 13⟩

/-! ## Maps of sorted keys -/

/-- The value of a key, if it has one. -/
def find? (m : SubsetMap K V) (key : List K) : Option V :=
  match m.ssmGetOrIsSubsetKsorted key with
  | .hasValue v => some v
  | _ => none

/-- The map was made by insertions of keys as they are promised to be. -/
def Made (m : SubsetMap K V) : Prop := ∃ ins, (∀ p ∈ ins, IsKey p.1) ∧ Holds m ins

theorem find?_eq_some_iff {m : SubsetMap K V} {key : List K} {v : V} :
    m.find? key = some v ↔ m.ssmGetOrIsSubsetKsorted key = .hasValue v := by
  unfold find?
  split
  · next v' h => simp [h]
  · next h =>
    constructor
    · rintro ⟨⟩
    · exact fun hv => absurd hv (h v)

theorem Holds.find?_eq {m : SubsetMap K V} {ins : List (List K × V)} (h : Holds m ins)
    (hkeys : ∀ p ∈ ins, IsKey p.1) {q : List K} (hq : q.Pairwise (· < ·)) :
    m.find? q = latest ins q := by
  have hanswers : Answers ins q (m.ssmGetOrIsSubsetKsorted q) := by
    cases q with
    | nil => exact h.answers_nil hkeys
    | cons k q => exact h.answers_cons hkeys hq
  refine Option.ext fun v => ?_
  rw [find?_eq_some_iff, hanswers.1 v]

theorem made_new : Made (ssmNew : SubsetMap K V) := ⟨[], by simp, .new⟩

theorem find?_new (q : List K) : (ssmNew : SubsetMap K V).find? q = none := by
  cases q <;> rfl

section Made

variable {m : SubsetMap K V} {key : List K} {val : V}

theorem Made.insert (h : Made m) (hkey : IsKey key) : Made (m.ssmInsertKsorted key val).1 := by
  rcases h with ⟨ins, hkeys, h⟩
  refine ⟨ins ++ [(key, val)], ?_, (h.insert hkey).1⟩
  intro p hp
  rcases List.mem_append.mp hp with hp | hp
  · exact hkeys p hp
  · rw [List.mem_singleton.mp hp]
    exact hkey

theorem Made.find?_insert (h : Made m) (hkey : IsKey key) {q : List K} (hq : q.Pairwise (· < ·)) :
    (m.ssmInsertKsorted key val).1.find? q = if q = key then some val else m.find? q := by
  rcases h with ⟨ins, hkeys, h⟩
  have hkeys' : ∀ p ∈ ins ++ [(key, val)], IsKey p.1 := by
    intro p hp
    rcases List.mem_append.mp hp with hp | hp
    · exact hkeys p hp
    · rw [List.mem_singleton.mp hp]
      exact hkey
  rw [(h.insert hkey).1.find?_eq hkeys' hq, h.find?_eq hkeys hq, latest_append]
  exact ite_congr (propext eq_comm) (fun _ => rfl) fun _ => rfl

end Made

end SubsetMap

end Kanata
