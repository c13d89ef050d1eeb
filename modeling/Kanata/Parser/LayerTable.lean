import Kanata.Lib.Assoc
import Kanata.Parser.Layers

/-!
# Kanata.Parser.LayerTable — what the table of the layers says

The pairs of `deflayermap` are a finite map from inputs to actions (`Reads`, `Fits`), and so
are the actions of `deflayer`. A cell has the action of its key; without one, that of `_` or
`__`, whichever is for the key; without one, that of `___` (`target`).

`parseEach_iff`: which layers are accepted, and every cell of the table.
-/

namespace Kanata.Layers

open Fallible Assoc

variable {T : Type} {s : ParserState T} {defcfg : CfgOptions}

/-! ## Inputs -/

/-- What a pair of `deflayermap` is for: the other keys of `defsrc`, the keys that are not in
`defsrc`, all other keys, or one key. -/
inductive Input where
  | mapped
  | unmapped
  | any
  | key (code : Nat)
deriving DecidableEq

/-- The two may be inputs of one layer. -/
def Input.apart : Input → Input → Bool
  | .any, .mapped | .any, .unmapped | .mapped, .any | .unmapped, .any => false
  | i, j => i != j

/-- The order of two inputs does not matter. -/
theorem Input.apart_comm (i j : Input) : i.apart j = j.apart i := by
  cases i <;> cases j <;> simp [Input.apart, bne, eq_comm, Bool.beq_eq_decide_eq]

/-- In particular they are different. -/
theorem Input.ne_of_apart {i j : Input} (h : i.apart j = true) : i ≠ j := by
  rintro rfl
  cases i <;> simp [Input.apart] at h

/-- The input that an expression names. -/
def readInput (s : ParserState T) (input : SExpr) : Parse Input := do
  let name ← input.atom (some s.vars)
  if name = some "_" then pure .mapped
  else if name = some "__" then pure .unmapped
  else if name = some "___" then pure .any
  else do
    let osc ← okOrExpr input "input must be a key name" (name.bind s.strToOscode)
    pure (.key osc.code)

/-- What the pairs of a layer say. -/
abbrev Entries (T : Type) := List (Input × Action T)

/-- The inputs alone. -/
def Entries.inputs (entries : Entries T) : List Input := entries.map Prod.fst

/-- The pairs are read as the entries. -/
inductive ReadsPairs (s : ParserState T) : List SExpr → Entries T → Prop where
  | nil : ReadsPairs s [] []
  | cons {input action : SExpr} {pairs : List SExpr} {i : Input} {a : Action T}
      {entries : Entries T} (hinput : readInput s input = .ok i)
      (haction : s.action action = .ok a) (hrest : ReadsPairs s pairs entries) :
      ReadsPairs s (input :: action :: pairs) ((i, a) :: entries)

/-- The input can be used. -/
def Allows (s : ParserState T) (defcfg : CfgOptions) : Input → Prop
  | .mapped => ∀ col ∈ s.mappingOrder, col < keysInRow
  | .unmapped | .any => defcfg.processUnmappedKeys = true
  | .key code => code < keysInRow

instance Allows.decidable (s : ParserState T) (defcfg : CfgOptions) (i : Input) :
    Decidable (Allows s defcfg i) :=
  match i with
  | .mapped => inferInstanceAs (Decidable (∀ col ∈ s.mappingOrder, col < keysInRow))
  | .unmapped => inferInstanceAs (Decidable (defcfg.processUnmappedKeys = true))
  | .any => inferInstanceAs (Decidable (defcfg.processUnmappedKeys = true))
  | .key code => inferInstanceAs (Decidable (code < keysInRow))

/-- The inputs go together in one layer. -/
structure Fits (s : ParserState T) (defcfg : CfgOptions) (inputs : List Input) : Prop where
  apart : inputs.Pairwise fun i j => i.apart j = true
  allows : ∀ i ∈ inputs, Allows s defcfg i

/-- What the entries say about a key. -/
def target (s : ParserState T) (entries : Entries T) (i : Nat) : Option (Action T) :=
  (entries.lookup (.key i)).or
    ((entries.lookup (if s.mappingOrder.contains i then .mapped else .unmapped)).or
      (entries.lookup .any))

/-- One more input at the end. -/
theorem fits_concat {inputs : List Input} {i : Input} :
    Fits s defcfg (inputs ++ [i]) ↔
      Fits s defcfg inputs ∧ (∀ j ∈ inputs, j.apart i = true) ∧ Allows s defcfg i := by
  constructor
  · rintro ⟨hapart, hallows⟩
    rw [List.pairwise_append] at hapart
    refine ⟨⟨hapart.1, fun j hj => hallows j (List.mem_append_left _ hj)⟩, ?_, ?_⟩
    · exact fun j hj => hapart.2.2 j hj i List.mem_cons_self
    · exact hallows i (by simp)
  · rintro ⟨hfits, hapart, hallows⟩
    refine ⟨List.pairwise_append.mpr ⟨hfits.apart, List.pairwise_singleton _ _, ?_⟩, ?_⟩
    · intro j hj i' hi'
      rw [List.mem_singleton.mp hi']
      exact hapart j hj
    · intro j hj
      rcases List.mem_append.mp hj with hj | hj
      · exact hfits.allows j hj
      · rw [List.mem_singleton.mp hj]
        exact hallows

/-- No input is there twice. -/
theorem Fits.nodup {inputs : List Input} (h : Fits s defcfg inputs) : inputs.Nodup :=
  h.apart.imp Input.ne_of_apart

/-- The order of the pairs does not matter. -/
theorem Fits.perm {inputs inputs' : List Input} (hperm : inputs.Perm inputs')
    (h : Fits s defcfg inputs) : Fits s defcfg inputs' := by
  refine ⟨(hperm.pairwise_iff ?_).mp h.apart, fun i hi => h.allows i (hperm.mem_iff.mpr hi)⟩
  intro i j hij
  rw [Input.apart_comm]
  exact hij

/-- The first of them go together, too. -/
theorem Fits.take {inputs more : List Input} (h : Fits s defcfg (inputs ++ more)) :
    Fits s defcfg inputs :=
  ⟨(List.pairwise_append.mp h.apart).1, fun i hi => h.allows i (List.mem_append_left _ hi)⟩

/-! ## Cells -/

/-- `DEFAULT_ACTION` is the only action that counts as an empty cell. -/
theorem isDefault_iff {action : Action T} : isDefault action = true ↔ action = defaultAction := by
  unfold isDefault defaultAction
  split
  · simp
  · rename_i hne
    simp only [Bool.false_eq_true, false_iff]
    exact fun h => hne _ h

/-- Writing a cell, with the check of the index. -/
theorem setCell_eq_ok {row row' : Row T} {col : Nat} {action : Action T} :
    setCell row col action = .ok row' ↔
      col < keysInRow ∧ ∀ i, row' i = if i.val = col then action else row i := by
  unfold setCell
  by_cases h : col < keysInRow
  · rw [dif_pos h, pure_eq_ok]
    constructor
    · rintro rfl
      refine ⟨h, fun i => ?_⟩
      rw [Function.update_apply]
      simp only [Fin.ext_iff]
    · rintro ⟨-, hrow⟩
      funext i
      rw [hrow, Function.update_apply]
      simp only [Fin.ext_iff]
  · rw [dif_neg h]
    exact ⟨nofun, fun hrow => absurd hrow.1 h⟩

/-- Reading a cell, with the check of the index. -/
theorem getCell_eq_ok {row : Row T} {col : Nat} {action : Action T} :
    getCell row col = .ok action ↔ ∃ h : col < keysInRow, row ⟨col, h⟩ = action := by
  unfold getCell
  by_cases h : col < keysInRow
  · rw [dif_pos h, pure_eq_ok]
    exact ⟨fun hrow => ⟨h, hrow⟩, fun hrow => hrow.2⟩
  · rw [dif_neg h]
    exact ⟨nofun, fun hrow => absurd hrow.1 h⟩

/-- A step of the loop for `_`. -/
theorem fillMapped_cons {action : Action T} {col : Nat} {cols : List Nat} {row : Row T}
    (hcol : col < keysInRow) :
    fillMapped action (col :: cols) row = fillMapped action cols
      fun i => if isDefault (row i) ∧ i.val = col then action else row i := by
  have hold : getCell row col = .ok (row ⟨col, hcol⟩) := getCell_eq_ok.mpr ⟨hcol, rfl⟩
  have hcell : ∀ i : Fin keysInRow, i.val = col → row i = row ⟨col, hcol⟩ :=
    fun i hi => congrArg row (Fin.ext hi)
  rw [fillMapped, hold, ok_bind]
  split
  -- the cell of the key is empty
  · rename_i hempty
    have hset : setCell row col action =
        .ok fun i => if isDefault (row i) ∧ i.val = col then action else row i := by
      refine setCell_eq_ok.mpr ⟨hcol, fun i => ?_⟩
      by_cases hi : i.val = col
      · simp [hi, hcell i hi, hempty]
      · simp [hi]
    rw [hset, ok_bind]
  -- the cell is full, and its index is only `col` for one `i`
  · rename_i hfull
    congr 1
    funext i
    by_cases hi : i.val = col
    · simp [hcell i hi, hfull]
    · simp [hi]

/-- A key beyond the row panics. -/
theorem fillMapped_out {action : Action T} {col : Nat} {cols : List Nat} {row : Row T}
    (hcol : ¬col < keysInRow) :
    fillMapped action (col :: cols) row = panicWith "index out of bounds" := by
  rw [fillMapped, getCell, dif_neg hcol]
  rfl

/-- The loop for `_` puts the action in every empty cell of the keys. -/
theorem fillMapped_eq_ok {action : Action T} (hsolid : isDefault action = false)
    {cols : List Nat} {row row' : Row T} : fillMapped action cols row = .ok row' ↔
      (∀ col ∈ cols, col < keysInRow) ∧
        row' = fillWhere (fun i => cols.contains i) (fun _ => action) row := by
  induction cols generalizing row with
  | nil =>
    have hrow : fillWhere (fun i => ([] : List Nat).contains i) (fun _ => action) row = row := by
      funext i
      simp [fillWhere]
    rw [fillMapped, pure_eq_ok, hrow]
    simp [eq_comm]
  | cons col cols ih =>
    rw [List.forall_mem_cons]
    by_cases hcol : col < keysInRow
    swap
    · rw [fillMapped_out hcol]
      constructor
      · intro h
        cases h
      · exact fun h => absurd h.1.1 hcol
    rw [fillMapped_cons hcol, ih]
    -- a cell that the step has filled is not filled again
    have hrows : fillWhere (fun i => cols.contains i) (fun _ => action)
        (fun i => if isDefault (row i) ∧ i.val = col then action else row i) =
        fillWhere (fun i => (col :: cols).contains i) (fun _ => action) row := by
      funext i
      unfold fillWhere
      by_cases hempty : isDefault (row i) = true
      · by_cases hi : i.val = col
        · simp [hempty, hi, hsolid]
        · simp [hempty, hi]
      · simp [hempty]
    rw [hrows]
    simp [hcol]

/-! ## A pair -/

/-- A pair for the input takes the loop from one state to the next. -/
inductive Adds (s : ParserState T) (defcfg : CfgOptions) (a : Action T) (st : PairState T) :
    Input → PairState T → Prop where
  | mapped {row : Row T} (hfirst : st.defsrcAnykeyUsed = false)
      (hboth : st.bothAnykeyUsed = false) (hrow : fillMapped a s.mappingOrder st.row = .ok row) :
      Adds s defcfg a st .mapped { st with row, defsrcAnykeyUsed := true }
  | unmapped (hfirst : st.unmappedAnykeyUsed = false) (hboth : st.bothAnykeyUsed = false)
      (hallowed : defcfg.processUnmappedKeys = true) :
      Adds s defcfg a st .unmapped { st with
        row := fillWhere (fun i => !s.mappingOrder.contains i) (fun _ => a) st.row
        unmappedAnykeyUsed := true }
  | any (hfirst : st.bothAnykeyUsed = false) (hdefsrc : st.defsrcAnykeyUsed = false)
      (hunmapped : st.unmappedAnykeyUsed = false)
      (hallowed : defcfg.processUnmappedKeys = true) :
      Adds s defcfg a st .any { st with
        row := fillWhere (fun _ => true) (fun _ => a) st.row
        bothAnykeyUsed := true }
  | key {row : Row T} (osc : OsCode) (hfirst : osc ∉ st.layerMappedKeys)
      (hrow : setCell st.row osc.code a = .ok row) :
      Adds s defcfg a st (.key osc.code) { st with
        row
        mappedKeys := st.mappedKeys.insert osc
        layerMappedKeys := st.layerMappedKeys ++ [osc] }

/-- What a step of the loop over the pairs does. -/
theorem mapPair_eq_ok {input action : SExpr} {st st' : PairState T} :
    mapPair s defcfg input action st = .ok st' ↔ ∃ a i, s.action action = .ok a ∧
      readInput s input = .ok i ∧ Adds s defcfg a st i st' := by
  unfold mapPair readInput
  rcases haction : s.action action with e | a
  · exact ⟨nofun, fun h => by rcases h with ⟨_, _, h, -⟩; cases h⟩
  rcases hname : input.atom (some s.vars) with e | name
  · exact ⟨nofun, fun h => by rcases h with ⟨_, _, -, h, -⟩; cases h⟩
  simp only [ok_bind, liftM_ok, Except.ok.injEq, exists_and_left, exists_eq_left']
  -- the branches are those of the source, in its order
  by_cases h₁ : name = some "_"
  · simp only [if_pos h₁, pure_eq_ok, exists_eq_left']
    constructor
    · intro h
      split at h
      · cases h
      rename_i hfirst
      split at h
      · cases h
      rename_i hboth
      rcases bind_eq_ok.mp h with ⟨row, hrow, h⟩
      cases h
      exact .mapped (Bool.eq_false_of_not_eq_true hfirst) (Bool.eq_false_of_not_eq_true hboth)
        (liftRust_eq_ok.mp hrow)
    · intro h
      cases h with
      | mapped hfirst hboth hrow =>
        rw [hfirst, hboth, hrow]
        rfl
  rw [if_neg h₁, if_neg h₁]
  by_cases h₂ : name = some "__"
  · simp only [if_pos h₂, pure_eq_ok, exists_eq_left']
    constructor
    · intro h
      split at h
      · cases h
      rename_i hfirst
      split at h
      · cases h
      rename_i hallowed
      split at h
      · cases h
      rename_i hboth
      cases h
      exact .unmapped (Bool.eq_false_of_not_eq_true hfirst) (Bool.eq_false_of_not_eq_true hboth)
        (by simpa using hallowed)
    · intro h
      cases h with
      | unmapped hfirst hboth hallowed =>
        rw [hfirst, hboth, hallowed]
        rfl
  rw [if_neg h₂, if_neg h₂]
  by_cases h₃ : name = some "___"
  · simp only [if_pos h₃, pure_eq_ok, exists_eq_left']
    constructor
    · intro h
      split at h
      · cases h
      rename_i hfirst
      split at h
      · cases h
      rename_i hdefsrc
      split at h
      · cases h
      rename_i hunmapped
      split at h
      · cases h
      rename_i hallowed
      cases h
      exact .any (Bool.eq_false_of_not_eq_true hfirst) (Bool.eq_false_of_not_eq_true hdefsrc)
        (Bool.eq_false_of_not_eq_true hunmapped) (by simpa using hallowed)
    · intro h
      cases h with
      | any hfirst hdefsrc hunmapped hallowed =>
        rw [hfirst, hdefsrc, hunmapped, hallowed]
        rfl
  rw [if_neg h₃, if_neg h₃]
  rcases hkey : name.bind s.strToOscode with _ | osc
  · exact ⟨nofun, fun h => by rcases h with ⟨_, h, -⟩; cases h⟩
  simp only [okOrExpr, ok_bind, pure_eq_ok, exists_eq_left']
  constructor
  · intro h
    split at h
    · cases h
    rename_i hfirst
    rcases bind_eq_ok.mp h with ⟨row, hrow, h⟩
    cases h
    exact .key osc (fun hmem => hfirst (List.contains_iff_mem.mpr hmem)) (liftRust_eq_ok.mp hrow)
  · intro h
    -- the input is a key, so only the last constructor is left
    generalize hi : Input.key osc.code = i at h
    cases h with
    | mapped => cases hi
    | unmapped => cases hi
    | any => cases hi
    | key osc' hfirst hrow =>
      obtain rfl : osc = osc' := KeyCode.ext_code (Input.key.inj hi)
      rw [if_neg fun h => hfirst (List.contains_iff_mem.mp h), hrow]
      rfl

/-! ## The loop over the pairs -/

/-- No action of the configuration is `DEFAULT_ACTION`. -/
def ParserState.Solid (s : ParserState T) : Prop :=
  ∀ expr a, s.action expr = .ok a → isDefault a = false

/-- The state of the loop after the entries. -/
structure Holds (s : ParserState T) (done : Entries T) (st : PairState T) : Prop where
  row : ∀ i, st.row i = (target s done i).getD defaultAction
  empty : ∀ i, isDefault (st.row i) = (target s done i).isNone
  keys : ∀ osc : OsCode, osc ∈ st.layerMappedKeys ↔ .key osc.code ∈ done.inputs
  mapped : st.defsrcAnykeyUsed = true ↔ .mapped ∈ done.inputs
  unmapped : st.unmappedAnykeyUsed = true ↔ .unmapped ∈ done.inputs
  any : st.bothAnykeyUsed = true ↔ .any ∈ done.inputs

/-- Before the first pair every cell is empty. -/
theorem Holds.init (mappedKeys : List OsCode) :
    Holds s [] ⟨newLayer.keys, mappedKeys, [], false, false, false⟩ where
  row _ := rfl
  empty _ := rfl
  keys _ := by simp [Entries.inputs]
  mapped := by simp [Entries.inputs]
  unmapped := by simp [Entries.inputs]
  any := by simp [Entries.inputs]

/-- The inputs after one more entry. -/
@[simp] theorem inputs_concat (done : Entries T) (i : Input) (a : Action T) :
    Entries.inputs (done ++ [(i, a)]) = done.inputs ++ [i] := by
  simp [Entries.inputs]

section Target

variable {done : Entries T}

/-- An entry for a key says something about that key. -/
theorem target_key {code : Nat} (hfresh : .key code ∉ done.inputs) (a : Action T) (i : Nat) :
    target s (done ++ [(.key code, a)]) i = if i = code then some a else target s done i := by
  unfold target
  by_cases hi : i = code
  · rw [if_pos hi, hi, lookup_concat_self hfresh]
    rfl
  · have hwild : (if s.mappingOrder.contains i then Input.mapped else .unmapped) ≠ .key code := by
      split <;> nofun
    rw [if_neg hi, lookup_concat_of_ne fun h => hi (Input.key.inj h), lookup_concat_of_ne hwild,
      lookup_concat_of_ne (nofun : Input.any ≠ .key code)]

/-- An entry for `_` is a fallback for the keys of `defsrc`. -/
theorem target_mapped (hfresh : .mapped ∉ done.inputs) (hany : .any ∉ done.inputs)
    (a : Action T) (i : Nat) : target s (done ++ [(.mapped, a)]) i =
      (target s done i).or (if s.mappingOrder.contains i then some a else none) := by
  unfold target
  rw [lookup_concat_of_ne (nofun : Input.key i ≠ .mapped),
    lookup_concat_of_ne (nofun : Input.any ≠ .mapped), lookup_eq_none.mpr hany]
  cases hi : s.mappingOrder.contains i with
  | true =>
    rw [if_pos rfl, if_pos rfl, lookup_concat_self hfresh, lookup_eq_none.mpr hfresh]
    simp
  | false =>
    rw [if_neg (by decide), if_neg (by decide),
      lookup_concat_of_ne (nofun : Input.unmapped ≠ .mapped)]
    simp

/-- An entry for `__` is a fallback for the other keys. -/
theorem target_unmapped (hfresh : .unmapped ∉ done.inputs) (hany : .any ∉ done.inputs)
    (a : Action T) (i : Nat) : target s (done ++ [(.unmapped, a)]) i =
      (target s done i).or (if !s.mappingOrder.contains i then some a else none) := by
  unfold target
  rw [lookup_concat_of_ne (nofun : Input.key i ≠ .unmapped),
    lookup_concat_of_ne (nofun : Input.any ≠ .unmapped), lookup_eq_none.mpr hany]
  cases hi : s.mappingOrder.contains i with
  | true =>
    rw [if_pos rfl, if_neg (by decide), lookup_concat_of_ne (nofun : Input.mapped ≠ .unmapped)]
    simp
  | false =>
    rw [if_neg (by decide), if_pos (by decide), lookup_concat_self hfresh,
      lookup_eq_none.mpr hfresh]
    simp

/-- An entry for `___` is a fallback for all keys. -/
theorem target_any (hfresh : .any ∉ done.inputs) (hmapped : .mapped ∉ done.inputs)
    (hunmapped : .unmapped ∉ done.inputs) (a : Action T) (i : Nat) :
    target s (done ++ [(.any, a)]) i = (target s done i).or (some a) := by
  have hwild : done.lookup (if s.mappingOrder.contains i then Input.mapped else .unmapped) =
      none := by
    split
    · exact lookup_eq_none.mpr hmapped
    · exact lookup_eq_none.mpr hunmapped
  have hne : (if s.mappingOrder.contains i then Input.mapped else .unmapped) ≠ .any := by
    split <;> nofun
  unfold target
  rw [lookup_concat_of_ne (nofun : Input.key i ≠ .any), lookup_concat_of_ne hne,
    lookup_concat_self hfresh, hwild, lookup_eq_none.mpr hfresh]
  simp

end Target

/-- Filling the empty cells of a row is to have the action as a fallback. -/
theorem fillWhere_or {p : Nat → Bool} {f : Nat → Action T} {row : Row T} {i : Fin keysInRow}
    {t : Option (Action T)} (hrow : row i = t.getD defaultAction)
    (hempty : isDefault (row i) = t.isNone) :
    fillWhere p f row i = (t.or (if p i then some (f i) else none)).getD defaultAction := by
  unfold fillWhere
  rw [hempty, hrow]
  cases t <;> cases p i <;> rfl

/-- A wildcard is put in the empty cells of its keys. -/
theorem Holds.fill {done done' : Entries T} {st : PairState T} {a : Action T} {p : Nat → Bool}
    (h : Holds s done st) (ha : isDefault a = false) (htarget : ∀ i, target s done' i =
      (target s done i).or (if p i then some a else none)) (i : Fin keysInRow) :
    fillWhere p (fun _ => a) st.row i = (target s done' i).getD defaultAction ∧
      isDefault (fillWhere p (fun _ => a) st.row i) = (target s done' i).isNone := by
  have hrow := fillWhere_or (p := p) (f := fun _ => a) (h.row i) (h.empty i)
  have hempty := h.empty i
  rw [h.row] at hempty
  rw [htarget, hrow]
  refine ⟨rfl, ?_⟩
  -- an action that was there stays
  cases ht : target s done i with
  | none =>
    rw [ht] at hempty
    cases hp : p i with
    | true => exact ha
    | false => exact hempty
  | some _ =>
    rw [ht] at hempty
    exact hempty

/-- A flag that is not set: the input was not seen. -/
theorem not_mem_of_unused {done : Entries T} {b : Bool} {j : Input} (hb : b = false)
    (h : b = true ↔ j ∈ done.inputs) : j ∉ done.inputs := by
  intro hj
  rw [h.mpr hj] at hb
  cases hb

/-- A pair that is added after others fits them, and the row has its action. -/
theorem Holds.adds {done : Entries T} {st st' : PairState T} {i : Input} {a : Action T}
    (h : Holds s done st) (ha : isDefault a = false) (hadds : Adds s defcfg a st i st') :
    ((∀ j ∈ done.inputs, j.apart i = true) ∧ Allows s defcfg i) ∧
      Holds s (done ++ [(i, a)]) st' := by
  cases hadds with
  | @mapped row hfirst hboth hrow =>
    have hmapped := not_mem_of_unused hfirst h.mapped
    have hany := not_mem_of_unused hboth h.any
    rcases (fillMapped_eq_ok ha).mp hrow with ⟨hcols, rfl⟩
    have hfill := h.fill ha (target_mapped hmapped hany a)
    refine ⟨⟨?_, hcols⟩, fun i => (hfill i).1, fun i => (hfill i).2, ?_, ?_, ?_, ?_⟩
    · intro j hj
      cases j with
      | mapped => exact absurd hj hmapped
      | any => exact absurd hj hany
      | unmapped => rfl
      | key code => rfl
    · simpa using h.keys
    · simp
    · simpa using h.unmapped
    · simpa using h.any
  | unmapped hfirst hboth hallowed =>
    have hunmapped := not_mem_of_unused hfirst h.unmapped
    have hany := not_mem_of_unused hboth h.any
    have hfill := h.fill ha (target_unmapped hunmapped hany a)
    refine ⟨⟨?_, hallowed⟩, fun i => (hfill i).1, fun i => (hfill i).2, ?_, ?_, ?_, ?_⟩
    · intro j hj
      cases j with
      | unmapped => exact absurd hj hunmapped
      | any => exact absurd hj hany
      | mapped => rfl
      | key code => rfl
    · simpa using h.keys
    · simpa using h.mapped
    · simp
    · simpa using h.any
  | any hfirst hdefsrc hunmapped hallowed =>
    have hany := not_mem_of_unused hfirst h.any
    have hmapped := not_mem_of_unused hdefsrc h.mapped
    have hunmapped := not_mem_of_unused hunmapped h.unmapped
    have hfill := h.fill ha fun i => by
      rw [target_any hany hmapped hunmapped, if_pos rfl]
    refine ⟨⟨?_, hallowed⟩, fun i => (hfill i).1, fun i => (hfill i).2, ?_, ?_, ?_, ?_⟩
    · intro j hj
      cases j with
      | mapped => exact absurd hj hmapped
      | unmapped => exact absurd hj hunmapped
      | any => exact absurd hj hany
      | key code => rfl
    · simpa using h.keys
    · simpa using h.mapped
    · simpa using h.unmapped
    · simp
  | @key row osc hfirst hrow =>
    rcases setCell_eq_ok.mp hrow with ⟨hcol, hcells⟩
    have hfresh : Input.key osc.code ∉ done.inputs := fun hmem => hfirst ((h.keys osc).mpr hmem)
    refine ⟨⟨?_, hcol⟩, ?_, ?_, ?_, ?_, ?_, ?_⟩
    · intro j hj
      have hne : j ≠ .key osc.code := fun heq => hfresh (heq ▸ hj)
      cases j with
      | mapped => rfl
      | unmapped => rfl
      | any => rfl
      | key code => simpa [Input.apart] using hne
    · intro i
      rw [target_key hfresh]
      dsimp only
      rw [hcells]
      split
      · rfl
      · exact h.row i
    · intro i
      rw [target_key hfresh]
      dsimp only
      rw [hcells]
      split
      · exact ha
      · exact h.empty i
    · intro osc'
      rw [inputs_concat, List.mem_append, List.mem_append, h.keys, List.mem_singleton,
        List.mem_singleton, Input.key.injEq]
      exact or_congr_right ⟨fun heq => by rw [heq], KeyCode.ext_code⟩
    · simpa using h.mapped
    · simpa using h.unmapped
    · simpa using h.any

/-- A pair that fits can be added. -/
theorem Holds.exists_adds {done : Entries T} {st : PairState T} {i : Input} {a : Action T}
    (h : Holds s done st) (ha : isDefault a = false)
    (hapart : ∀ j ∈ done.inputs, j.apart i = true) (hallows : Allows s defcfg i) :
    ∃ st', Adds s defcfg a st i st' := by
  -- an input that is not apart from the new one was not seen
  have hunused : ∀ {b : Bool} {j : Input}, (b = true ↔ j ∈ done.inputs) → j.apart i = false →
      b = false := by
    intro b j hiff hj
    refine Bool.eq_false_of_not_eq_true fun hb => ?_
    rw [hapart j (hiff.mp hb)] at hj
    cases hj
  cases i with
  | mapped =>
    have hrow : fillMapped a s.mappingOrder st.row = .ok _ :=
      (fillMapped_eq_ok ha).mpr ⟨hallows, rfl⟩
    exact ⟨_, .mapped (hunused h.mapped rfl) (hunused h.any rfl) hrow⟩
  | unmapped => exact ⟨_, .unmapped (hunused h.unmapped rfl) (hunused h.any rfl) hallows⟩
  | any =>
    exact ⟨_, .any (hunused h.any rfl) (hunused h.mapped rfl) (hunused h.unmapped rfl) hallows⟩
  | key code =>
    have hfirst : ⟨code, Nat.le_of_lt hallows⟩ ∉ st.layerMappedKeys := by
      intro hmem
      have := hapart _ ((h.keys _).mp hmem)
      simp [Input.apart] at this
    exact ⟨_, .key ⟨code, Nat.le_of_lt hallows⟩ hfirst
      (setCell_eq_ok.mpr ⟨hallows, fun i => rfl⟩)⟩

/-- Pairs are read in one way only. -/
theorem ReadsPairs.unique {pairs : List SExpr} {entries entries' : Entries T}
    (h : ReadsPairs s pairs entries) (h' : ReadsPairs s pairs entries') : entries = entries' := by
  induction h generalizing entries' with
  | nil =>
    cases h'
    rfl
  | cons hinput haction _ ih =>
    cases h' with
    | cons hinput' haction' hrest' =>
      rw [hinput] at hinput'
      rw [haction] at haction'
      cases hinput'
      cases haction'
      rw [ih hrest']

/-- What the loop over the pairs leaves. -/
theorem mapPairs_reads (hsolid : s.Solid) : ∀ {pairs : List SExpr}
    {done : Entries T} {st st' : PairState T}, Holds s done st →
    Fits s defcfg done.inputs → mapPairs s defcfg pairs st = .ok st' →
    ∃ entries, ReadsPairs s pairs entries ∧ Fits s defcfg (Entries.inputs (done ++ entries)) ∧
      Holds s (done ++ entries) st'
  | [], done, st, st', hholds, hfits, h => by
    rw [mapPairs, pure_eq_ok] at h
    subst h
    exact ⟨[], .nil, by rwa [List.append_nil], by rwa [List.append_nil]⟩
  | [_], done, st, st', hholds, hfits, h => nomatch h
  | input :: action :: pairs, done, st, st', hholds, hfits, h => by
    rw [mapPairs, bind_eq_ok] at h
    rcases h with ⟨st₁, hpair, h⟩
    rcases mapPair_eq_ok.mp hpair with ⟨a, i, haction, hinput, hadds⟩
    rcases hholds.adds (hsolid _ _ haction) hadds with ⟨⟨hapart, hallows⟩, hholds₁⟩
    have hfits₁ : Fits s defcfg (Entries.inputs (done ++ [(i, a)])) := by
      rw [inputs_concat]
      exact fits_concat.mpr ⟨hfits, hapart, hallows⟩
    rcases mapPairs_reads hsolid hholds₁ hfits₁ h with ⟨entries, hreads, hfits', hholds'⟩
    rw [List.append_assoc] at hfits' hholds'
    exact ⟨(i, a) :: entries, .cons hinput haction hreads, hfits', hholds'⟩

/-- Pairs that fit are accepted. -/
theorem mapPairs_of_reads (hsolid : s.Solid) {pairs : List SExpr}
    {entries done : Entries T} {st : PairState T} (hreads : ReadsPairs s pairs entries)
    (hholds : Holds s done st)
    (hfits : Fits s defcfg (Entries.inputs (done ++ entries))) :
    ∃ st', mapPairs s defcfg pairs st = .ok st' := by
  induction hreads generalizing done st with
  | nil => exact ⟨st, rfl⟩
  | @cons input action pairs i a entries hinput haction hrest ih =>
    -- the pair is added first, then the rest
    have hall : done ++ (i, a) :: entries = (done ++ [(i, a)]) ++ entries := by simp
    rw [hall] at hfits
    have hfits₁ : Fits s defcfg (Entries.inputs (done ++ [(i, a)])) := by
      unfold Entries.inputs at hfits ⊢
      rw [List.map_append] at hfits
      exact hfits.take
    rw [inputs_concat] at hfits₁
    rcases fits_concat.mp hfits₁ with ⟨-, hapart, hallows⟩
    have ha := hsolid _ _ haction
    rcases hholds.exists_adds ha hapart hallows with ⟨st₁, hadds⟩
    rcases ih (hholds.adds ha hadds).2 hfits with ⟨st', hst'⟩
    refine ⟨st', ?_⟩
    rw [mapPairs, mapPair_eq_ok.mpr ⟨a, i, haction, hinput, hadds⟩]
    exact hst'

/-- A pair maps the key that it names, and no other. -/
theorem Adds.mappedKeys {st st' : PairState T} {i : Input} {a : Action T}
    (h : Adds s defcfg a st i st') (osc : OsCode) :
    osc ∈ st'.mappedKeys ↔ osc ∈ st.mappedKeys ∨ .key osc.code = i := by
  cases h with
  | mapped => simp
  | unmapped => simp
  | any => simp
  | key osc' hfirst hrow =>
    rw [List.mem_insert_iff, Input.key.injEq, or_comm]
    exact or_congr_right ⟨fun heq => by rw [heq], KeyCode.ext_code⟩

/-- The keys that are mapped after the pairs, whatever the actions are. -/
theorem mapPairs_mapped : ∀ {pairs : List SExpr} {st st' : PairState T},
    mapPairs s defcfg pairs st = .ok st' → ∃ entries, ReadsPairs s pairs entries ∧
      ∀ osc : OsCode, osc ∈ st'.mappedKeys ↔ osc ∈ st.mappedKeys ∨ .key osc.code ∈ entries.inputs
  | [], st, st', h => by
    rw [mapPairs, pure_eq_ok] at h
    subst h
    exact ⟨[], .nil, fun osc => by simp [Entries.inputs]⟩
  | [_], st, st', h => nomatch h
  | input :: action :: pairs, st, st', h => by
    rw [mapPairs, bind_eq_ok] at h
    rcases h with ⟨st₁, hpair, h⟩
    rcases mapPair_eq_ok.mp hpair with ⟨a, i, haction, hinput, hadds⟩
    rcases mapPairs_mapped h with ⟨entries, hreads, hmapped⟩
    refine ⟨(i, a) :: entries, .cons hinput haction hreads, fun osc => ?_⟩
    rw [hmapped, hadds.mappedKeys, or_assoc]
    simp [Entries.inputs]

/-! ## The actions of `deflayer` -/

/-- The actions of the keys of `defsrc`, in order. -/
def placed (cols : List Nat) (acs : List (Action T)) : Entries T :=
  (cols.zip acs).map fun p => (.key p.1, p.2)

/-- The expressions are read as the actions. -/
abbrev ReadsActions (s : ParserState T) (exprs : List SExpr) (acs : List (Action T)) : Prop :=
  List.Forall₂ (fun expr a => s.action expr = .ok a) exprs acs

/-- The inputs of `deflayer` are keys of `defsrc`. -/
theorem mem_placed {cols : List Nat} {acs : List (Action T)} {i : Input}
    (h : i ∈ (placed cols acs).inputs) : ∃ col ∈ cols, i = .key col := by
  unfold placed Entries.inputs at h
  rw [List.map_map, List.mem_map] at h
  rcases h with ⟨p, hp, rfl⟩
  exact ⟨p.1, (List.of_mem_zip hp).1, rfl⟩

/-- The first key and the first action. -/
theorem placed_cons (col : Nat) (cols : List Nat) (a : Action T) (acs : List (Action T)) :
    placed (col :: cols) (a :: acs) = (.key col, a) :: placed cols acs := rfl

/-- The inputs with one more entry in front. -/
theorem inputs_cons (i : Input) (a : Action T) (entries : Entries T) :
    Entries.inputs ((i, a) :: entries) = i :: entries.inputs := rfl

/-- One more input in front. -/
theorem fits_cons {i : Input} {inputs : List Input} :
    Fits s defcfg (i :: inputs) ↔
      Allows s defcfg i ∧ (∀ j ∈ inputs, i.apart j = true) ∧ Fits s defcfg inputs := by
  constructor
  · rintro ⟨hapart, hallows⟩
    rw [List.pairwise_cons] at hapart
    rw [List.forall_mem_cons] at hallows
    exact ⟨hallows.1, hapart.1, hapart.2, hallows.2⟩
  · rintro ⟨hallows, hapart, hfits⟩
    exact ⟨List.pairwise_cons.mpr ⟨hapart, hfits.apart⟩,
      List.forall_mem_cons.mpr ⟨hallows, hfits.allows⟩⟩

/-- The action of the first key may be put in its cell before the others. -/
theorem placed_getD {col : Nat} {cols : List Nat} (hfresh : col ∉ cols) (a old : Action T)
    (acs : List (Action T)) (c : Nat) :
    ((placed (col :: cols) (a :: acs)).lookup (.key c)).getD old =
      ((placed cols acs).lookup (.key c)).getD (if c = col then a else old) := by
  rw [placed_cons]
  by_cases hc : c = col
  · have hnone : (placed cols acs).lookup (.key col) = none := by
      refine lookup_eq_none.mpr fun hmem => ?_
      rcases mem_placed hmem with ⟨col', hcol', heq⟩
      exact hfresh (Input.key.inj heq ▸ hcol')
    rw [if_pos hc, hc, List.lookup_cons_self, hnone]
    rfl
  · have hne : Input.key c ≠ .key col := fun heq => hc (Input.key.inj heq)
    rw [if_neg hc, List.lookup_cons, beq_false_of_ne hne]

/-- A key that comes once in `defsrc` fits the others if it is in the row. -/
theorem fits_placed_cons {col : Nat} {cols : List Nat} (hfresh : col ∉ cols) (a : Action T)
    (acs : List (Action T)) :
    Fits s defcfg (placed (col :: cols) (a :: acs)).inputs ↔
      col < keysInRow ∧ Fits s defcfg (placed cols acs).inputs := by
  rw [placed_cons, inputs_cons, fits_cons]
  refine and_congr_right fun _ => and_iff_right fun j hj => ?_
  rcases mem_placed hj with ⟨col', hcol', rfl⟩
  have hne : col ≠ col' := fun heq => hfresh (heq ▸ hcol')
  simpa [Input.apart] using hne

/-- The loop over the actions of a layer. -/
theorem placeActions_eq_ok : ∀ {exprs : List SExpr} {i : Nat} {cols : List Nat}
    {row row' : Row T}, s.mappingOrder.drop i = cols → cols.Nodup →
    (placeActions s i exprs row = .ok row' ↔ ∃ acs, ReadsActions s exprs acs ∧
      acs.length ≤ cols.length ∧ Fits s defcfg (placed cols acs).inputs ∧
      ∀ c, row' c = ((placed cols acs).lookup (.key c)).getD (row c))
  | [], i, cols, row, row', _, _ => by
    rw [placeActions, pure_eq_ok]
    constructor
    · rintro rfl
      refine ⟨[], .nil, Nat.zero_le _, ?_, ?_⟩ <;> simp [placed, Entries.inputs]
      exact ⟨.nil, nofun⟩
    · rintro ⟨acs, hreads, -, -, hrow⟩
      cases hreads
      refine funext fun c => ?_
      rw [hrow]
      simp [placed]
  | expr :: exprs, i, cols, row, row', hdrop, hnodup => by
    rw [placeActions]
    have hcols : cols = s.mappingOrder[i]?.toList ++ s.mappingOrder.drop (i + 1) := by
      rw [← hdrop]
      exact List.drop_eq_getElem?_toList_append
    rcases hcol : s.mappingOrder[i]? with _ | col
    · -- there is no key for the action
      have hnone : cols = [] := by
        rw [← hdrop]
        exact List.drop_eq_nil_of_le (List.getElem?_eq_none_iff.mp hcol)
      constructor
      · intro h
        rcases bind_eq_ok.mp h with ⟨a, -, h⟩
        cases h
      · rintro ⟨acs, hreads, hlen, -⟩
        rw [hnone] at hlen
        cases hreads
        cases hlen
    · rw [hcol] at hcols
      change cols = col :: s.mappingOrder.drop (i + 1) at hcols
      rw [hcols, List.nodup_cons] at hnodup
      constructor
      · intro h
        rcases bind_eq_ok.mp h with ⟨a, ha, h⟩
        rcases bind_eq_ok.mp h with ⟨row₁, hset, h⟩
        rcases setCell_eq_ok.mp (liftRust_eq_ok.mp hset) with ⟨hlt, hcells⟩
        rcases (placeActions_eq_ok rfl hnodup.2).mp h with ⟨acs, hreads, hlen, hfits, hrow⟩
        rw [hcols]
        refine ⟨a :: acs, .cons ha hreads, Nat.succ_le_succ hlen, ?_, fun c => ?_⟩
        · exact (fits_placed_cons hnodup.1 a acs).mpr ⟨hlt, hfits⟩
        · rw [placed_getD hnodup.1, hrow, hcells]
      · rintro ⟨acs, hreads, hlen, hfits, hrow⟩
        rw [hcols] at hlen hfits hrow
        cases hreads with
        | @cons _ a _ acs ha hreads =>
          rcases (fits_placed_cons hnodup.1 a acs).mp hfits with ⟨hlt, hfits⟩
          rw [ha, ok_bind]
          refine bind_eq_ok.mpr ⟨fun c => if c.val = col then a else row c,
            liftRust_eq_ok.mpr (setCell_eq_ok.mpr ⟨hlt, fun c => rfl⟩), ?_⟩
          refine (placeActions_eq_ok rfl hnodup.2).mpr
            ⟨acs, hreads, Nat.le_of_succ_le_succ hlen, hfits, fun c => ?_⟩
          rw [hrow, placed_getD hnodup.1]

/-- The loop from its start. -/
theorem placeActions_placed {exprs : List SExpr} {row row' : Row T}
    (hnodup : s.mappingOrder.Nodup) : placeActions s 0 exprs row = .ok row' ↔
      ∃ acs, ReadsActions s exprs acs ∧ acs.length ≤ s.mappingOrder.length ∧
        Fits s defcfg (placed s.mappingOrder acs).inputs ∧
        ∀ c, row' c = ((placed s.mappingOrder acs).lookup (.key c)).getD (row c) :=
  placeActions_eq_ok rfl hnodup

/-! ## A layer -/

/-- The layer is read as the entries. -/
inductive Reads (s : ParserState T) : LayerExprs → Entries T → Prop where
  | deflayer {exprs : List SExpr} {acs : List (Action T)}
      (hreads : ReadsActions s (exprs.drop 2) acs) (hlen : acs.length ≤ s.mappingOrder.length) :
      Reads s (.defsrcMapping exprs) (placed s.mappingOrder acs)
  | deflayermap {exprs : List SExpr} {entries : Entries T} (hlen : 2 ≤ exprs.length)
      (hreads : ReadsPairs s (exprs.drop 2) entries) :
      Reads s (.customMapping exprs) entries

/-- A cell for which nothing is written. -/
def unwritten (s : ParserState T) (i : Nat) : Action T :=
  if s.blockUnmappedKeys && !isAButton s.windows i then .noOp else .trans

/-- The rows of a layer that is read as the entries. -/
def rowsOf (s : ParserState T) (entries : Entries T) : LayerRows T where
  keys i := if i.val = 0 then .noOp else (target s entries i).getD (unwritten s i)
  virtualKeys i := ((s.virtualKeys.map Prod.snd).lookup i.val).getD defaultAction

/-- What the passes before leave: no key twice in `defsrc`, where all its keys are mapped, and
the virtual keys numbered from zero. -/
structure Built (s : ParserState T) (mappedKeys : List OsCode) : Prop where
  nodup : s.mappingOrder.Nodup
  mapped : ∀ osc : OsCode, osc.code ∈ s.mappingOrder → osc ∈ mappedKeys
  numbered : s.virtualKeys.map (fun key => key.2.1) = List.range s.virtualKeys.length
  few : s.virtualKeys.length ≤ keysInRow

/-- It is never empty. -/
theorem unwritten_solid (s : ParserState T) (i : Nat) : isDefault (unwritten s i) = false := by
  unfold unwritten
  split <;> rfl

/-- Keys that name no wildcard say nothing about other keys. -/
theorem target_placed (cols : List Nat) (acs : List (Action T)) (i : Nat) :
    target s (placed cols acs) i = (placed cols acs).lookup (.key i) := by
  have hnone : ∀ j : Input, (∀ code, j ≠ .key code) → (placed cols acs).lookup j = none := by
    intro j hj
    refine lookup_eq_none.mpr fun hmem => ?_
    rcases mem_placed hmem with ⟨col, -, heq⟩
    exact hj col heq
  unfold target
  rw [hnone .any nofun, hnone (if s.mappingOrder.contains i then .mapped else .unmapped)
    (by split <;> nofun)]
  simp

/-- The keys of a layer, once its actions are in their places. -/
theorem setFirst_fillRest {entries : Entries T} {row : Row T}
    (hrow : ∀ i, row i = (target s entries i).getD defaultAction)
    (hempty : ∀ i, isDefault (row i) = (target s entries i).isNone) :
    setFirst (fillRest s row) = (rowsOf s entries).keys := by
  funext i
  unfold setFirst fillRest rowsOf
  dsimp only
  rw [fillWhere_or (hrow i) (hempty i), if_pos rfl]
  split
  · rfl
  · cases target s entries i <;> rfl

/-- The virtual keys are put in the second row, each in its own cell. -/
theorem foldlM_setCell {keys : VirtualKeys T} (hfew : ∀ key ∈ keys, key.2.1 < keysInRow)
    (hnodup : (keys.map fun key => key.2.1).Nodup) (row : Row T) :
    setVirtualKeys keys row =
      .ok fun i => ((keys.map Prod.snd).lookup i.val).getD (row i) := by
  unfold setVirtualKeys
  induction keys generalizing row with
  | nil => rfl
  | cons key keys ih =>
    rw [List.forall_mem_cons] at hfew
    rw [List.map_cons, List.nodup_cons] at hnodup
    have hcol : asU16 key.2.1 = key.2.1 :=
      Nat.mod_eq_of_lt (Nat.lt_trans hfew.1 (by decide))
    have hset : setCell row (asU16 key.2.1) key.2.2 =
        .ok fun i => if i.val = key.2.1 then key.2.2 else row i :=
      setCell_eq_ok.mpr ⟨Nat.lt_of_le_of_lt (Nat.le_of_eq hcol) hfew.1, fun i => by rw [hcol]⟩
    rw [List.foldlM_cons, hset, ok_bind, ih hfew.2 hnodup.2]
    congr 1
    funext i
    rw [List.map_cons, List.lookup_cons]
    by_cases hi : i.val = key.2.1
    · have hnone : (keys.map Prod.snd).lookup key.2.1 = none := by
        refine lookup_eq_none.mpr ?_
        rw [List.map_map]
        exact hnodup.1
      rw [if_pos hi, hi, beq_self_eq_true, hnone]
      rfl
    · rw [if_neg hi, beq_false_of_ne hi]

/-- The second row of an accepted layer. -/
theorem Built.setVirtualKeys {mappedKeys : List OsCode} (h : Built s mappedKeys)
    (entries : Entries T) : Layers.setVirtualKeys s.virtualKeys newLayer.virtualKeys =
      .ok (rowsOf s entries).virtualKeys := by
  refine foldlM_setCell (fun key hkey => ?_) ?_ _
  · have hmem : key.2.1 ∈ List.range s.virtualKeys.length := by
      rw [← h.numbered]
      exact List.mem_map_of_mem hkey
    exact Nat.lt_of_lt_of_le (List.mem_range.mp hmem) h.few
  · rw [h.numbered]
    exact List.nodup_range

/-- No cell of `deflayer` stays empty by its own action. -/
theorem ReadsActions.solid {exprs : List SExpr} {acs : List (Action T)} (hsolid : s.Solid)
    (h : ReadsActions s exprs acs) : ∀ a ∈ acs, isDefault a = false := by
  induction h with
  | nil => nofun
  | cons ha _ ih => exact List.forall_mem_cons.mpr ⟨hsolid _ _ ha, ih⟩

/-- A cell is empty if no action was placed there. -/
theorem isDefault_placed {cols : List Nat} {acs : List (Action T)}
    (hsolid : ∀ a ∈ acs, isDefault a = false) (i : Nat) :
    isDefault (((placed cols acs).lookup (.key i)).getD defaultAction) =
      ((placed cols acs).lookup (.key i)).isNone := by
  rcases hlook : (placed cols acs).lookup (.key i) with _ | a <;> rw [hlook]
  · rfl
  · rcases List.mem_map.mp (mem_of_lookup hlook) with ⟨p, hp, heq⟩
    cases heq
    exact hsolid _ (List.of_mem_zip hp).2

/-- What an accepted layer says about the keys. -/
theorem parseKeys_reads {layer : LayerExprs} {row : Row T} {mappedKeys mappedKeys' : List OsCode}
    (hbuilt : Built s mappedKeys) (hsolid : s.Solid)
    (h : parseKeys s defcfg layer mappedKeys = .ok (row, mappedKeys')) :
    ∃ entries, Reads s layer entries ∧ Fits s defcfg entries.inputs ∧
      setFirst (fillRest s row) = (rowsOf s entries).keys := by
  cases layer with
  | defsrcMapping exprs =>
    rcases bind_eq_ok.mp h with ⟨row₁, hplace, h⟩
    cases h
    rcases (placeActions_placed hbuilt.nodup).mp hplace with ⟨acs, hreads, hlen, hfits, hcells⟩
    refine ⟨placed s.mappingOrder acs, .deflayer hreads hlen, hfits,
      setFirst_fillRest (fun i => ?_) (fun i => ?_)⟩
    · rw [target_placed, hcells]
      rfl
    · rw [target_placed, hcells]
      exact isDefault_placed (hreads.solid hsolid) i
  | customMapping exprs =>
    unfold parseKeys at h
    dsimp only at h
    split at h
    · cases h
    rename_i hlen
    rcases bind_eq_ok.mp h with ⟨st, hpairs, h⟩
    cases h
    have hfits : Fits s defcfg (Entries.inputs ([] : Entries T)) := ⟨.nil, nofun⟩
    rcases mapPairs_reads hsolid (Holds.init mappedKeys) hfits hpairs with
      ⟨entries, hreads, hfits', hholds⟩
    rw [List.nil_append] at hfits' hholds
    exact ⟨entries, .deflayermap (Nat.le_of_not_lt hlen) hreads, hfits',
      setFirst_fillRest hholds.row hholds.empty⟩

/-- The layer names the key. -/
def Names (s : ParserState T) (layer : LayerExprs) (osc : OsCode) : Prop :=
  ∃ entries, Reads s layer entries ∧ .key osc.code ∈ entries.inputs

/-- A layer whose entries fit is accepted. -/
theorem parseKeys_of_reads {layer : LayerExprs} {mappedKeys : List OsCode} {entries : Entries T}
    (hbuilt : Built s mappedKeys) (hsolid : s.Solid) (hreads : Reads s layer entries)
    (hfits : Fits s defcfg entries.inputs) :
    ∃ row mappedKeys', parseKeys s defcfg layer mappedKeys = .ok (row, mappedKeys') := by
  cases hreads with
  | @deflayer exprs acs hreads hlen =>
    have hplace : placeActions s 0 (exprs.drop 2) newLayer.keys = .ok _ :=
      (placeActions_placed hbuilt.nodup).mpr ⟨acs, hreads, hlen, hfits, fun c => rfl⟩
    unfold parseKeys
    dsimp only
    rw [hplace]
    exact ⟨_, _, rfl⟩
  | @deflayermap exprs entries hlen hreads =>
    rcases mapPairs_of_reads hsolid hreads (Holds.init mappedKeys) hfits with ⟨st, hst⟩
    refine ⟨st.row, st.mappedKeys, ?_⟩
    unfold parseKeys
    dsimp only
    rw [if_neg (Nat.not_lt.mpr hlen), hst]
    rfl

/-- A layer is read in one way only. -/
theorem Reads.unique {layer : LayerExprs} {entries entries' : Entries T}
    (h : Reads s layer entries) (h' : Reads s layer entries') : entries = entries' := by
  cases h with
  | deflayer hreads hlen =>
    cases h' with
    | deflayer hreads' hlen' =>
      have hunique : Relator.RightUnique fun expr a => s.action expr = .ok a := by
        intro expr a a' ha ha'
        rw [ha] at ha'
        exact Except.ok.inj ha'
      rw [List.right_unique_forall₂' hunique hreads hreads']
  | deflayermap hlen hreads =>
    cases h' with
    | deflayermap hlen' hreads' => exact hreads.unique hreads'

/-- Which layers are accepted, and the rows they give. -/
theorem parseLayer_iff {layer : LayerExprs} {rows : LayerRows T} {mappedKeys : List OsCode}
    (hbuilt : Built s mappedKeys) (hsolid : s.Solid) :
    (∃ mappedKeys', parseLayer s defcfg layer mappedKeys = .ok (rows, mappedKeys')) ↔
      ∃ entries, Reads s layer entries ∧ Fits s defcfg entries.inputs ∧
        rows = rowsOf s entries := by
  constructor
  · rintro ⟨mappedKeys', h⟩
    rcases bind_eq_ok.mp h with ⟨⟨row, mappedKeys₁⟩, hkeys, h⟩
    rcases parseKeys_reads hbuilt hsolid hkeys with ⟨entries, hreads, hfits, hrow⟩
    dsimp only at h
    rw [hrow, hbuilt.setVirtualKeys entries] at h
    cases h
    exact ⟨entries, hreads, hfits, rfl⟩
  · rintro ⟨entries, hreads, hfits, rfl⟩
    rcases parseKeys_of_reads hbuilt hsolid hreads hfits with ⟨row, mappedKeys', hkeys⟩
    rcases parseKeys_reads hbuilt hsolid hkeys with ⟨entries', hreads', -, hrow⟩
    obtain rfl := hreads.unique hreads'
    refine ⟨mappedKeys', ?_⟩
    unfold parseLayer
    rw [hkeys, ok_bind]
    dsimp only
    rw [hrow, hbuilt.setVirtualKeys entries]
    rfl

/-- The keys that a layer names are the keys of its entries. -/
theorem Reads.names {layer : LayerExprs} {entries : Entries T} (hreads : Reads s layer entries)
    (osc : OsCode) : Names s layer osc ↔ .key osc.code ∈ entries.inputs := by
  constructor
  · rintro ⟨entries', hreads', hmem⟩
    rwa [hreads.unique hreads']
  · exact fun hmem => ⟨entries, hreads, hmem⟩

/-- The keys that a layer names are mapped from then on, whatever its actions are. -/
theorem parseLayer_mapped {layer : LayerExprs} {rows : LayerRows T}
    {mappedKeys mappedKeys' : List OsCode} (hbuilt : Built s mappedKeys)
    (h : parseLayer s defcfg layer mappedKeys = .ok (rows, mappedKeys')) (osc : OsCode) :
    osc ∈ mappedKeys' ↔ osc ∈ mappedKeys ∨ Names s layer osc := by
  rcases bind_eq_ok.mp h with ⟨⟨row, mappedKeys₁⟩, hkeys, h⟩
  rcases bind_eq_ok.mp h with ⟨virtualKeys, -, h⟩
  cases h
  cases layer with
  | defsrcMapping exprs =>
    rcases bind_eq_ok.mp hkeys with ⟨row₁, hplace, hkeys⟩
    cases hkeys
    rcases (@placeActions_placed _ _ defcfg _ _ _ hbuilt.nodup).mp hplace with
      ⟨acs, hreads, hlen, -, -⟩
    rw [(Reads.deflayer hreads hlen).names]
    -- the keys of `defsrc` are mapped already
    refine (or_iff_left_of_imp fun hmem => ?_).symm
    rcases mem_placed hmem with ⟨col, hcol, heq⟩
    exact hbuilt.mapped osc (Input.key.inj heq ▸ hcol)
  | customMapping exprs =>
    unfold parseKeys at hkeys
    dsimp only at hkeys
    split at hkeys
    · cases hkeys
    rename_i hlen
    rcases bind_eq_ok.mp hkeys with ⟨st, hpairs, hkeys⟩
    cases hkeys
    rcases mapPairs_mapped hpairs with ⟨entries, hreads, hmapped⟩
    rw [(Reads.deflayermap (Nat.le_of_not_lt hlen) hreads).names]
    exact hmapped osc

/-- More keys may be mapped. -/
theorem Built.grow {mappedKeys mappedKeys' : List OsCode} (h : Built s mappedKeys)
    (hsub : mappedKeys ⊆ mappedKeys') : Built s mappedKeys' :=
  { h with mapped := fun osc hosc => hsub (h.mapped osc hosc) }

/-- The rows are those of a layer that can be read. -/
def Shows (s : ParserState T) (defcfg : CfgOptions) (layer : LayerExprs) (rows : LayerRows T) :
    Prop :=
  ∃ entries, Reads s layer entries ∧ Fits s defcfg entries.inputs ∧ rows = rowsOf s entries

/-! ## All layers -/

/-- The layers are accepted one by one, each for itself. -/
theorem parseEach_iff (hsolid : s.Solid) : ∀ {layerExprs : List LayerExprs}
    {layers : List (LayerRows T)} {mappedKeys : List OsCode}, Built s mappedKeys →
    ((∃ mappedKeys', parseEach s defcfg layerExprs mappedKeys = .ok (layers, mappedKeys')) ↔
      List.Forall₂ (Shows s defcfg) layerExprs layers)
  | [], layers, mappedKeys, _ => by
    unfold parseEach
    rw [List.forall₂_nil_left_iff]
    constructor
    · rintro ⟨mappedKeys', h⟩
      cases h
      rfl
    · rintro rfl
      exact ⟨mappedKeys, rfl⟩
  | layer :: layerExprs, layers, mappedKeys, hbuilt => by
    unfold parseEach
    simp only [bind_eq_ok, Prod.exists, pure_eq_ok, Prod.mk.injEq]
    constructor
    · rintro ⟨mappedKeys', rows, mappedKeys₁, hlayer, layers', mappedKeys₂, heach, rfl, rfl⟩
      refine .cons ((parseLayer_iff hbuilt hsolid).mp ⟨_, hlayer⟩) ?_
      refine (parseEach_iff hsolid (hbuilt.grow ?_)).mp ⟨_, heach⟩
      exact fun osc hosc => (parseLayer_mapped hbuilt hlayer osc).mpr (.inl hosc)
    · intro h
      cases h with
      | @cons _ rows _ layers' hshows hrest =>
        rcases (parseLayer_iff hbuilt hsolid).mpr hshows with ⟨mappedKeys₁, hlayer⟩
        have hbuilt₁ := hbuilt.grow fun osc hosc =>
          (parseLayer_mapped hbuilt hlayer osc).mpr (.inl hosc)
        rcases (parseEach_iff hsolid hbuilt₁).mpr hrest with ⟨mappedKeys₂, heach⟩
        exact ⟨mappedKeys₂, rows, mappedKeys₁, hlayer, layers', mappedKeys₂, heach, rfl, rfl⟩

/-- The keys that are mapped after the layers. -/
theorem parseEach_mapped : ∀ {layerExprs : List LayerExprs}
    {layers : List (LayerRows T)} {mappedKeys mappedKeys' : List OsCode}, Built s mappedKeys →
    parseEach s defcfg layerExprs mappedKeys = .ok (layers, mappedKeys') → ∀ osc : OsCode,
    (osc ∈ mappedKeys' ↔ osc ∈ mappedKeys ∨ ∃ layer ∈ layerExprs, Names s layer osc)
  | [], layers, mappedKeys, mappedKeys', _, h, osc => by
    cases h
    simp
  | layer :: layerExprs, layers, mappedKeys, mappedKeys', hbuilt, h, osc => by
    unfold parseEach at h
    simp only [bind_eq_ok, Prod.exists, pure_eq_ok, Prod.mk.injEq] at h
    rcases h with ⟨rows, mappedKeys₁, hlayer, layers', mappedKeys₂, heach, -, rfl⟩
    have hmapped := parseLayer_mapped hbuilt hlayer
    rw [parseEach_mapped (hbuilt.grow fun osc hosc => (hmapped osc).mpr (.inl hosc)) heach,
      hmapped, or_assoc]
    simp

end Kanata.Layers
