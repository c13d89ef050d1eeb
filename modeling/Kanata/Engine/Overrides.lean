import Kanata.Parser.KeyOutputs
import Kanata.Lib.Masks
import Mathlib.Data.List.Induction

/-!
# Kanata.Engine.Overrides — what a key override does

`override_keys` goes through the keys in their order and tests the overrides with masks of the
modifiers that came before. `overrideKeys_mem` says what it does without masks and without the
order of the loops: a key shows if no override that fires takes it away, or if one that fires
puts it there.

An override fires at a key when its modifiers are among the keys before it and its excluded
ones are not; of several, the one that is configured last does.
-/

namespace Kanata

open Masks Macro

/-- The modifiers in the order of their bits. -/
def maskedKeys : List OsCode := [lCtrl, lShift, lAlt, lGui, rCtrl, rShift, rAlt, rGui]

theorem maskForKey_eq_some {osc : OsCode} {m : BitVec 8} (h : maskForKey osc = some m) :
    ∃ i : Fin 8, maskedKeys[i.val]? = some osc ∧ m = BitVec.twoPow 8 i := by
  unfold maskForKey at h
  split_ifs at h with h₀ h₁ h₂ h₃ h₄ h₅ h₆ h₇
  · exact ⟨0, by rw [h₀]; rfl, (Option.some.inj h).symm⟩
  · exact ⟨1, by rw [h₁]; rfl, (Option.some.inj h).symm⟩
  · exact ⟨2, by rw [h₂]; rfl, (Option.some.inj h).symm⟩
  · exact ⟨3, by rw [h₃]; rfl, (Option.some.inj h).symm⟩
  · exact ⟨4, by rw [h₄]; rfl, (Option.some.inj h).symm⟩
  · exact ⟨5, by rw [h₅]; rfl, (Option.some.inj h).symm⟩
  · exact ⟨6, by rw [h₆]; rfl, (Option.some.inj h).symm⟩
  · exact ⟨7, by rw [h₇]; rfl, (Option.some.inj h).symm⟩

theorem getLsbD_twoPow_iff (i : Fin 8) (j : Nat) :
    (BitVec.twoPow 8 i).getLsbD j = true ↔ j = i := by
  rw [BitVec.getLsbD_twoPow, Bool.and_eq_true, decide_eq_true_iff, decide_eq_true_iff]
  exact ⟨fun h => h.2.symm, fun h => ⟨i.isLt, h.symm⟩⟩

/-- Each of the eight modifiers has a bit of its own. -/
theorem ownBits_maskForKey : OwnBits maskForKey := by
  constructor
  · intro osc m h
    rcases maskForKey_eq_some h with ⟨i, -, rfl⟩
    exact ⟨i, getLsbD_twoPow_iff i⟩
  · intro a b m ha hb
    rcases maskForKey_eq_some ha with ⟨i, hi, rfl⟩
    rcases maskForKey_eq_some hb with ⟨i', hi', heq⟩
    have hsame : i.val = i'.val := by
      rw [← getLsbD_twoPow_iff, ← heq, getLsbD_twoPow_iff]
    rw [hsame, hi'] at hi
    exact (Option.some.inj hi).symm

namespace Override

/-- The keys that an override takes away. -/
def inputs (o : Override) : List OsCode := o.inModOscs ++ [o.inNonModOsc]

/-- The keys that it puts there. -/
def outputs (o : Override) : List OsCode := o.outModOscs ++ [o.outNonModOsc]

/-- The test of an override, after the keys `before`. -/
structure Matches (o : Override) (before : List OsCode) (activeLayer : Nat) : Prop where
  mods : ∀ osc ∈ o.inModOscs, osc ∈ before
  excluded : ∀ oscs ∈ o.excludedModOscs, ∀ osc ∈ oscs, osc ∉ before
  layer : ∀ layers ∈ o.excludedLayers, activeLayer ∉ layers

/-- The masks decide it. -/
theorem applies_iff {o : Override} {before : List OsCode} {activeLayer : Nat} :
    o.applies (Masks.maskOf maskForKey before) activeLayer = true ↔
      o.Matches before activeLayer := by
  have hmods : (o.getModMask &&& Masks.maskOf maskForKey before == o.getModMask) = true ↔
      ∀ osc ∈ o.inModOscs, osc ∈ before := by
    rw [beq_iff_eq]
    exact subset_iff ownBits_maskForKey o.inMods_mask
  have hexcluded : (o.getExcludedModMask &&& Masks.maskOf maskForKey before == 0) = true ↔
      ∀ oscs ∈ o.excludedModOscs, ∀ osc ∈ oscs, osc ∉ before := by
    rw [beq_iff_eq, getExcludedModMask]
    cases hsome : o.excludedModOscs with
    | none => simp
    | some oscs =>
      have hall := o.excludedMods_mask oscs hsome
      rw [Option.map_some, Option.getD_some]
      exact (disjoint_iff ownBits_maskForKey hall).trans (by simp)
  unfold applies
  split
  · rename_i hlayer
    constructor
    · intro h
      cases h
    · intro h
      cases hlayers : o.excludedLayers with
      | none =>
        rw [hlayers] at hlayer
        cases hlayer
      | some layers =>
        rw [hlayers, Option.map_some, Option.getD_some] at hlayer
        exact absurd (List.contains_iff_mem.mp hlayer) (h.layer layers hlayers)
  · rename_i hlayer
    rw [Bool.and_eq_true, hmods, hexcluded]
    constructor
    · rintro ⟨h₁, h₂⟩
      refine ⟨h₁, h₂, fun layers hlayers hmem => hlayer ?_⟩
      rw [hlayers, Option.map_some, Option.getD_some]
      exact List.contains_iff_mem.mpr hmem
    · exact fun h => ⟨h.mods, h.excluded⟩

end Override

/-! ## Which overrides fire -/

/-- The override that fires at the key `osc` after the keys `before`: of those for the key
that match, the last. -/
def Chosen (overrides : List Override) (before : List OsCode) (activeLayer : Nat) (osc : OsCode)
    (o : Override) : Prop :=
  ∃ earlier later, overrides = earlier ++ o :: later ∧ o.inNonModOsc = osc ∧
    o.Matches before activeLayer ∧
    ∀ o' ∈ later, o'.inNonModOsc = osc → ¬o'.Matches before activeLayer

/-- An override fires at one of the keys. -/
def Fires (overrides : List Override) (kcs : List KeyCode) (activeLayer : Nat) (o : Override) :
    Prop :=
  ∃ before kc after, kcs = before ++ kc :: after ∧ Chosen overrides before activeLayer kc o

variable {overrides : List Override} {activeLayer : Nat} {kcs before : List KeyCode}
  {kc osc : OsCode} {o : Override}

theorem find_chosen :
    (overrides.filter fun o => o.inNonModOsc == osc).reverse.find?
        (fun o => o.applies (Masks.maskOf maskForKey before) activeLayer) = some o ↔
      Chosen overrides before activeLayer osc o := by
  rw [← List.filter_reverse, List.find?_filter, List.find?_eq_some_iff_append]
  simp only [decide_eq_true_iff, Bool.not_eq_true', decide_eq_false_iff_not, not_and, beq_iff_eq,
    Override.applies_iff]
  constructor
  · rintro ⟨⟨hosc, hmatches⟩, later, earlier, hsplit, hlater⟩
    refine ⟨earlier.reverse, later.reverse, ?_, hosc, hmatches, ?_⟩
    · rw [← List.reverse_reverse overrides, hsplit]
      simp
    · exact fun o' ho' => hlater o' (List.mem_reverse.mp ho')
  · rintro ⟨earlier, later, rfl, hosc, hmatches, hlater⟩
    refine ⟨⟨hosc, hmatches⟩, later.reverse, earlier.reverse, by simp, ?_⟩
    exact fun o' ho' => hlater o' (List.mem_reverse.mp ho')

theorem fires_nil : ¬Fires overrides [] activeLayer o := by
  rintro ⟨before, kc, after, hsplit, -⟩
  cases before <;> cases hsplit

/-- One more key may fire one more override. -/
theorem fires_concat : Fires overrides (kcs ++ [kc]) activeLayer o ↔
    Fires overrides kcs activeLayer o ∨ Chosen overrides kcs activeLayer kc o := by
  constructor
  · rintro ⟨before, kc', after, hsplit, hchosen⟩
    rcases List.eq_nil_or_concat after with rfl | ⟨after, last, rfl⟩
    · rcases List.append_inj' hsplit rfl with ⟨rfl, hlast⟩
      cases hlast
      exact .inr hchosen
    · rw [List.concat_eq_append, ← List.cons_append, ← List.append_assoc] at hsplit
      exact .inl ⟨before, kc', after, (List.append_inj' hsplit rfl).1, hchosen⟩
  · rintro (⟨before, kc', after, rfl, hchosen⟩ | hchosen)
    · exact ⟨before, kc', after ++ [kc], by simp, hchosen⟩
    · exact ⟨kcs, kc, [], rfl, hchosen⟩

namespace OverrideStates

/-- The states after the keys. -/
def after (overrides : List Override) (activeLayer : Nat) (kcs : List KeyCode) : OverrideStates :=
  kcs.foldl (update overrides activeLayer) new

theorem after_concat : after overrides activeLayer (kcs ++ [kc]) =
    (after overrides activeLayer kcs).update overrides activeLayer kc := List.foldl_concat ..

/-- What the states say about the keys so far. -/
structure Tells (overrides : List Override) (activeLayer : Nat) (kcs : List KeyCode)
    (states : OverrideStates) : Prop where
  mods : states.modsPressed = Masks.maskOf maskForKey kcs
  remove : ∀ a, a ∈ states.oscsToRemove ↔ ∃ o, Fires overrides kcs activeLayer o ∧ a ∈ o.inputs
  add : ∀ a, a ∈ states.oscsToAdd ↔ ∃ o, Fires overrides kcs activeLayer o ∧ a ∈ o.outputs

theorem Tells.update {states : OverrideStates} (h : Tells overrides activeLayer kcs states)
    (kc : KeyCode) :
    Tells overrides activeLayer (kcs ++ [kc]) (states.update overrides activeLayer kc) := by
  have hmods : Masks.maskOf maskForKey (kcs ++ [kc]) =
      Masks.maskOf maskForKey kcs ||| (maskForKey kc).getD 0 := maskOf_append kcs [kc]
  unfold OverrideStates.update
  rcases hmask : maskForKey kc with _ | modMask
  · -- not a modifier: the masks stay as they are
    have hzero : Masks.maskOf maskForKey (kcs ++ [kc]) = Masks.maskOf maskForKey kcs := by
      rw [hmods, hmask]
      exact BitVec.or_zero
    simp only [h.mods]
    rcases hfind : (overrides.filter fun o => o.inNonModOsc == kc).reverse.find?
        (fun o => o.applies (Masks.maskOf maskForKey kcs) activeLayer) with _ | o
    · have hnone : ∀ o, ¬Chosen overrides kcs activeLayer kc o := by
        intro o ho
        rw [← find_chosen, hfind] at ho
        cases ho
      simp only [hfind]
      exact ⟨h.mods.trans hzero.symm, by simpa [fires_concat, hnone] using h.remove,
        by simpa [fires_concat, hnone] using h.add⟩
    · have hchosen : ∀ o', Chosen overrides kcs activeLayer kc o' ↔ o' = o := by
        intro o'
        rw [← find_chosen, hfind, Option.some.injEq, eq_comm]
      simp only [hfind]
      refine ⟨hzero.symm, fun a => ?_, fun a => ?_⟩
      · rw [mem_pushNew, mem_foldl_pushNew, h.remove]
        simp [fires_concat, hchosen, or_and_right, exists_or, Override.inputs, or_assoc]
      · rw [mem_pushNew, mem_foldl_pushNew, h.add]
        simp [fires_concat, hchosen, or_and_right, exists_or, Override.outputs, or_assoc]
  · -- no override is for a modifier
    have hnone : ∀ o, ¬Chosen overrides kcs activeLayer kc o := by
      rintro o ⟨-, -, -, rfl, -, -⟩
      rw [o.inNonMod_mask] at hmask
      cases hmask
    refine ⟨?_, by simpa [fires_concat, hnone] using h.remove,
      by simpa [fires_concat, hnone] using h.add⟩
    rw [hmods, hmask, h.mods]
    rfl

theorem tells_after (overrides : List Override) (activeLayer : Nat) (kcs : List KeyCode) :
    Tells overrides activeLayer kcs (after overrides activeLayer kcs) := by
  induction kcs using List.reverseRecOn with
  | nil => exact ⟨rfl, by simp [after, new, fires_nil], by simp [after, new, fires_nil]⟩
  | append_singleton kcs kc ih =>
    rw [after_concat]
    exact ih.update kc

end OverrideStates

/-- What `override_keys` shows. -/
theorem overrideKeys_mem (overrides : List Override) (kcs : List KeyCode)
    (states : OverrideStates) (activeLayer : Nat) (a : KeyCode) :
    a ∈ (overrideKeys overrides kcs states activeLayer).1 ↔
      (a ∈ kcs ∧ ∀ o, Fires overrides kcs activeLayer o → a ∉ o.inputs) ∨
        ∃ o, Fires overrides kcs activeLayer o ∧ a ∈ o.outputs := by
  unfold overrideKeys
  split
  · rename_i hempty
    obtain rfl := List.isEmpty_iff.mp hempty
    have hnone : ∀ o, ¬Fires [] kcs activeLayer o := by
      rintro o ⟨before, kc, after, -, earlier, later, hsplit, -⟩
      cases earlier <;> cases hsplit
    simp [hnone]
  · have htells := OverrideStates.tells_after overrides activeLayer kcs
    change a ∈ (kcs.filter fun kc =>
      !(OverrideStates.after overrides activeLayer kcs).oscsToRemove.contains kc) ++
        (OverrideStates.after overrides activeLayer kcs).oscsToAdd ↔ _
    rw [List.mem_append, List.mem_filter, htells.add, Bool.not_eq_true',
      ← Bool.not_eq_true, List.contains_iff_mem, htells.remove]
    simp

end Kanata
