import Kanata.Engine.CurrentKeys
import Kanata.Lib.Countdown

/-!
# Kanata.Engine.CapsWord — how long caps-word lasts and what it shifts

While caps-word is active, a tick adds a shift before keys the last of which is to be
capitalized. Caps-word ends for good in the first tick that has a key that is in neither of its
lists, or that comes too long after the last tick with keys.

`capsWord_run` says this of every tick of a run.
-/

namespace Kanata

open Countdown Macro

/-- The key does not end caps-word. -/
def CapsWordCfg.allows (cfg : CapsWordCfg) (kc : KeyCode) : Bool :=
  cfg.keysToCapitalize.contains kc || cfg.keysNonterminal.contains kc

/-- The keys of a tick in which caps-word is active. -/
def CapsWordCfg.shifted (cfg : CapsWordCfg) (activeKeys : List KeyCode) : List KeyCode :=
  if (activeKeys.getLast?.map fun kc => cfg.keysToCapitalize.contains kc).getD false
  then lShift :: activeKeys else activeKeys

namespace Engine

/-- What caps-word makes of the keys of some ticks, and whether it is still active. -/
def capsWordTicks : Engine → List (List KeyCode) → List (List KeyCode × Bool)
  | _, [] => []
  | s, activeKeys :: inputs =>
    ((s.tickCapsWord activeKeys).2, (s.tickCapsWord activeKeys).1.capsWord.isSome) ::
      capsWordTicks (s.tickCapsWord activeKeys).1 inputs

/-- The state of caps-word with some ticks left. -/
def withTicks (s : Engine) (cfg : CapsWordCfg) (timeoutTicks : Nat) : Engine :=
  { s with capsWord := some { CapsWordState.new cfg with timeoutTicks } }

/-- Nothing in a tick ends caps-word. -/
def goesOn (cfg : CapsWordCfg) (timeoutTicks : Nat) (activeKeys : List KeyCode) : Bool :=
  decide (0 < timeoutTicks) && activeKeys.all cfg.allows

variable {s : Engine} {cfg : CapsWordCfg} {timeoutTicks : Nat} {activeKeys : List KeyCode}

theorem tickCapsWord_none (h : s.capsWord = none) :
    s.tickCapsWord activeKeys = (s, activeKeys) := by
  unfold tickCapsWord
  rw [h]

theorem shifted_isEmpty : (cfg.shifted activeKeys).isEmpty = activeKeys.isEmpty := by
  unfold CapsWordCfg.shifted
  split
  · rcases activeKeys with _ | ⟨k, ks⟩
    · rename_i h
      cases h
    · rfl
  · rfl

theorem any_terminal :
    (activeKeys.any fun kc =>
      !cfg.keysToCapitalize.contains kc && !cfg.keysNonterminal.contains kc) =
      !activeKeys.all cfg.allows := by
  rw [List.not_all_eq_any_not]
  congr 1
  funext kc
  rw [CapsWordCfg.allows, Bool.not_or]

/-- A tick with caps-word. -/
theorem tickCapsWord_withTicks :
    (s.withTicks cfg timeoutTicks).tickCapsWord activeKeys =
      if goesOn cfg timeoutTicks activeKeys then
        (s.withTicks cfg (next cfg.timeout timeoutTicks !activeKeys.isEmpty),
          cfg.shifted activeKeys)
      else ({ s with capsWord := none }, activeKeys) := by
  have hstate : CapsWordState.tickMaybeAddLsft { CapsWordState.new cfg with timeoutTicks }
      activeKeys =
      if timeoutTicks = 0 then
        ({ CapsWordState.new cfg with timeoutTicks }, activeKeys, .ended)
      else if activeKeys.all cfg.allows = false then
        ({ CapsWordState.new cfg with timeoutTicks }, activeKeys, .ended)
      else
        ({ CapsWordState.new cfg with
            timeoutTicks := (if (cfg.shifted activeKeys).isEmpty then timeoutTicks
              else cfg.timeout) - 1 }, cfg.shifted activeKeys, .active) := by
    unfold CapsWordState.tickMaybeAddLsft
    simp only [CapsWordState.new, any_terminal, Bool.not_eq_true', CapsWordCfg.shifted]
    rfl
  unfold tickCapsWord withTicks goesOn
  simp only [hstate]
  by_cases hzero : timeoutTicks = 0
  · rw [if_pos hzero, hzero]
    rfl
  rw [if_neg hzero]
  cases hall : activeKeys.all cfg.allows with
  | false => simp
  | true =>
    have hpos : 0 < timeoutTicks := Nat.pos_of_ne_zero hzero
    simp only [Bool.true_eq_false, if_false, hpos, decide_true, Bool.and_self, if_true,
      shifted_isEmpty, next, Prod.mk.injEq, and_true]
    cases activeKeys.isEmpty <;> rfl

/-- After caps-word the keys are left alone. -/
theorem capsWordTicks_none (h : s.capsWord = none) (inputs : List (List KeyCode)) :
    capsWordTicks s inputs = inputs.map fun activeKeys => (activeKeys, false) := by
  induction inputs with
  | nil => rfl
  | cons activeKeys inputs ih =>
    rw [capsWordTicks, tickCapsWord_none h, ih, List.map_cons, h]
    rfl

/-- Caps-word lasts through some ticks. -/
def Lasts (cfg : CapsWordCfg) (timeoutTicks : Nat) (inputs : List (List KeyCode)) : Prop :=
  (∀ activeKeys ∈ inputs, activeKeys.all cfg.allows = true) ∧
    Runs cfg.timeout timeoutTicks (inputs.map fun activeKeys => !activeKeys.isEmpty)

theorem lasts_cons {inputs : List (List KeyCode)} :
    Lasts cfg timeoutTicks (activeKeys :: inputs) ↔
      goesOn cfg timeoutTicks activeKeys = true ∧
        Lasts cfg (next cfg.timeout timeoutTicks !activeKeys.isEmpty) inputs := by
  unfold Lasts goesOn
  rw [List.forall_mem_cons, List.map_cons, Runs, Bool.and_eq_true, decide_eq_true_iff]
  constructor
  · rintro ⟨⟨h₁, h₂⟩, h₃, h₄⟩
    exact ⟨⟨h₃, h₁⟩, h₂, h₄⟩
  · rintro ⟨⟨h₃, h₁⟩, h₂, h₄⟩
    exact ⟨⟨h₁, h₂⟩, h₃, h₄⟩

/-- Each tick shows what it should, from any number of ticks that are left. -/
theorem capsWordTicks_withTicks (s : Engine) (cfg : CapsWordCfg) (timeoutTicks : Nat)
    {inputs : List (List KeyCode)} {j : Nat} (hj : inputs[j]? = some activeKeys) :
    ∃ shown active, (capsWordTicks (s.withTicks cfg timeoutTicks) inputs)[j]? =
        some (shown, active) ∧
      (active = true ↔ Lasts cfg timeoutTicks (inputs.take (j + 1))) ∧
      shown = if active then cfg.shifted activeKeys else activeKeys := by
  induction inputs generalizing timeoutTicks j with
  | nil => cases hj
  | cons first inputs ih =>
    rw [capsWordTicks, tickCapsWord_withTicks, List.take_succ_cons, lasts_cons]
    cases hgoes : goesOn cfg timeoutTicks first with
    | false =>
      rw [if_neg (by decide), capsWordTicks_none rfl]
      refine ⟨activeKeys, false, ?_, by simp, rfl⟩
      rcases j with _ | j
      · cases hj
        rfl
      · rw [List.getElem?_cons_succ] at hj ⊢
        rw [List.getElem?_map, hj]
        rfl
    | true =>
      rw [if_pos rfl]
      rcases j with _ | j
      · cases hj
        exact ⟨_, true, rfl, by simp [Lasts, Runs], rfl⟩
      · rcases ih (next cfg.timeout timeoutTicks !first.isEmpty) hj with
          ⟨shown, active, hget, hactive, hshown⟩
        exact ⟨shown, active, hget, by rw [hactive]; simp, hshown⟩

/-- A new caps-word is active in a tick if every tick so far had only keys of its lists and
came in time: less than the timeout after the start, or after a tick with keys. While it is
active a shift is put before keys the last of which is to be capitalized; after that nothing
is changed any more. -/
theorem capsWord_run (s : Engine) (cfg : CapsWordCfg) {inputs : List (List KeyCode)} {j : Nat}
    {activeKeys : List KeyCode} (hj : inputs[j]? = some activeKeys) :
    ∃ shown active,
      (capsWordTicks { s with capsWord := some (.new cfg) } inputs)[j]? = some (shown, active) ∧
      (active = true ↔ ∀ i keys, i ≤ j → inputs[i]? = some keys →
        (∀ kc ∈ keys, kc ∈ cfg.keysToCapitalize ∨ kc ∈ cfg.keysNonterminal) ∧
          (i < cfg.timeout ∨ ∃ m keys', m < i ∧ inputs[m]? = some keys' ∧ keys' ≠ [] ∧
            i - m < cfg.timeout)) ∧
      shown = if active then cfg.shifted activeKeys else activeKeys := by
  rcases capsWordTicks_withTicks s cfg cfg.timeout hj with ⟨shown, active, hget, hactive, hshown⟩
  refine ⟨shown, active, hget, ?_, hshown⟩
  have hlen := (List.getElem?_eq_some_iff.mp hj).1
  have hsteps : ∀ m, m < j + 1 →
      ((inputs.take (j + 1)).map fun keys => !keys.isEmpty)[m]? =
        inputs[m]?.map fun keys => !keys.isEmpty := by
    intro m hm
    rw [List.getElem?_map, List.getElem?_take_of_lt hm]
  have hfresh : ∀ i, i < j + 1 →
      (Fresh cfg.timeout cfg.timeout ((inputs.take (j + 1)).map fun keys => !keys.isEmpty) i ↔
        (i < cfg.timeout ∨ ∃ m keys', m < i ∧ inputs[m]? = some keys' ∧ keys' ≠ [] ∧
          i - m < cfg.timeout)) := by
    intro i hi
    refine or_congr Iff.rfl ⟨?_, ?_⟩
    · rintro ⟨m, hm, hget, hlt⟩
      rw [hsteps m (by omega)] at hget
      rcases Option.map_eq_some_iff.mp hget with ⟨keys', hkeys, hne⟩
      exact ⟨m, keys', hm, hkeys, by simpa using hne, hlt⟩
    · rintro ⟨m, keys', hm, hkeys, hne, hlt⟩
      refine ⟨m, hm, ?_, hlt⟩
      rw [hsteps m (by omega), hkeys]
      simpa using hne
  rw [hactive, Lasts, runs_iff (Nat.le_refl _), List.length_map, List.length_take,
    Nat.min_eq_left hlen]
  constructor
  · rintro ⟨hallowed, hruns⟩ i keys hi hkeys
    have hmem : keys ∈ inputs.take (j + 1) := by
      refine List.mem_of_getElem? (i := i) ?_
      rw [List.getElem?_take_of_lt (by omega), hkeys]
    refine ⟨?_, (hfresh i (by omega)).mp (hruns i (by omega))⟩
    simpa [CapsWordCfg.allows] using hallowed keys hmem
  · intro hall
    constructor
    · intro keys hmem
      rcases List.mem_iff_getElem?.mp hmem with ⟨i, hget⟩
      have hi : i < j + 1 := by
        have := (List.getElem?_eq_some_iff.mp hget).1
        rw [List.length_take] at this
        omega
      rw [List.getElem?_take_of_lt hi] at hget
      simpa [CapsWordCfg.allows] using (hall i keys (by omega) hget).1
    · intro i hi
      rw [hfresh i hi]
      have hget := List.getElem?_eq_getElem (show i < inputs.length by omega)
      exact (hall i _ (by omega) hget).2

/-- `capsWord_run` for two ticks without keys and then an `a`. -/
theorem capsWord_run_late :
    (capsWordTicks { new (.new 0) with
      capsWord := some (.new ⟨[keyA], [], 2, .overwrite⟩) } [[], [], [keyA]])[2]? =
        some ([keyA], false) := by
  rcases capsWord_run (new (.new 0)) ⟨[keyA], [], 2, .overwrite⟩
    (show [[], [], [keyA]][2]? = some [keyA] from rfl) with
    ⟨shown, active, hget, hactive, rfl⟩
  cases active with
  | false => exact hget
  | true =>
    rcases (hactive.mp rfl 2 _ (Nat.le_refl 2) rfl).2 with hlt | ⟨m, keys, hm, hkeys, hne, hlt⟩
    · exact absurd hlt (by decide)
    · exfalso
      rcases m with _ | _ | m
      · cases hkeys
        exact hne rfl
      · cases hkeys
        exact hne rfl
      · omega

end Engine

end Kanata
