import Kanata.Engine.KeyStream
import Kanata.Lib.Machine

/-!
# Kanata.Engine.Unmod — overlapping holds of `unmod` and `unshift`

The engine has one list of keys for all `unmod` actions and one for all `unshift`
actions, a release removes keys by their value, and each press of an `unmod` writes over
the modifiers of those before. A run is followed with the actions whose press was handed
over by the layout and whose release was not yet.

* `Composes`: what a press or a release must not do to the other held actions;
* `Tracks`: the lists of the engine are those of the held actions, kept by every such
  step (`tracks_earlyCustom`);
* `unmods_compose`: along a run of such steps, the keys of every tick are right.
-/

namespace Kanata

open Fallible Machine Macro

/-! ## Held actions -/

namespace CustomAction

/-- The keys that an `unmod` or `unshift` sends. -/
def outputs : CustomAction → List KeyCode
  | unmodded keys _ => keys
  | unshifted keys => keys
  | _ => []

/-- The modifiers that it suspends. -/
def suspends : CustomAction → List KeyCode
  | unmodded _ mods => mods.keys
  | unshifted _ => [lShift, rShift]
  | _ => []

def isUnmodded : CustomAction → Bool
  | unmodded _ _ => true
  | _ => false

def isUnshifted : CustomAction → Bool
  | unshifted _ => true
  | _ => false

end CustomAction

/-- The held actions after a custom event. -/
def holdCustom (custom : CustomEvent CustomAction) (held : List CustomAction) :
    List CustomAction :=
  match custom with
  | .press a => if a.isUnmodded || a.isUnshifted then held ++ [a] else held
  | .release a => held.erase a
  | .noEvent => held

/-- A shift that a held `unmod` sends is also sent by a held `unshift`, if there is one. -/
def ShiftsApart (held : List CustomAction) : Prop :=
  ∀ a ∈ held, a.isUnmodded → ∀ k ∈ a.outputs, k = lShift ∨ k = rShift →
    ∀ b ∈ held, b.isUnshifted → ∃ b' ∈ held, b'.isUnshifted ∧ k ∈ b'.outputs

/-- What a press or a release must not do to the other held actions: another `unmod` needs
its modifiers, and an action of the same kind needs its keys. -/
def LeavesOthers (held : List CustomAction) : CustomEvent CustomAction → Prop
  | .press a =>
    (a.isUnmodded ∨ a.isUnshifted → a.outputs ≠ []) ∧
      (a.isUnmodded → ∀ b ∈ held, b.isUnmodded → ∀ m ∈ b.suspends, m ∈ a.suspends)
  | .release a =>
    ∀ b ∈ held.erase a, a.isUnmodded = b.isUnmodded → ∀ k ∈ a.outputs, k ∉ b.outputs
  | .noEvent => True

/-- A custom event composes with the held actions. -/
def Composes (held : List CustomAction) (custom : CustomEvent CustomAction) : Prop :=
  ShiftsApart (holdCustom custom held) ∧ LeavesOthers held custom

instance (held : List CustomAction) : Decidable (ShiftsApart held) :=
  inferInstanceAs (Decidable (∀ a ∈ held, _))

instance (held : List CustomAction) : ∀ custom, Decidable (LeavesOthers held custom)
  | .press _ => inferInstanceAs (Decidable (_ ∧ _))
  | .release a => inferInstanceAs (Decidable (∀ b ∈ held.erase a, _))
  | .noEvent => .isTrue trivial

instance (held : List CustomAction) (custom : CustomEvent CustomAction) :
    Decidable (Composes held custom) :=
  inferInstanceAs (Decidable (_ ∧ _))

/-- The keys of a tick are what the held actions ask for. -/
structure UnmodsRight (held : List CustomAction) (layoutKeys curKeys : List KeyCode) : Prop where
  outputs : ∀ a ∈ held, ∀ k ∈ a.outputs, k ∈ curKeys
  suspended : ∀ a ∈ held, ∀ m ∈ a.suspends, m ∈ curKeys → ∃ b ∈ held, m ∈ b.outputs
  none_held : held = [] → curKeys = layoutKeys

namespace Engine

/-! ## The lists of the engine -/

/-- The lists of the engine are those of the held actions. -/
structure Tracks (held : List CustomAction) (s : Engine) : Prop where
  kinds : ∀ a ∈ held, a.isUnmodded ∨ a.isUnshifted
  outputs_ne : ∀ a ∈ held, a.outputs ≠ []
  unmodded : ∀ k, k ∈ s.unmoddedKeys ↔ ∃ a ∈ held, a.isUnmodded ∧ k ∈ a.outputs
  unshifted : ∀ k, k ∈ s.unshiftedKeys ↔ ∃ a ∈ held, a.isUnshifted ∧ k ∈ a.outputs
  mods : ∀ a ∈ held, a.isUnmodded → ∀ m ∈ a.suspends, m ∈ s.unmoddedMods.keys
  shifts : ShiftsApart held

theorem tracks_new (layout : Layout CustomAction) : Tracks [] (new layout) := by
  constructor <;> simp [new, ShiftsApart]

/-- The lists are all that is read. -/
theorem Tracks.congr {held : List CustomAction} {s s' : Engine} (h : Tracks held s)
    (hunmodded : s'.unmoddedKeys = s.unmoddedKeys) (hmods : s'.unmoddedMods = s.unmoddedMods)
    (hunshifted : s'.unshiftedKeys = s.unshiftedKeys) : Tracks held s' := by
  constructor
  · exact h.kinds
  · exact h.outputs_ne
  · rw [hunmodded]
    exact h.unmodded
  · rw [hunshifted]
    exact h.unshifted
  · rw [hmods]
    exact h.mods
  · exact h.shifts

/-- A press adds the keys of its action, and so does the list of held actions. -/
theorem mem_append_outputs {held : List CustomAction} {keys : List KeyCode} {a : CustomAction}
    {kind : CustomAction → Bool} (h : ∀ k, k ∈ keys ↔ ∃ b ∈ held, kind b ∧ k ∈ b.outputs)
    (ha : kind a = true) (k : KeyCode) :
    k ∈ keys ++ a.outputs ↔ ∃ b ∈ held ++ [a], kind b ∧ k ∈ b.outputs := by
  rw [List.mem_append, h]
  constructor
  · rintro (⟨b, hb, hkey⟩ | hk)
    · exact ⟨b, List.mem_append_left _ hb, hkey⟩
    · exact ⟨a, List.mem_append_right _ List.mem_cons_self, ha, hk⟩
  · rintro ⟨b, hb, hkey⟩
    rcases List.mem_append.mp hb with hb | hb
    · exact .inl ⟨b, hb, hkey⟩
    · rw [List.mem_singleton.mp hb] at hkey
      exact .inr hkey.2

/-- Another press adds nothing. -/
theorem exists_append_iff {held : List CustomAction} {a : CustomAction}
    {kind : CustomAction → Bool} (ha : kind a = false) (k : KeyCode) :
    (∃ b ∈ held ++ [a], kind b ∧ k ∈ b.outputs) ↔ ∃ b ∈ held, kind b ∧ k ∈ b.outputs := by
  constructor
  · rintro ⟨b, hb, hkey⟩
    rcases List.mem_append.mp hb with hb | hb
    · exact ⟨b, hb, hkey⟩
    · rw [List.mem_singleton.mp hb, ha] at hkey
      cases hkey.1
  · rintro ⟨b, hb, hkey⟩
    exact ⟨b, List.mem_append_left _ hb, hkey⟩

/-- A release removes the keys of its action, and leaves those of the others, which are
different. -/
theorem mem_filter_outputs {held : List CustomAction} {keys : List KeyCode} {a : CustomAction}
    {kind : CustomAction → Bool} (h : ∀ k, k ∈ keys ↔ ∃ b ∈ held, kind b ∧ k ∈ b.outputs)
    (hapart : ∀ b ∈ held.erase a, kind b → ∀ k ∈ a.outputs, k ∉ b.outputs) (k : KeyCode) :
    k ∈ keys.filter (fun k => !a.outputs.contains k) ↔
      ∃ b ∈ held.erase a, kind b ∧ k ∈ b.outputs := by
  rw [List.mem_filter, h]
  constructor
  · rintro ⟨⟨b, hb, hkind, hk⟩, hnot⟩
    have hne : b ≠ a := by
      rintro rfl
      simp [hk] at hnot
    exact ⟨b, (List.mem_erase_of_ne hne).mpr hb, hkind, hk⟩
  · rintro ⟨b, hb, hkind, hk⟩
    refine ⟨⟨b, List.mem_of_mem_erase hb, hkind, hk⟩, ?_⟩
    simpa using fun hka => hapart b hb hkind k hka hk

/-- Another release removes nothing. -/
theorem exists_erase_iff {held : List CustomAction} {a : CustomAction}
    {kind : CustomAction → Bool} (ha : kind a = false) (k : KeyCode) :
    (∃ b ∈ held.erase a, kind b ∧ k ∈ b.outputs) ↔ ∃ b ∈ held, kind b ∧ k ∈ b.outputs := by
  constructor
  · rintro ⟨b, hb, hkey⟩
    exact ⟨b, List.mem_of_mem_erase hb, hkey⟩
  · rintro ⟨b, hb, hkey⟩
    have hne : b ≠ a := by
      rintro rfl
      rw [ha] at hkey
      cases hkey.1
    exact ⟨b, (List.mem_erase_of_ne hne).mpr hb, hkey⟩

section Step

variable {held : List CustomAction} {s : Engine}

theorem Tracks.press (h : Tracks held s) {a : CustomAction}
    (hkind : a.isUnmodded ∨ a.isUnshifted) (hcomposes : Composes held (.press a)) :
    Tracks (held ++ [a]) (earlyCustom (.press a) s).1 := by
  rcases hcomposes with ⟨hshifts, hne, hmods⟩
  rw [holdCustom, if_pos (by simpa using hkind)] at hshifts
  have hall : ∀ {P : CustomAction → Prop}, (∀ b ∈ held, P b) → P a → ∀ b ∈ held ++ [a], P b := by
    intro P hold hnew b hb
    rcases List.mem_append.mp hb with hb | hb
    · exact hold b hb
    · rw [List.mem_singleton.mp hb]
      exact hnew
  have hkinds := hall h.kinds hkind
  have houtputs := hall h.outputs_ne (hne hkind)
  cases a with
  | unmodded keys mods =>
    constructor
    · exact hkinds
    · exact houtputs
    · exact mem_append_outputs (a := .unmodded keys mods) h.unmodded rfl
    · intro k
      rw [exists_append_iff rfl]
      exact h.unshifted k
    · -- the modifiers are written over by a list that has them all
      exact hall (fun b hb hu => hmods rfl b hb hu) fun _ m hm => hm
    · exact hshifts
  | unshifted keys =>
    constructor
    · exact hkinds
    · exact houtputs
    · intro k
      rw [exists_append_iff rfl]
      exact h.unmodded k
    · exact mem_append_outputs (a := .unshifted keys) h.unshifted rfl
    · exact hall h.mods (by rintro ⟨⟩)
    · exact hshifts
  | _ => simp [CustomAction.isUnmodded, CustomAction.isUnshifted] at hkind

theorem Tracks.release (h : Tracks held s) {a : CustomAction}
    (hcomposes : Composes held (.release a)) :
    Tracks (held.erase a) (earlyCustom (.release a) s).1 := by
  rcases hcomposes with ⟨hshifts, hapart⟩
  have hall : ∀ {P : CustomAction → Prop}, (∀ b ∈ held, P b) → ∀ b ∈ held.erase a, P b :=
    fun hold b hb => hold b (List.mem_of_mem_erase hb)
  have hkinds := hall h.kinds
  have houtputs := hall h.outputs_ne
  have hmods := hall h.mods
  -- a list of another kind than the action stays as it is
  have hother : ∀ {kind : CustomAction → Bool} {keys : List KeyCode}, kind a = false →
      (∀ k, k ∈ keys ↔ ∃ b ∈ held, kind b ∧ k ∈ b.outputs) →
      ∀ k, k ∈ keys ↔ ∃ b ∈ held.erase a, kind b ∧ k ∈ b.outputs := by
    intro kind keys hkind hkeys k
    rw [exists_erase_iff hkind]
    exact hkeys k
  cases a with
  | unmodded keys mods =>
    constructor
    · exact hkinds
    · exact houtputs
    · refine mem_filter_outputs (a := .unmodded keys mods) h.unmodded ?_
      exact fun b hb hu => hapart b hb hu.symm
    · exact hother rfl h.unshifted
    · exact hmods
    · exact hshifts
  | unshifted keys =>
    constructor
    · exact hkinds
    · exact houtputs
    · exact hother rfl h.unmodded
    · refine mem_filter_outputs (a := .unshifted keys) h.unshifted ?_
      intro b hb hu
      refine hapart b hb ?_
      cases b <;> first | rfl | cases hu
    · exact hmods
    · exact hshifts
  | _ =>
    exact ⟨hkinds, houtputs, hother rfl h.unmodded, hother rfl h.unshifted, hmods, hshifts⟩

/-- A custom event that composes with the held actions keeps the lists theirs. -/
theorem tracks_earlyCustom (h : Tracks held s) {custom : CustomEvent CustomAction}
    (hcomposes : Composes held custom) :
    Tracks (holdCustom custom held) (earlyCustom custom s).1 := by
  cases custom with
  | noEvent => exact h
  | release a => exact h.release hcomposes
  | press a =>
    by_cases hkind : a.isUnmodded ∨ a.isUnshifted
    · rw [holdCustom, if_pos (by simpa using hkind)]
      exact h.press hkind hcomposes
    · rw [holdCustom, if_neg (by simpa using hkind)]
      cases a with
      | unmodded keys mods => exact absurd (.inl rfl) hkind
      | unshifted keys => exact absurd (.inr rfl) hkind
      | _ => exact h

end Step

/-! ## The keys of a tick -/

theorem mem_retain_mods (mods curKeys : List KeyCode) (k : KeyCode) :
    k ∈ mods.foldl (fun ks kc => ks.filter fun k => k != kc) curKeys ↔ k ∈ curKeys ∧ k ∉ mods := by
  induction mods generalizing curKeys with
  | nil => simp
  | cons m mods ih =>
    rw [List.foldl_cons, ih, List.mem_filter]
    simp [and_assoc]

theorem mem_unmodKeys (s : Engine) (curKeys : List KeyCode) (k : KeyCode) :
    k ∈ s.unmodKeys curKeys ↔ k ∈ s.unshiftedKeys ∨
      (s.unshiftedKeys = [] ∨ k ≠ lShift ∧ k ≠ rShift) ∧
        (k ∈ s.unmoddedKeys ∨ k ∈ curKeys ∧ (s.unmoddedKeys = [] ∨ k ∉ s.unmoddedMods.keys)) := by
  have hunmod : ∀ ks, ks = (if s.unmoddedKeys.isEmpty then curKeys
      else s.unmoddedMods.keys.foldl (fun ks kc => ks.filter fun k => k != kc) curKeys
        ++ s.unmoddedKeys) →
      (k ∈ ks ↔ k ∈ s.unmoddedKeys ∨
        k ∈ curKeys ∧ (s.unmoddedKeys = [] ∨ k ∉ s.unmoddedMods.keys)) := by
    rintro ks rfl
    split
    · next hempty => simp [List.isEmpty_iff.mp hempty]
    · next hempty =>
      rw [List.isEmpty_iff] at hempty
      rw [List.mem_append, mem_retain_mods]
      simp [hempty, or_comm]
  unfold unmodKeys
  simp only
  split
  · next hempty =>
    rw [hunmod _ rfl]
    simp [List.isEmpty_iff.mp hempty]
  · next hempty =>
    rw [List.isEmpty_iff] at hempty
    rw [List.mem_append, List.mem_filter, hunmod _ rfl]
    simp only [hempty, false_or, Bool.and_eq_true, bne_iff_ne]
    tauto

/-- When the lists are those of the held actions, the keys are right. -/
theorem Tracks.unmodsRight {held : List CustomAction} {s : Engine} (h : Tracks held s)
    (layoutKeys : List KeyCode) : UnmodsRight held layoutKeys (s.unmodKeys layoutKeys) := by
  have hunmodded_ne : ∀ a ∈ held, a.isUnmodded → s.unmoddedKeys ≠ [] := by
    intro a ha hu
    rcases List.exists_mem_of_ne_nil _ (h.outputs_ne a ha) with ⟨k, hk⟩
    exact List.ne_nil_of_mem ((h.unmodded k).mpr ⟨a, ha, hu, hk⟩)
  have hunshifted_ne : ∀ a ∈ held, a.isUnshifted → s.unshiftedKeys ≠ [] := by
    intro a ha hu
    rcases List.exists_mem_of_ne_nil _ (h.outputs_ne a ha) with ⟨k, hk⟩
    exact List.ne_nil_of_mem ((h.unshifted k).mpr ⟨a, ha, hu, hk⟩)
  constructor
  · intro a ha k hk
    rw [mem_unmodKeys]
    rcases h.kinds a ha with hu | hu
    · have hmem : k ∈ s.unmoddedKeys := (h.unmodded k).mpr ⟨a, ha, hu, hk⟩
      by_cases hshift : k = lShift ∨ k = rShift
      · -- a shift of an unmod is only left if no unshift is held, or one sends it
        rcases hkeys : s.unshiftedKeys with _ | ⟨k', ks⟩
        · exact .inr ⟨.inl rfl, .inl hmem⟩
        · have hfirst : k' ∈ s.unshiftedKeys := by
            rw [hkeys]
            exact List.mem_cons_self
          rcases (h.unshifted k').mp hfirst with ⟨b, hb, hub, -⟩
          rcases h.shifts a ha hu k hk hshift b hb hub with ⟨b', hb', hub', hk'⟩
          rw [← hkeys]
          exact .inl ((h.unshifted k).mpr ⟨b', hb', hub', hk'⟩)
      · exact .inr ⟨.inr (not_or.mp hshift), .inl hmem⟩
    · exact .inl ((h.unshifted k).mpr ⟨a, ha, hu, hk⟩)
  · intro a ha m hm hmem
    rw [mem_unmodKeys] at hmem
    rcases hmem with hmem | ⟨hshift, hmem | ⟨-, hmods⟩⟩
    · rcases (h.unshifted m).mp hmem with ⟨b, hb, -, hout⟩
      exact ⟨b, hb, hout⟩
    · rcases (h.unmodded m).mp hmem with ⟨b, hb, -, hout⟩
      exact ⟨b, hb, hout⟩
    · -- a key of the layout that is left is not suspended
      rcases h.kinds a ha with hu | hu
      · rcases hmods with hempty | hnot
        · exact absurd hempty (hunmodded_ne a ha hu)
        · exact absurd (h.mods a ha hu m hm) hnot
      · rcases hshift with hempty | hnot
        · exact absurd hempty (hunshifted_ne a ha hu)
        · cases a with
          | unshifted keys => simp [CustomAction.suspends, hnot.1, hnot.2] at hm
          | _ => cases hu
  · rintro rfl
    have hunmodded : s.unmoddedKeys = [] :=
      List.eq_nil_iff_forall_not_mem.mpr fun k hk => by simpa using (h.unmodded k).mp hk
    have hunshifted : s.unshiftedKeys = [] :=
      List.eq_nil_iff_forall_not_mem.mpr fun k hk => by simpa using (h.unshifted k).mp hk
    rw [unmodKeys, hunmodded, hunshifted]
    rfl

/-! ## Runs -/

/-- What is seen at a tick: the actions held from then on, the keys of the layout, and the
keys before the overrides and caps-word. -/
structure UnmodTick where
  held : List CustomAction
  layoutKeys : List KeyCode
  curKeys : List KeyCode
deriving DecidableEq, Repr

section Runs

variable {C R : Nat} (cfg : LayoutConfig C R CustomAction) (kcfg : KeyConfig)

/-- A step of the engine, with the held actions followed. -/
def unmodTick (s : Engine × List CustomAction) (between : Between) :
    Rust ((Engine × List CustomAction) × UnmodTick) := do
  let before := between.before s.1
  let (layout, custom) ← before.layout.tick cfg
  let (after, _) ← step cfg kcfg s.1 between
  let held := holdCustom custom s.2
  let curKeys := (earlyCustom custom { before with layout }).1.unmodKeys layout.keycodes
  pure ((after, held), ⟨held, layout.keycodes, curKeys⟩)

/-- The custom event that the layout hands over in a tick composes with the held actions. -/
def ComposesNext (s : Engine × List CustomAction) (between : Between) : Prop :=
  match (between.before s.1).layout.tick cfg with
  | .ok (_, custom) => Composes s.2 custom
  | .error _ => True

instance (s : Engine × List CustomAction) (between : Between) :
    Decidable (ComposesNext cfg s between) :=
  show Decidable (match (between.before s.1).layout.tick cfg with
      | .ok (_, custom) => Composes s.2 custom
      | .error _ => True) from
    match (between.before s.1).layout.tick cfg with
    | .ok (_, custom) => inferInstanceAs (Decidable (Composes s.2 custom))
    | .error _ => .isTrue trivial

variable {cfg kcfg}

/-- One tick: the lists stay those of the held actions, and the keys are right. -/
theorem unmodTick_right {s s' : Engine × List CustomAction} {between : Between} {t : UnmodTick}
    (h : Tracks s.2 s.1) (hcomposes : ComposesNext cfg s between)
    (htick : unmodTick cfg kcfg s between = .ok (s', t)) :
    Tracks s'.2 s'.1 ∧ UnmodsRight t.held t.layoutKeys t.curKeys := by
  unfold unmodTick at htick
  simp only [bind_eq_ok, pure_eq_ok, Prod.mk.injEq] at htick
  rcases htick with ⟨⟨layout, custom⟩, hlayout, ⟨after, t'⟩, hstates, rfl, rfl⟩
  unfold ComposesNext at hcomposes
  rw [hlayout] at hcomposes
  have hbefore : Tracks s.2 { between.before s.1 with layout } := h.congr rfl rfl rfl
  have hearly := tracks_earlyCustom hbefore hcomposes
  refine ⟨?_, hearly.unmodsRight layout.keycodes⟩
  -- the rest of the tick leaves the lists alone
  rcases tickStates_cases hstates with ⟨layout', custom', hlayout', -, hsame⟩
  have heq := Except.ok.inj (hlayout.symm.trans hlayout')
  rw [Prod.mk.injEq] at heq
  rcases heq with ⟨rfl, rfl⟩
  exact hearly.congr hsame.unmoddedKeys hsame.unmoddedMods hsame.unshiftedKeys

/-- In a run where each press and each release leaves the other held actions what they
need, the keys of every tick are what the held actions ask for. -/
theorem unmods_compose (layout : Layout CustomAction)
    {betweens : List Between} {s : Engine × List CustomAction} {ts : List UnmodTick}
    (h : run (unmodTick cfg kcfg) (new layout, []) betweens = .ok (s, ts))
    (hcomposes : Along (unmodTick cfg kcfg) (ComposesNext cfg) (new layout, []) betweens) :
    ∀ t ∈ ts, UnmodsRight t.held t.layoutKeys t.curKeys := by
  have hrun := @run_history _ _ _ _ (unmodTick cfg kcfg) (ComposesNext cfg)
    (fun done s => Tracks s.2 s.1 ∧ ∀ t ∈ done, UnmodsRight t.held t.layoutKeys t.curKeys)
    (fun done s between s' t hinv hcomposes hstep => by
      rcases unmodTick_right hinv.1 hcomposes hstep with ⟨htracks, hright⟩
      refine ⟨htracks, ?_⟩
      intro t' ht'
      rcases List.mem_append.mp ht' with ht' | ht'
      · exact hinv.2 t' ht'
      · rw [List.mem_singleton.mp ht']
        exact hright)
    betweens [] (new layout, []) s ts ⟨tracks_new layout, by simp⟩ hcomposes h
  exact hrun.2

end Runs

/-! ## Two actions that share a key -/

/-- Two keys with an action each. -/
def twoKeys (first second : Action CustomAction) : LayoutConfig 2 1 CustomAction where
  srcKeys _ := .noOp
  layers := [fun _ column => if column = 0 then first else second]
  transResolutionBehaviorV2 := true
  delegateToFirstLayer := false
  quickTapHoldTimeout := false
  tapHoldRequirePriorIdle := 0
  chordsV2 := none
  callbacks _ _ := false
  overflowChecks := true
  stackDepth := 10

/-- Both keys are pressed and the first one is released. -/
def overlap (cfg : LayoutConfig 2 1 CustomAction) : List Between :=
  [input cfg (.press 0 0), input cfg (.press 0 1), input cfg (.release 0 0)]

/-- `(unmod a)` and `(unshift b)`. -/
def apart : LayoutConfig 2 1 CustomAction :=
  twoKeys (.custom (.unmodded [keyA] ⟨255⟩)) (.custom (.unshifted [keyB]))

/-- `(unshift a b)` and `(unshift a)`. -/
def shared : LayoutConfig 2 1 CustomAction :=
  twoKeys (.custom (.unshifted [keyA, keyB])) (.custom (.unshifted [keyA]))

theorem unmods_compose_apart :
    ∃ s ts, run (unmodTick apart noOverrides) (new (.new 0), []) (overlap apart) = .ok (s, ts) ∧
      ts.length = 3 ∧ ∀ t ∈ ts, UnmodsRight t.held t.layoutKeys t.curKeys := by
  have hends : endsWith (unmodTick apart noOverrides) (fun _ ts => ts.length == 3)
      (new (.new 0), []) (overlap apart) = true := by decide +kernel
  rcases of_endsWith hends with ⟨s, ts, hrun, hlength⟩
  exact ⟨s, ts, hrun, eq_of_beq hlength, unmods_compose (.new 0) hrun (by decide +kernel)⟩

/-- With the first action the key of the second one goes, too. -/
theorem unmods_compose_fails :
    ∃ s ts, run (unmodTick shared noOverrides) (new (.new 0), []) (overlap shared) = .ok (s, ts) ∧
      ∃ t ∈ ts, t.held = [.unshifted [keyA]] ∧ t.curKeys = [] ∧
        ¬UnmodsRight t.held t.layoutKeys t.curKeys := by
  have hends : endsWith (unmodTick shared noOverrides)
      (fun _ ts => ts.getLast? == some ⟨[.unshifted [keyA]], [], []⟩)
      (new (.new 0), []) (overlap shared) = true := by decide +kernel
  rcases of_endsWith hends with ⟨s, ts, hrun, hlast⟩
  refine ⟨s, ts, hrun, _, List.mem_of_getLast? (eq_of_beq hlast), rfl, rfl, ?_⟩
  intro hright
  have hmem := hright.outputs (.unshifted [keyA]) List.mem_cons_self keyA List.mem_cons_self
  cases hmem

end Engine

end Kanata
