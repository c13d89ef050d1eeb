import Kanata.Layout.Layers

/-!
# Kanata.Layout.InRange — where keys are looked up

A transparent action and `use-defsrc` are looked up by their coordinate. Chords v2
perform their actions at coordinates past the table, so nothing of that kind may be
inside them. The parser refuses `_` there, but neither an alias for it, nor
`use-defsrc`, nor `rpt-any`, which may repeat such an action
(`lookups_in_range_fails`). Without these no run looks up a key that is not in the
table.
-/

namespace Kanata

open Fallible Machine

variable {C R : Nat} {T : Type}

/-! ## The condition -/

/-- The action is not looked up by its coordinate. -/
def Action.Grounded (a : Action T) : Prop := a ≠ .trans ∧ a ≠ .src

/-- If `rpt` can repeat the action, no action inside is looked up. -/
def Action.RepeatsGrounded (a : Action T) : Prop := a.isRemembered = true → a.Every Action.Grounded

/-- What the parser promises: layer actions name layers, and the keys of chord
groups are in the table. -/
structure Action.WellPlaced (cfg : LayoutConfig C R T) (a : Action T) : Prop where
  layer : a.NamesLayer cfg
  chords : ∀ group, a = .chords group → ∀ key ∈ group.coords, cfg.InTable key.1

namespace LayoutConfig

/-- `rpt` is somewhere inside an action of chords v2. -/
def ChordsRepeat (cfg : LayoutConfig C R T) : Prop :=
  ∃ chords key possible chord, cfg.chordsV2 = some chords ∧
    chords.chords.mapping key = some possible ∧ chord ∈ possible ∧
    ¬ chord.action.Every (· ≠ .repeat)

/-- No action inside those of chords v2 is looked up, and `rpt` there repeats none
that is. -/
structure ChordsGrounded (cfg : LayoutConfig C R T) : Prop where
  grounded : ∀ {chords key possible}, cfg.chordsV2 = some chords →
    chords.chords.mapping key = some possible →
    ∀ chord ∈ possible, chord.action.Every Action.Grounded
  repeats : cfg.ChordsRepeat → cfg.Every Action.RepeatsGrounded

/-- What holds of every configured action wherever it is performed. -/
def Suits (cfg : LayoutConfig C R T) (a : Action T) : Prop :=
  a.WellPlaced cfg ∧ (cfg.ChordsRepeat → a.RepeatsGrounded)

/-- What holds besides past the table. -/
def SuitsOutside (cfg : LayoutConfig C R T) (a : Action T) : Prop :=
  a.Grounded ∧ (a = .repeat → cfg.ChordsRepeat)

end LayoutConfig

/-- The action may be performed at the coordinate. -/
structure Action.MayPerformAt (cfg : LayoutConfig C R T) (a : Action T) (c : KCoord) : Prop where
  suits : a.Every cfg.Suits
  outside : ¬ cfg.InTable c → a.Every cfg.SuitsOutside

/-- The action may be remembered. -/
structure Action.MayRepeat (cfg : LayoutConfig C R T) (a : Action T) : Prop where
  suits : a.Every cfg.Suits
  grounded : cfg.ChordsRepeat → a.Every Action.Grounded

section Placed

variable {cfg : LayoutConfig C R T} {a b : Action T} {c c' : KCoord}

theorem grounded_suits (h : a.Every (Action.WellPlaced cfg)) (hground : a.Every Action.Grounded) :
    a.Every cfg.Suits := by
  refine (h.and hground.nested).mono ?_
  rintro b ⟨hplaced, hgrounded⟩
  exact ⟨hplaced, fun _ _ => hgrounded⟩

theorem Action.MayPerformAt.inside (h : a.MayPerformAt cfg c) (hb : b ∈ a.children) :
    b.MayPerformAt cfg c where
  suits := h.suits.inside b hb
  outside hc := (h.outside hc).inside b hb

/-- In the table it does not matter where. -/
theorem Action.MayPerformAt.inTable (h : a.MayPerformAt cfg c) (hc' : cfg.InTable c') :
    a.MayPerformAt cfg c' where
  suits := h.suits
  outside hout := absurd hc' hout

/-- An action that is looked up is performed in the table. -/
theorem Action.MayPerformAt.lookedUp (h : a.MayPerformAt cfg c) (ha : ¬ a.Grounded) :
    cfg.InTable c := by
  by_contra hout
  exact ha (h.outside hout).here.1

/-- The parser promises nothing of other actions. -/
theorem wellPlaced_of_ne (hlayer : ∀ v, a ≠ .layer v) (hchords : ∀ group, a ≠ .chords group) :
    a.WellPlaced cfg where
  layer v hv := absurd hv (hlayer v)
  chords group hgroup := absurd hgroup (hchords group)

theorem suits_leaf (hlayer : ∀ v, a ≠ .layer v) (hchords : ∀ group, a ≠ .chords group)
    (hgrounded : a.isRemembered = true → a.Grounded) (hleaf : a.children = []) : cfg.Suits a := by
  refine ⟨wellPlaced_of_ne hlayer hchords, ?_⟩
  intro _ hremembered
  exact .leaf (hgrounded hremembered) hleaf

theorem uniform_suits (hlayers : 0 < cfg.layers.length)
    (hplaced : cfg.Every (Action.WellPlaced cfg))
    (hchords : cfg.ChordsGrounded) : Uniform cfg cfg.Suits (· < cfg.layers.length) where
  config :=
    { layers := by
        intro rows hrows i j
        by_cases hrepeat : cfg.ChordsRepeat
        · have hboth := (hplaced.layers rows hrows i j).and
            ((hchords.repeats hrepeat).layers rows hrows i j)
          exact hboth.mono fun b hb => ⟨hb.1, fun _ => hb.2⟩
        · exact (hplaced.layers rows hrows i j).mono fun b hb => ⟨hb, fun h => absurd h hrepeat⟩
      chordsV2 := by
        intro chords key possible hcfg hkey chord hchord
        exact grounded_suits (hplaced.chordsV2 hcfg hkey chord hchord)
          (hchords.grounded hcfg hkey chord hchord) }
  noOp := suits_leaf (by simp) (by simp) (by simp [Action.Grounded]) rfl
  trans := suits_leaf (by simp) (by simp) (by simp [Action.isRemembered]) rfl
  keyCode kc := suits_leaf (by simp) (by simp) (by simp [Action.Grounded]) rfl
  multiKeyBuffer := suits_leaf (by simp) (by simp) (by simp [Action.Grounded]) rfl
  layersZero := hlayers
  layer h := Nat.lt_of_le_of_lt (Nat.mod_le _ _) (h.1.layer _ rfl)
  defaultLayer h := Nat.lt_of_le_of_lt (Nat.mod_le _ _) h

/-- The discipline of actions that are looked up in the table only. -/
def Discipline.inRange (horigin : cfg.InTable (0, 0)) (hlayers : 0 < cfg.layers.length)
    (hplaced : cfg.Every (Action.WellPlaced cfg)) (hchords : cfg.ChordsGrounded) :
    Discipline cfg fun p => ¬ p.IsLookup :=
  have hsuits := uniform_suits hlayers hplaced hchords
  { otherPanics := fun _ hp => hp
    performs := fun a c => a.MayPerformAt cfg c
    repeats := fun a => a.MayRepeat cfg
    presses := fun c => cfg.InTable c
    layers := fun l => l < cfg.layers.length
    resolves := fun _ => True
    resolves_hold := trivial
    layers_zero := hlayers
    layer := fun ha => hsuits.layer ha.suits.here
    defaultLayer := fun hv => hsuits.defaultLayer hv
    press := fun hc => ⟨.leaf hsuits.trans rfl, fun hout => absurd hc hout⟩
    triggers := horigin
    remember := fun ha hremembered => ⟨ha.suits, fun hrepeat => ha.suits.here.2 hrepeat hremembered⟩
    repeatKeys := ⟨.leaf hsuits.multiKeyBuffer rfl, fun _ => .leaf (by simp [Action.Grounded]) rfl⟩
    rpt := by
      intro a c hrpt ha
      refine ⟨ha.suits, ?_⟩
      intro hout
      have hrepeat : cfg.ChordsRepeat := (hrpt.outside hout).here.2 rfl
      exact (ha.grounded hrepeat).mono fun b hb => ⟨hb, fun _ => hrepeat⟩
    trans := by
      intro call hcall hstack
      have hc : cfg.InTable call.coord := hcall.lookedUp fun h => h.1 rfl
      rcases resolveLayers_eq hc hstack with ⟨rest, hresolved⟩
      rw [← resolveCoord_eq hc hlayers] at hresolved
      have hfound := hsuits.resolveCoord hstack hresolved
      rw [hresolved]
      exact ⟨⟨hfound.1, fun hout => absurd hc hout⟩, hfound.2⟩
    src := by
      intro c hsrc
      have hc : cfg.InTable c := hsrc.lookedUp fun h => h.2 rfl
      rcases srcKey_of_inTable hc with ⟨a, ha⟩
      rw [ha]
      exact ⟨hsuits.srcKey ha, fun hout => absurd hc hout⟩
    holdTap := fun ha =>
      ⟨ha.inside (by simp [Action.children]), ha.inside (by simp [Action.children]),
      ha.inside (by simp [Action.children])⟩
    oneShot := fun ha => ha.inside (by simp [Action.children])
    tapDance := fun ha _ hb => ha.inside hb
    tapDanceEager := fun ha hc _ hb => (ha.inside hb).inTable hc
    chords := by
      intro group c c' ha hc' key hkey
      have hinside : key.2.MayPerformAt cfg c := ha.inside (List.mem_map_of_mem hkey)
      rcases hc' with rfl | hc'
      · exact hinside
      · rcases List.mem_map.mp hc' with ⟨member, hmember, rfl⟩
        exact hinside.inTable (ha.suits.here.1.chords group rfl member hmember)
    multipleActions := fun ha _ hb => ha.inside hb
    fork := fun ha => ⟨ha.inside (by simp [Action.children]), ha.inside (by simp [Action.children])⟩
    switch := fun ha _ hcase => ha.inside (List.mem_map_of_mem hcase)
    noOp := fun c =>
      ⟨.leaf hsuits.noOp rfl, fun _ => .leaf ⟨by simp [Action.Grounded], by simp⟩ rfl⟩
    chordsV2 := by
      intro chords key possible hcfg hkey chord hchord coord _
      refine ⟨hsuits.config.chordsV2 hcfg hkey chord hchord, ?_⟩
      intro _
      have hground := hchords.grounded hcfg hkey chord hchord
      by_cases hnone : chord.action.Every (· ≠ .repeat)
      · exact (hground.and hnone).mono fun b hb => ⟨hb.1, fun h => absurd h hb.2⟩
      · have hrepeat : cfg.ChordsRepeat := ⟨chords, key, possible, chord, hcfg, hkey, hchord, hnone⟩
        exact hground.mono fun b hb => ⟨hb, fun _ => hrepeat⟩ }

end Placed

/-! ## What a run performs -/

section Performed

variable {cfg : LayoutConfig C R T} {E : Panic → Prop} {D : Discipline cfg E} {s s' : Layout T}
  {e : CustomEvent T} {a : Action T} {c : KCoord} {f : Found T}

theorem About.not_performed {topic : Topic} {os : List (Occurrence T)} (h : About topic os)
    (hne : topic ≠ .performing) : .performed a c f ∉ os :=
  fun hmem => hne (h _ hmem).symm

theorem discard_performed (h : .performed a c f ∈ (s.discard e).trace) :
    .performed a c f ∈ s.trace := by
  rw [Layout.discard_trace] at h
  rcases List.mem_append.mp h with h | h
  · exact h
  · cases e <;> simp [Layout.discardNotes] at h

theorem Performs.performed (hperforms : Performs D s s' e) (h : .performed a c f ∈ s'.trace) :
    .performed a c f ∈ s.trace ∨ D.performs a c := by
  induction hperforms with
  | refl s => exact .inl h
  | @update s u hu =>
    rw [u.apply_trace] at h
    rcases List.mem_append.mp h with h | h
    · exact .inl h
    · by_cases hperform : u.topic = .performing
      · cases u with
        | perform action coord =>
          simp only [Update.notes, List.mem_singleton, Occurrence.performed.injEq] at h
          rw [h.1, h.2.1]
          exact .inr hu.1
        | finish call => simp [Update.notes] at h
        | _ => cases hperform
      · exact absurd h ((u.notes_about s).not_performed hperform)
  | custom s value coord =>
    rw [pushCustom_trace] at h
    rcases List.mem_append.mp h with h | h
    · exact .inl h
    · split at h <;> simp at h
  | release hrelease =>
    rcases dequeueRelease_trace hrelease with ⟨removed, htrace⟩
    rw [htrace] at h
    rcases List.mem_append.mp h with h | h
    · exact .inl h
    · simp at h
  | merge h₁ h₂ ih₁ ih₂ =>
    rcases ih₂ (discard_performed h) with h | h
    · exact ih₁ h
    · exact .inr h
  | discard hperforms ih => exact ih (discard_performed h)

/-- Every action that a step performs is one that the discipline allows there. -/
theorem Advances.performed (hadvances : Advances D s s' e) (h : .performed a c f ∈ s'.trace) :
    .performed a c f ∈ s.trace ∨ D.performs a c := by
  induction hadvances with
  | performs hperforms => exact hperforms.performed h
  | @pass s u hu =>
    rw [u.apply_trace] at h
    rcases List.mem_append.mp h with h | h
    · exact .inl h
    · have hne : u.topic ≠ .performing := by cases u <;> simp [Passing.topic]
      exact absurd h ((u.notes_about s).not_performed hne)
  | @takes s s' e qa count hqa hact hperforms =>
    rcases hperforms.performed h with h | h
    · rw [Layout.takeAction_trace] at h
      rcases List.mem_append.mp h with h | h
      · exact .inl h
      · simp at h
    · exact .inr h
  | merge h₁ h₂ ih₁ ih₂ =>
    rcases ih₂ (discard_performed h) with h | h
    · exact ih₁ h
    · exact .inr h

end Performed

/-! ## Runs -/

/-- The input presses no key past the table. -/
def LayoutOp.PressesInTable (cfg : LayoutConfig C R T) : LayoutOp → Prop
  | .event (.press i j) => cfg.InTable (i, j)
  | .eventToFront (.press i j) => cfg.InTable (i, j)
  | _ => True

/-- In every run that presses keys of the table, of a configuration whose chords v2
need no lookup, no key is looked up where there is none. -/
theorem lookups_in_range (cfg : LayoutConfig C R T) (horigin : cfg.InTable (0, 0))
    (hlayers : 0 < cfg.layers.length) (hplaced : cfg.Every (Action.WellPlaced cfg))
    (hchords : cfg.ChordsGrounded) (delay : Nat) (ops : List LayoutOp)
    (hpresses : ∀ op ∈ ops, op.PressesInTable cfg) :
    (∀ p, run (Layout.step cfg) (.new delay) ops = .error p → ¬ p.IsLookup) ∧
      ∀ s os, run (Layout.step cfg) (.new delay) ops = .ok (s, os) →
        ∀ c f, .performed .src c f ∈ s.trace → cfg.InTable c := by
  let D := Discipline.inRange horigin hlayers hplaced hchords
  have hstep : ∀ (s : Layout T) (op : LayoutOp),
      (s.Obeys D ∧ ∀ c f, .performed .src c f ∈ s.trace → cfg.InTable c) → op.PressesInTable cfg →
      Ensures (s.step cfg op)
        (fun r => r.1.Obeys D ∧ ∀ c f, .performed .src c f ∈ r.1.trace → cfg.InTable c)
        fun p => ¬ p.IsLookup := by
    rintro s op ⟨hs, hsrc⟩ hop
    have hobeys : op.Obeys D := by
      cases op with
      | event event => cases event <;> exact hop
      | eventToFront event =>
        cases event with
        | press i j => exact ⟨hop, trivial⟩
        | release i j => trivial
      | _ => trivial
    refine (step_advances (fun _ => trivial) hs hobeys).mono ?_ fun _ hp => hp
    intro r hadvances
    refine ⟨hadvances.obeys hs, ?_⟩
    intro c f hmem
    rcases hadvances.performed hmem with hmem | hperforms
    · exact hsrc c f hmem
    · exact hperforms.lookedUp fun h => h.2 rfl
  have halong : Along (Layout.step cfg) (fun _ op => op.PressesInTable cfg) (.new delay) ops :=
    along_of_forall hpresses _
  have hrun := run_ensures hstep ⟨new_obeys D delay, by simp [Layout.new]⟩ halong
  exact ⟨fun p hp => hrun.of_error hp, fun s os hok => (hrun.of_ok hok).2⟩

/-! ## Lookups that fail -/

/-- One layer of two rows and 767 columns, with actions on the keys from column 1
on, and a chord of keys 1 and 2. -/
def withChord (actions : List (Action Nat)) (action : Action Nat) : LayoutConfig 767 2 Nat where
  srcKeys _ := .noOp
  layers := [fun _ c => if c = 0 then .trans else (actions[c.val - 1]?).getD .trans]
  transResolutionBehaviorV2 := true
  delegateToFirstLayer := false
  quickTapHoldTimeout := false
  tapHoldRequirePriorIdle := 0
  chordsV2 := some {
    chords := ⟨fun key =>
      if key = 1 ∨ key = 2 then
        some [.pair action 1 2 5]
      else none⟩
    configuredTicksToIgnoreChord := Chord.minTicksToIgnoreChord
    debugAssertions := true
    ticks_ge := Chord.five_le_minTicks }
  callbacks _ _ := false
  overflowChecks := true
  stackDepth := 10

/-- The run fails with a lookup. -/
def failsLookup (cfg : LayoutConfig C R T) (ops : List LayoutOp) : Bool :=
  match run (Layout.step cfg) (.new 0) ops with
  | .ok _ => false
  | .error p => decide p.IsLookup

/-- Key 3 is tapped, and the chord is pressed. -/
def tapAndChord : List LayoutOp :=
  [press 3] ++ List.replicate 10 .tick ++ [release 3] ++ List.replicate 10 .tick ++
    [press 1, press 2, .tick, .tick]

/-- A key that presses `_` and `a` together. -/
def transAndKey : Action Nat := .multipleActions [.trans, .keyCode keyA]

theorem of_failsLookup {cfg : LayoutConfig C R T} {ops : List LayoutOp}
    (h : failsLookup cfg ops = true) :
    ∃ p, run (Layout.step cfg) (.new 0) ops = .error p ∧ p.IsLookup := by
  unfold failsLookup at h
  split at h
  · cases h
  · rename_i p hrun
    exact ⟨p, hrun, of_decide_eq_true h⟩

/-- A chord that is `use-defsrc`, one that is an alias for `_`, and one that is
`rpt-any` after a key that presses `_` and `a`. -/
theorem lookups_in_range_fails :
    (∃ p, run (Layout.step (withChord [] .src)) (.new 0) [press 1, press 2, .tick, .tick] =
      .error p ∧ p.IsLookup) ∧
    (∃ p, run (Layout.step (withChord [] .trans)) (.new 0) [press 1, press 2, .tick, .tick] =
      .error p ∧ p.IsLookup) ∧
    ∃ p, run (Layout.step (withChord [.trans, .trans, transAndKey] .repeat)) (.new 0)
      tapAndChord = .error p ∧ p.IsLookup := by
  refine ⟨?_, ?_, ?_⟩
  · exact of_failsLookup (by decide +kernel)
  · exact of_failsLookup (by decide +kernel)
  · exact of_failsLookup (by decide +kernel)

/-- A chord that is `rpt-any`, and a key that presses `a`. -/
def keyAndRepeat : LayoutConfig 767 2 Nat :=
  withChord [.trans, .trans, .keyCode keyA] .repeat

/-- What all its actions satisfy, its actions and the chord satisfy. -/
theorem keyAndRepeat_every {P : Action Nat → Prop} (htrans : P .trans)
    (hkey : P (.keyCode keyA)) (hrepeat : P .repeat) : keyAndRepeat.Every P where
  layers rows hrows i j := by
    rw [List.mem_singleton.mp hrows]
    dsimp only
    split
    · exact .leaf htrans rfl
    · cases hget : ([.trans, .trans, .keyCode keyA] : List (Action Nat))[j.val - 1]? with
      | none => exact .leaf htrans rfl
      | some action =>
        have hmem := List.mem_of_getElem? hget
        simp only [List.mem_cons, List.not_mem_nil, or_false, or_self_left] at hmem
        rcases hmem with rfl | rfl
        · exact .leaf htrans rfl
        · exact .leaf hkey rfl
  chordsV2 hcfg hkey chord hchord := by
    cases hcfg
    dsimp only at hkey
    split at hkey
    · cases hkey
      rw [List.mem_singleton.mp hchord]
      exact .leaf hrepeat rfl
    · cases hkey

/-- The key is repeated by the chord, and nothing is looked up past the table. -/
theorem lookups_in_range_repeat :
    ∃ s os, run (Layout.step keyAndRepeat) (.new 0) tapAndChord = .ok (s, os) ∧
      ∀ c f, .performed .src c f ∈ s.trace → keyAndRepeat.InTable c := by
  have hplaced : keyAndRepeat.Every (Action.WellPlaced keyAndRepeat) :=
    keyAndRepeat_every (wellPlaced_of_ne (by simp) (by simp)) (wellPlaced_of_ne (by simp) (by simp))
      (wellPlaced_of_ne (by simp) (by simp))
  have hrepeats : keyAndRepeat.Every Action.RepeatsGrounded :=
    keyAndRepeat_every (fun h => by cases h) (fun _ => .leaf (by simp [Action.Grounded]) rfl)
      (fun h => by cases h)
  have hchords : keyAndRepeat.ChordsGrounded :=
    { grounded := by
        intro chords key possible hcfg hkey chord hchord
        cases hcfg
        dsimp only at hkey
        split at hkey
        · cases hkey
          rw [List.mem_singleton.mp hchord]
          exact .leaf (by simp [Action.Grounded, Chord.ChordV2.pair]) rfl
        · cases hkey
      repeats := fun _ => hrepeats }
  have hops : ∀ op ∈ tapAndChord, op.PressesInTable keyAndRepeat := by
    intro op hop
    simp only [tapAndChord, List.mem_append, List.mem_cons, List.mem_replicate,
      List.not_mem_nil, or_false] at hop
    rcases hop with (((rfl | ⟨_, rfl⟩) | rfl) | ⟨_, rfl⟩) | rfl | rfl | rfl | rfl <;>
      trivial
  obtain ⟨⟨s, os⟩, hrun⟩ : ∃ r, run (Layout.step keyAndRepeat) (.new 0) tapAndChord = .ok r :=
    exists_ok_of_isOk (by decide +kernel)
  exact ⟨s, os, hrun, (lookups_in_range keyAndRepeat ⟨by decide, by decide⟩ (by decide) hplaced
    hchords 0 tapAndChord hops).2 s os hrun⟩

end Kanata
