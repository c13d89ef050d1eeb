import Kanata.Layout.Run

/-!
# Kanata.Layout.Uniform — a property of every action

`Action.Every P`: the action and all that are inside it satisfy `P`. When every
action of a configuration does, `Discipline.uniform` says so of every action that
a run performs, holds back or remembers.
-/

namespace Kanata

open Fallible

variable {C R : Nat} {T : Type}

/-- The actions right inside an action. -/
def Action.children : Action T → List (Action T)
  | .multipleActions actions => actions
  | .holdTap ht => [ht.hold, ht.tap, ht.timeoutAction]
  | .oneShot os => [os.action]
  | .tapDance td => td.actions
  | .chords group => group.chords.map (·.2)
  | .fork fcfg => [fcfg.left, fcfg.right]
  | .switch sw => sw.cases.map (·.action)
  | _ => []

/-- The action and all that are inside it satisfy `P`. -/
inductive Action.Every (P : Action T → Prop) : Action T → Prop where
  | intro {a : Action T} (here : P a) (inside : ∀ b ∈ a.children, b.Every P) : a.Every P

namespace Action.Every

variable {P : Action T → Prop} {a : Action T}

theorem here (h : a.Every P) : P a := by
  cases h with
  | intro here inside => exact here

theorem inside (h : a.Every P) : ∀ b ∈ a.children, b.Every P := by
  cases h with
  | intro here inside => exact inside

/-- An action with nothing inside. -/
theorem leaf (h : P a) (hleaf : a.children = []) : a.Every P := by
  refine .intro h ?_
  intro b hb
  rw [hleaf] at hb
  cases hb

theorem mono {Q : Action T → Prop} (h : a.Every P) (hPQ : ∀ b, P b → Q b) : a.Every Q := by
  induction h with
  | intro here inside ih => exact .intro (hPQ _ here) ih

theorem and {Q : Action T → Prop} (hP : a.Every P) (hQ : a.Every Q) :
    a.Every fun b => P b ∧ Q b := by
  induction hP with
  | intro here inside ih => exact .intro ⟨here, hQ.here⟩ fun b hb => ih b hb (hQ.inside b hb)

/-- What holds of every action inside holds of every action inside those. -/
theorem nested (h : a.Every P) : a.Every fun b => b.Every P := by
  induction h with
  | intro here inside ih => exact .intro (.intro here inside) ih

end Action.Every

/-- Every action that is configured satisfies `P`. -/
structure LayoutConfig.Every (cfg : LayoutConfig C R T) (P : Action T → Prop) : Prop where
  layers : ∀ rows ∈ cfg.layers, ∀ i j, (rows i j).Every P
  chordsV2 : ∀ {chords key possible}, cfg.chordsV2 = some chords →
    chords.chords.mapping key = some possible → ∀ chord ∈ possible, chord.action.Every P

/-- `P` holds of every configured action and of the actions that need no
configuration, and `L` of every layer that is used. -/
structure Uniform (cfg : LayoutConfig C R T) (P : Action T → Prop) (L : Nat → Prop) : Prop where
  config : cfg.Every P
  noOp : P .noOp
  trans : P .trans
  keyCode : ∀ kc, P (.keyCode kc)
  multiKeyBuffer : P .multiKeyBuffer
  layersZero : L 0
  layer : ∀ {v}, P (.layer v) → L (asU16 v)
  defaultLayer : ∀ {v}, v < cfg.layers.length → L (asU16 v)

namespace Uniform

variable {cfg : LayoutConfig C R T} {P : Action T → Prop} {L : Nat → Prop}

theorem srcKey (h : Uniform cfg P L) {y : Nat} {a : Action T} (ha : cfg.srcKey y = .ok a) :
    a.Every P := by
  unfold LayoutConfig.srcKey at ha
  split at ha
  · rename_i hy
    rw [pure_eq_ok] at ha
    rw [← ha]
    cases cfg.srcKeys ⟨y, hy⟩ with
    | noOp => exact .leaf h.noOp rfl
    | keyCode kc => exact .leaf (h.keyCode kc) rfl
  · cases ha

theorem cell (h : Uniform cfg P L) {layer x y : Nat} {a : Action T}
    (ha : cfg.cell layer x y = .ok a) : a.Every P := by
  unfold LayoutConfig.cell at ha
  split at ha
  · cases ha
  · rename_i rows hrows
    split at ha
    · split at ha
      · rw [pure_eq_ok] at ha
        rw [← ha]
        exact h.config.layers rows (List.mem_of_getElem? hrows) _ _
      · cases ha
    · cases ha

/-- What is found in the layers, and what is left of the stack. -/
theorem resolveLayers (h : Uniform cfg P L) {coord : KCoord} :
    ∀ {layerStack : List Nat} {r : Action T × List Nat}, (∀ l ∈ layerStack, L l) →
      cfg.resolveLayers coord layerStack = .ok r → r.1.Every P ∧ ∀ l ∈ r.2, L l
  | [], r, _, hr => by
    unfold LayoutConfig.resolveLayers at hr
    split at hr
    · rcases bind_eq_ok.mp hr with ⟨a, ha, hr⟩
      rw [pure_eq_ok] at hr
      rw [← hr]
      exact ⟨h.srcKey ha, by simp⟩
    · rw [pure_eq_ok] at hr
      rw [← hr]
      exact ⟨.leaf h.noOp rfl, by simp⟩
  | layer :: layerStack, r, hstack, hr => by
    unfold LayoutConfig.resolveLayers at hr
    rcases bind_eq_ok.mp hr with ⟨_, _, hr⟩
    rcases bind_eq_ok.mp hr with ⟨a, ha, hr⟩
    have hrest : ∀ l ∈ layerStack, L l := fun l hl => hstack l (List.mem_cons_of_mem _ hl)
    split at hr
    · exact resolveLayers h hrest hr
    · rw [pure_eq_ok] at hr
      rw [← hr]
      exact ⟨h.cell ha, hrest⟩

theorem resolveCoord (h : Uniform cfg P L) {coord : KCoord} {layerStack : List Nat}
    {r : Action T × List Nat} (hstack : ∀ l ∈ layerStack, L l)
    (hr : cfg.resolveCoord coord layerStack = .ok r) : r.1.Every P ∧ ∀ l ∈ r.2, L l := by
  unfold LayoutConfig.resolveCoord at hr
  rcases bind_eq_ok.mp hr with ⟨_, _, hr⟩
  rcases bind_eq_ok.mp hr with ⟨_, _, hr⟩
  rcases bind_eq_ok.mp hr with ⟨_, _, hr⟩
  rcases bind_eq_ok.mp hr with ⟨_, _, hr⟩
  exact h.resolveLayers hstack hr

end Uniform

/-- The discipline that performs only actions that satisfy `P` throughout, at any
coordinate. -/
def Discipline.uniform {cfg : LayoutConfig C R T} {P : Action T → Prop} {L : Nat → Prop}
    (h : Uniform cfg P L) : Discipline cfg fun _ => True where
  otherPanics _ _ := trivial
  performs a _ := a.Every P
  repeats a := a.Every P
  presses _ := True
  layers := L
  resolves _ := True
  resolves_hold := trivial
  layers_zero := h.layersZero
  layer ha := h.layer ha.here
  defaultLayer hv := h.defaultLayer hv
  press _ := .leaf h.trans rfl
  triggers := trivial
  remember ha _ := ha
  repeatKeys := .leaf h.multiKeyBuffer rfl
  rpt _ ha := ha
  trans _ hstack := ensures_iff_of_ok.mpr fun _ hr => h.resolveCoord hstack hr
  src _ := ensures_iff_of_ok.mpr fun _ ha => h.srcKey ha
  holdTap ha := ⟨ha.inside _ (by simp [Action.children]), ha.inside _ (by simp [Action.children]),
    ha.inside _ (by simp [Action.children])⟩
  oneShot ha := ha.inside _ (by simp [Action.children])
  tapDance ha := ha.inside
  tapDanceEager ha _ := ha.inside
  chords ha _ ka hka := ha.inside _ (List.mem_map_of_mem hka)
  multipleActions ha := ha.inside
  fork ha := ⟨ha.inside _ (by simp [Action.children]), ha.inside _ (by simp [Action.children])⟩
  switch ha case hcase := ha.inside _ (List.mem_map_of_mem hcase)
  noOp _ := .leaf h.noOp rfl
  chordsV2 hchords hkey chord hchord _ _ := h.config.chordsV2 hchords hkey chord hchord

/-- Every action of a small layout satisfies what its actions do. -/
theorem oneLayer_every {P : Action Nat → Prop} {actions : List (Action Nat)}
    (htrans : P .trans) (h : ∀ a ∈ actions, a.Every P) : (oneLayer actions).Every P where
  layers rows hrows i j := by
    rw [List.mem_singleton.mp hrows]
    dsimp only
    split
    · exact .leaf htrans rfl
    · cases hget : actions[j.val - 1]? with
      | none => exact .leaf htrans rfl
      | some a => exact h a (List.mem_of_getElem? hget)
  chordsV2 hchords := by cases hchords

end Kanata
