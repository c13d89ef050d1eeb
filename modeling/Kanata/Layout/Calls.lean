import Kanata.Layout.Uniform

/-!
# Kanata.Layout.Calls — which actions an action stands for

`Calls` is one step from an action to an action that `do_action` performs in its
place, at once or when a decision has been made: what a transparent cell resolves
to, the key of `defsrc`, what is inside.
-/

namespace Kanata

open Fallible

variable {C R : Nat} {T : Type} {cfg : LayoutConfig C R T} {c : KCoord}

/-- A layer of the stack has the action, under transparent cells. -/
inductive FoundIn (cfg : LayoutConfig C R T) (c : KCoord) :
    List Nat → Action T → List Nat → Prop where
  | here {l : Nat} {rest : List Nat} {a : Action T} (h : cfg.cell l c.1 c.2 = .ok a)
      (hne : a ≠ .trans) : FoundIn cfg c (l :: rest) a rest
  | next {l : Nat} {stack rest : List Nat} {a : Action T} (h : cfg.cell l c.1 c.2 = .ok .trans)
      (hf : FoundIn cfg c stack a rest) : FoundIn cfg c (l :: stack) a rest

/-- All layers of the stack are transparent. -/
def Exhausted (cfg : LayoutConfig C R T) (c : KCoord) (stack : List Nat) : Prop :=
  ∀ l ∈ stack, cfg.cell l c.1 c.2 = .ok .trans

/-- One step from an action with its layer stack to another. The flag allows the
step from exhausted layers to the key of `defsrc`. -/
inductive Calls (cfg : LayoutConfig C R T) (c : KCoord) (delegates : Bool) :
    List Nat × Action T → List Nat × Action T → Prop where
  | found {stack rest : List Nat} {a : Action T} (h : FoundIn cfg c stack a rest) :
      Calls cfg c delegates (stack, .trans) (rest, a)
  | defsrc {stack : List Nat} {a : Action T} (hd : delegates = true) (h : Exhausted cfg c stack)
      (ha : cfg.srcKey c.2 = .ok a) : Calls cfg c delegates (stack, .trans) ([], a)
  | src {stack : List Nat} {a : Action T} (ha : cfg.srcKey c.2 = .ok a) :
      Calls cfg c delegates (stack, .src) ([], a)
  | oneShot {stack : List Nat} {os : OneShot (Action T)} :
      Calls cfg c delegates (stack, .oneShot os) ([], os.action)
  | inside {stack : List Nat} {a b : Action T} (hne : ∀ os, a ≠ .oneShot os)
      (hb : b ∈ a.children) : Calls cfg c delegates (stack, a) (stack, b)

/-! ## Resolving a transparent action -/

theorem resolveLayers_found :
    ∀ {stack rest : List Nat} {a : Action T}, cfg.resolveLayers c stack = .ok (a, rest) →
      FoundIn cfg c stack a rest ∨ (Exhausted cfg c stack ∧ rest = [] ∧
        if c.1 = 0 then cfg.srcKey c.2 = .ok a else a = .noOp)
  | [], rest, a, h => by
    unfold LayoutConfig.resolveLayers at h
    have hnone : Exhausted cfg c [] := fun l hl => by cases hl
    split at h
    · rename_i hrow
      rw [bind_eq_ok] at h
      obtain ⟨b, hb, h⟩ := h
      obtain ⟨rfl, rfl⟩ := Prod.mk.inj (pure_eq_ok.mp h)
      exact .inr ⟨hnone, rfl, by rw [if_pos hrow]; exact hb⟩
    · rename_i hrow
      obtain ⟨rfl, rfl⟩ := Prod.mk.inj (pure_eq_ok.mp h)
      exact .inr ⟨hnone, rfl, by rw [if_neg hrow]⟩
  | l :: stack, rest, a, h => by
    unfold LayoutConfig.resolveLayers at h
    obtain ⟨_, _, h⟩ := bind_eq_ok.mp h
    obtain ⟨b, hb, h⟩ := bind_eq_ok.mp h
    split at h
    · -- a transparent cell
      rcases resolveLayers_found h with hfound | ⟨hall, hrest, ha⟩
      · exact .inl (.next hb hfound)
      · refine .inr ⟨?_, hrest, ha⟩
        intro l' hl'
        rcases List.mem_cons.mp hl' with rfl | hl'
        · exact hb
        · exact hall l' hl'
    · rename_i hne
      obtain ⟨rfl, rfl⟩ := Prod.mk.inj (pure_eq_ok.mp h)
      exact .inl (.here hb fun heq => hne heq)

/-! ## What is inside an action -/

section Inside

variable {call : Call T}

theorem mem_switchActions {env : Switch.SwitchEnv} :
    ∀ {cases : List (SwitchCase (Action T))} {actions : List (Action T)},
      Layout.switchActions env cases = .ok actions → ∀ b ∈ actions, b ∈ cases.map (·.action)
  | [], actions, h => by
    obtain rfl := pure_eq_ok.mp h
    intro b hb
    cases hb
  | case :: cases, actions, h => by
    rw [Layout.switchActions, bind_eq_ok] at h
    obtain ⟨holds, _, h⟩ := h
    intro b hb
    split at h
    · split at h
      · obtain rfl := pure_eq_ok.mp h
        rw [List.mem_singleton.mp hb]
        exact List.mem_cons_self
      · obtain ⟨rest, hrest, h⟩ := bind_eq_ok.mp h
        obtain rfl := pure_eq_ok.mp h
        rcases List.mem_cons.mp hb with rfl | hb
        · exact List.mem_cons_self
        · exact List.mem_cons_of_mem _ (mem_switchActions hrest b hb)
    · exact List.mem_cons_of_mem _ (mem_switchActions h b hb)

theorem mem_fillSwitchQueue {b : Action T} :
    ∀ {actions : List (Action T)} {queue : Bounded actionQueueLen (Action T)} {s : Layout T},
      b ∈ (Layout.fillSwitchQueue call actions queue s).1.items → b ∈ queue.items ∨ b ∈ actions
  | [], queue, s, h => .inl h
  | action :: actions, queue, s, h => by
    rw [Layout.fillSwitchQueue] at h
    have hpush : ∀ {q : Bounded actionQueueLen (Action T)} {lost : Option (Action T)},
        queue.pushBack action = (q, lost) → b ∈ q.items → b ∈ queue.items ∨ b = action := by
      intro q lost hq hb
      refine Bounded.mem_pushBack ?_
      rw [hq]
      exact hb
    split at h
    · rename_i q hq
      rcases mem_fillSwitchQueue h with hb | hb
      · rcases hpush hq hb with hb | rfl
        · exact .inl hb
        · exact .inr List.mem_cons_self
      · exact .inr (List.mem_cons_of_mem _ hb)
    · rename_i q lost hq
      rcases mem_fillSwitchQueue h with hb | hb
      · rcases hpush hq hb with hb | rfl
        · exact .inl hb
        · exact .inr List.mem_cons_self
      · exact .inr (List.mem_cons_of_mem _ hb)

end Inside

end Kanata
