import Kanata.Parser.MacroTree
import Kanata.Parser.Vars

/-!
# Kanata.Parser.MacroNesting — how deep the items of a macro nest

`parse_macro_item_impl` calls itself for the items of a list, and for those of a list under
held modifiers. Such a list may be the value of a variable, which an atom names, either as a
whole or behind its modifiers, as in `S-$x`.

* `exists_nests`: if no variable leads back to itself, every expression nests only so deep;
* `parseMacroItemImpl_answers`: a call stack that is deeper than that is enough for an item.
-/

namespace Kanata.Macro

open Fallible

variable {T : Type}

/-! ## Nesting -/

/-- The value that an atom leads to: that of the variable it names, or of the one that it
names behind its modifiers. -/
def Opens (vars : Option Vars) (quote : String → String) (t : String) (e : SExpr) : Prop :=
  Vars.target vars t = some e ∨
    ∃ mods unparsed, parseModPrefix quote t = .ok (mods, unparsed) ∧
      Vars.target vars unparsed = some e

/-- There are at most so many lists inside each other, also behind the atoms. -/
inductive Nests (vars : Option Vars) (quote : String → String) : Nat → SExpr → Prop where
  | atom {t : String} {sp : Span} {n : Nat}
    (h : ∀ e, Opens vars quote t e → Nests vars quote n e) : Nests vars quote n (.atomNode t sp)
  | list {l : List SExpr} {sp : Span} {n : Nat} (h : ∀ x ∈ l, Nests vars quote n x) :
      Nests vars quote (n + 1) (.listNode l sp)

/-- The expression leads to the variable, at any depth. -/
inductive LeadsTo (quote : String → String) (w : String) : SExpr → Prop where
  | atom {t : String} {sp : Span} (h : stripDollar t = some w) : LeadsTo quote w (.atomNode t sp)
  | modded {t unparsed : String} {mods : List KeyCode} {sp : Span}
    (hmods : parseModPrefix quote t = .ok (mods, unparsed)) (h : stripDollar unparsed = some w) :
      LeadsTo quote w (.atomNode t sp)
  | list {l : List SExpr} {sp : Span} {x : SExpr} (hx : x ∈ l) (h : LeadsTo quote w x) :
      LeadsTo quote w (.listNode l sp)

/-- The value of `v` leads to the variable `w`. -/
def LeadsOn (vars : Option Vars) (quote : String → String) (v w : String) : Prop :=
  ∃ vs, vars = some vs ∧ (∃ e, vs.lookup v = some e ∧ LeadsTo quote w e) ∧
    ∃ e, vs.lookup w = some e

section Nests

variable {vars : Option Vars} {quote : String → String} {e : SExpr} {n m : Nat}

theorem Nests.mono (h : Nests vars quote n e) (hle : n ≤ m) : Nests vars quote m e := by
  induction h generalizing m with
  | atom _ ih => exact .atom fun e he => ih e he hle
  | list _ ih =>
    cases m with
    | zero => cases hle
    | succ m => exact .list fun x hx => ih x hx (Nat.le_of_succ_le_succ hle)

theorem Nests.target {t : String} {sp : Span} (h : Nests vars quote n (.atomNode t sp))
    (ht : Vars.target vars t = some e) : Nests vars quote n e := by
  cases h with
  | atom h => exact h e (.inl ht)

/-- References of an expression that nests only so deep have an end. -/
theorem Nests.endsAfter (h : Nests vars quote n e) : ∃ k, EndsAfter vars e k := by
  induction h with
  | @atom t _ _ _ ih =>
    cases htarget : Vars.target vars t with
    | none => exact ⟨0, .atAtom htarget⟩
    | some e =>
      rcases ih e (.inl htarget) with ⟨k, hk⟩
      exact ⟨k + 1, .reference htarget hk⟩
  | list _ _ => exact ⟨0, .atList _ _⟩

theorem Nests.of_listAux {l : List SExpr} : ∀ {fuel n : Nat} {e : SExpr},
    Nests vars quote n e → SExpr.listAux vars fuel e = .ok (some l) →
      ∃ k, n = k + 1 ∧ ∀ x ∈ l, Nests vars quote k x
  | 0, _, .listNode _ _, .list h, rfl => ⟨_, rfl, h⟩
  | _ + 1, _, .listNode _ _, .list h, rfl => ⟨_, rfl, h⟩
  | fuel, n, .atomNode t sp, h, hl => by
    cases htarget : Vars.target vars t with
    | none => cases fuel <;> simp [SExpr.listAux, htarget, pure, Except.pure] at hl
    | some e =>
      cases fuel with
      | zero => simp [SExpr.listAux, htarget, panicWith] at hl
      | succ fuel =>
        simp only [SExpr.listAux, htarget] at hl
        exact of_listAux (h.target htarget) hl

/-- Behind an atom there is no list, or one whose items nest less deep. -/
theorem list_of_target {t : String} (sp : Span)
    (h : ∀ e, Vars.target vars t = some e → Nests vars quote n e) :
    (SExpr.atomNode t sp).list vars = .ok none ∨
      ∃ l k, (SExpr.atomNode t sp).list vars = .ok (some l) ∧ n = k + 1 ∧
        ∀ x ∈ l, Nests vars quote k x := by
  cases htarget : Vars.target vars t with
  | none =>
    left
    unfold SExpr.list
    cases Vars.depth vars <;> simp only [SExpr.listAux, htarget] <;> rfl
  | some e =>
    have hnests := h e htarget
    rcases hnests.endsAfter with ⟨k, hk⟩
    rcases (EndsAfter.reference htarget hk : EndsAfter vars (.atomNode t sp) (k + 1)).list
      with ⟨_ | l, hl⟩
    · exact .inl hl
    · refine .inr ⟨l, ?_⟩
      have hbehind := hl
      unfold SExpr.list at hbehind
      cases hdepth : Vars.depth vars with
      | zero => simp [hdepth, SExpr.listAux, htarget, panicWith] at hbehind
      | succ fuel =>
        simp only [hdepth, SExpr.listAux, htarget] at hbehind
        rcases hnests.of_listAux hbehind with ⟨k, hk, hitems⟩
        exact ⟨k, hl, hk, hitems⟩

/-- An expression is no list, or one whose items nest less deep. -/
theorem Nests.list_cases (h : Nests vars quote n e) : e.list vars = .ok none ∨
    ∃ l k, e.list vars = .ok (some l) ∧ n = k + 1 ∧ ∀ x ∈ l, Nests vars quote k x := by
  cases h with
  | atom h => exact list_of_target _ fun e he => h e (.inl he)
  | @list l _ k h =>
    refine .inr ⟨l, k, ?_, rfl, h⟩
    unfold SExpr.list
    cases Vars.depth vars <;> rfl

theorem Nests.of_atomAux {t : String} {sp : Span} : ∀ {fuel : Nat} {e : SExpr},
    Nests vars quote n e → SExpr.atomAux vars fuel e = .ok (some t) →
      Nests vars quote n (.atomNode t sp)
  | 0, .listNode _ _, _, ht => by cases ht
  | _ + 1, .listNode _ _, _, ht => by cases ht
  | fuel, .atomNode t' sp', h, ht => by
    cases htarget : Vars.target vars t' with
    | none =>
      have hsame : t' = t := by
        cases fuel <;> simpa [SExpr.atomAux, htarget, pure, Except.pure] using ht
      subst hsame
      cases h with
      | atom h => exact .atom h
    | some e =>
      cases fuel with
      | zero => simp [SExpr.atomAux, htarget, panicWith] at ht
      | succ fuel =>
        simp only [SExpr.atomAux, htarget] at ht
        exact of_atomAux (h.target htarget) ht

/-- The atom that an expression stands for leads no deeper. -/
theorem Nests.of_atom {t : String} {sp : Span} (h : Nests vars quote n e)
    (ht : e.atom vars = .ok (some t)) : Nests vars quote n (.atomNode t sp) :=
  h.of_atomAux ht

/-! ## Every expression nests only so deep -/

/-- One bound serves all the expressions of a list. -/
theorem exists_nests_list : ∀ {l : List SExpr}, (∀ x ∈ l, ∃ n, Nests vars quote n x) →
    ∃ n, ∀ x ∈ l, Nests vars quote n x
  | [], _ => ⟨0, fun _ hx => by cases hx⟩
  | x :: l, h => by
    rcases h x List.mem_cons_self with ⟨n, hn⟩
    rcases exists_nests_list fun y hy => h y (List.mem_cons_of_mem _ hy) with ⟨m, hm⟩
    refine ⟨max n m, fun y hy => ?_⟩
    rcases List.mem_cons.mp hy with rfl | hy
    · exact hn.mono (Nat.le_max_left n m)
    · exact (hm y hy).mono (Nat.le_max_right n m)

theorem exists_nests_target {t : String}
    (h : ∀ e, Vars.target vars t = some e → ∃ n, Nests vars quote n e) :
    ∃ n, ∀ e, Vars.target vars t = some e → Nests vars quote n e := by
  cases htarget : Vars.target vars t with
  | none => exact ⟨0, fun _ he => by cases he⟩
  | some e =>
    rcases h e htarget with ⟨n, hn⟩
    refine ⟨n, fun e' he' => ?_⟩
    cases he'
    exact hn

/-- An expression nests only so deep if the variables that it leads to do. -/
theorem exists_nests_of_leadsTo : ∀ e : SExpr,
    (∀ w e' vs, vars = some vs → LeadsTo quote w e → vs.lookup w = some e' →
      ∃ n, Nests vars quote n e') → ∃ n, Nests vars quote n e
  | .listNode l sp, h => by
    have hitems : ∀ x ∈ l, ∃ n, Nests vars quote n x := fun x hx =>
      exists_nests_of_leadsTo x fun w e' vs hvs hw he' => h w e' vs hvs (.list hx hw) he'
    rcases exists_nests_list hitems with ⟨n, hn⟩
    exact ⟨n + 1, .list hn⟩
  | .atomNode t sp, h => by
    have hopened : ∀ t', (∀ w, stripDollar t' = some w → LeadsTo quote w (.atomNode t sp)) →
        ∃ n, ∀ e', Vars.target vars t' = some e' → Nests vars quote n e' := by
      intro t' hleads
      refine exists_nests_target fun e' ht => ?_
      cases vars with
      | none =>
        unfold Vars.target at ht
        cases hdollar : stripDollar t' <;> simp [hdollar] at ht
      | some vs =>
        rcases Vars.target_eq_some_iff.mp ht with ⟨w, hw, he'⟩
        exact h w e' vs rfl (hleads w hw) he'
    rcases hopened t fun w hw => .atom hw with ⟨n, hn⟩
    rcases hmods : parseModPrefix quote t with fault | ⟨mods, unparsed⟩
    · refine ⟨n, .atom ?_⟩
      rintro e (he | ⟨mods, unparsed, hparsed, _⟩)
      · exact hn e he
      · cases hmods.symm.trans hparsed
    · rcases hopened unparsed fun w hw => .modded hmods hw with ⟨m, hm⟩
      refine ⟨max n m, .atom ?_⟩
      rintro e (he | ⟨mods', unparsed', hparsed, he⟩)
      · exact (hn e he).mono (Nat.le_max_left n m)
      · cases hmods.symm.trans hparsed
        exact (hm e he).mono (Nat.le_max_right n m)

/-- Every expression nests only so deep if no variable leads back to itself. -/
theorem exists_nests (hloopless : Acyclic.Loopless (LeadsOn vars quote)) (e : SExpr) :
    ∃ n, Nests vars quote n e := by
  have hwf := Acyclic.wellFounded_of_loopless ((vars.getD []).map Prod.fst) hloopless (by
    rintro v w ⟨vs, rfl, ⟨e, he, _⟩, _⟩
    rcases List.lookup_eq_some_iff.mp he with ⟨before, after, heq, _⟩
    rw [Option.getD_some, heq]
    simp)
  have hvar : ∀ v vs, vars = some vs → ∀ e, vs.lookup v = some e → ∃ n, Nests vars quote n e := by
    intro v
    induction v using hwf.induction with
    | _ v ih =>
      intro vs hvs e he
      refine exists_nests_of_leadsTo e fun w e' vs' hvs' hw he' => ?_
      cases hvs.symm.trans hvs'
      exact ih w ⟨vs, hvs, ⟨e, he, hw⟩, e', he'⟩ vs hvs e' he'
  exact exists_nests_of_leadsTo e fun w e' vs hvs _ he' => hvar w vs hvs e' he'

end Nests

/-! ## A deep enough stack -/

section Stack

variable {s : ParserState T} {n : Nat} {head : SExpr} {tail : List SExpr}

/-- A parser that begins with a look at an atom. -/
theorem answers_bind_atom {e : SExpr} (h : Nests s.vars s.quote n e) {α : Type}
    {f : Option String → Parse α} (hf : ∀ a, e.atom s.vars = .ok a → Answers (f a)) :
    Answers (liftRust (e.atom s.vars) >>= f) := by
  rcases h.endsAfter with ⟨k, hk⟩
  rcases hk.atom with ⟨a, ha⟩
  rw [ha]
  exact hf a ha

theorem ensures_mapErr {α : Type} {f : ParseError → ParseError} {x : Parse α} {Q : α → Prop}
    (h : Ensures x Q Refused) : Ensures (mapErr f x) Q Refused := by
  rcases x with (e | p) | a
  · exact ⟨_, rfl⟩
  · rcases h with ⟨e, he⟩
    cases he
  · exact h

theorem answers_parseDelay (h : Nests s.vars s.quote n head) (mode : MacroNumberParseMode) :
    Answers (parseDelay s mode head) := by
  cases mode with
  | action => exact answers_ok _
  | delay =>
    refine answers_bind_atom h fun a _ => ?_
    cases a with
    | none => exact answers_ok _
    | some a =>
      have hnumber : Answers (parseNonZeroU16 head s "delay") :=
        answers_bind_atom h fun _ _ => answers_okOrExpr _ _ _
      dsimp only
      cases hx : parseNonZeroU16 head s "delay" with
      | ok duration => exact answers_ok _
      | error e =>
        dsimp only
        split
        · exact hnumber.of_error hx
        · exact answers_ok _

/-- The modifiers are those of the atom that the parameter stands for. -/
theorem modsHeld_ensures (h : Nests s.vars s.quote n head) :
    Ensures (parseModsHeldForSubMacro s head)
      (fun r => ∃ t, head.atom s.vars = .ok (some t) ∧ parseModPrefix s.quote t = .ok r)
        Refused := by
  rcases h.endsAfter with ⟨k, hk⟩
  rcases hk.atom with ⟨_ | t, ht⟩
  · unfold parseModsHeldForSubMacro
    rw [ht]
    exact ⟨_, rfl⟩
  · unfold parseModsHeldForSubMacro
    rw [ht]
    show Ensures (parseModPrefix s.quote t >>= _) _ _
    refine answers_parseModPrefix.mono_ok (fun r hr _ => ?_) (fun _ he => he) |>.bind
    rcases r with ⟨modKeys, unparsed⟩
    dsimp only
    split
    · exact ⟨_, rfl⟩
    · exact ⟨t, rfl, hr⟩

/-- The items of the list that stands under modifiers nest less deep. -/
theorem submacroItems_ensures (hhead : Nests s.vars s.quote n head)
    (htail : ∀ x ∈ tail, Nests s.vars s.quote n x) {t unparsed : String} {mods : List KeyCode}
    (ht : head.atom s.vars = .ok (some t))
    (hmods : parseModPrefix s.quote t = .ok (mods, unparsed)) (e : ParseError) :
    Ensures (submacroItems s e unparsed head tail)
      (fun r => ∃ k, n = k + 1 ∧ ∀ x ∈ r.1, Nests s.vars s.quote k x) Refused := by
  have hatom : Nests s.vars s.quote n (.atomNode t head.span) := hhead.of_atom ht
  have hunparsed : ∀ e, Vars.target s.vars unparsed = some e → Nests s.vars s.quote n e := by
    intro e he
    cases hatom with
    | atom h => exact h e (.inr ⟨mods, unparsed, hmods, he⟩)
  unfold submacroItems
  rcases list_of_target head.span hunparsed with hlist | ⟨l, k, hlist, hk, hitems⟩
  · rw [hlist]
    show Ensures (if unparsed ≠ "" then _ else _) _ _
    split
    · exact ⟨_, rfl⟩
    · cases tail with
      | nil => exact ⟨_, rfl⟩
      | cons next rest =>
        dsimp only
        rcases (htail next List.mem_cons_self).list_cases with hnext | ⟨l, k, hnext, hk, hitems⟩
        · rw [hnext]
          exact ⟨_, rfl⟩
        · rw [hnext]
          exact ⟨k, hk, hitems⟩
  · rw [hlist]
    exact ⟨k, hk, hitems⟩

theorem answers_parseItems {item : List SExpr → Parse (List (SequenceEvent T) × List SExpr)}
    (hitem : ∀ head tail, (∀ x ∈ head :: tail, Nests s.vars s.quote n x) →
      Ensures (item (head :: tail)) (fun r => r.2 <:+ tail) Refused) :
    ∀ {m : Nat} {acs : List SExpr}, acs.length ≤ m → (∀ x ∈ acs, Nests s.vars s.quote n x) →
      Answers (parseItems item m acs)
  | _, [], _, _ => by
    unfold parseItems
    exact answers_ok _
  | m + 1, head :: tail, hlen, hnests => by
    refine (hitem head tail hnests).andThen ?_
    rintro ⟨events, remainder⟩ hsuffix
    have hshort : remainder.length ≤ m :=
      Nat.le_trans hsuffix.length_le (Nat.le_of_succ_le_succ hlen)
    have hrest := answers_parseItems hitem hshort fun x hx =>
      hnests x (List.mem_cons_of_mem head (hsuffix.subset hx))
    exact hrest.bind fun rest => answers_ok _

/-- By induction on the depth: an item that nests less deep is parsed or refused. -/
theorem parseMacroItemImpl_ensures (haction : ∀ e p, s.parseAction e ≠ .error (.panic p)) :
    ∀ {depth n : Nat} {mode : MacroNumberParseMode} {head : SExpr} {tail : List SExpr},
      n < depth → (∀ x ∈ head :: tail, Nests s.vars s.quote n x) →
        Ensures (parseMacroItemImpl s depth mode (head :: tail)) (fun r => r.2 <:+ tail) Refused
  | depth + 1, n, mode, head, tail, hlt, hnests => by
    have hhead := hnests head List.mem_cons_self
    have htail : ∀ x ∈ tail, Nests s.vars s.quote n x :=
      fun x hx => hnests x (List.mem_cons_of_mem head hx)
    -- the items of a list nest less deep, and there is one call less on the stack
    have hitems : ∀ l k, n = k + 1 → (∀ x ∈ l, Nests s.vars s.quote k x) →
        Answers (parseItems (parseMacroItemImpl s depth .delay) l.length l) := by
      rintro l k rfl hl
      refine answers_parseItems (fun head tail h => ?_) (Nat.le_refl _) hl
      exact parseMacroItemImpl_ensures haction (Nat.lt_of_succ_lt_succ hlt) h
    rw [parseMacroItemImpl]
    refine (answers_parseDelay hhead mode).andThen fun duration _ => ?_
    cases duration with
    | some duration => exact List.suffix_refl tail
    | none =>
      dsimp only
      cases hx : s.parseAction head with
      | ok action =>
        cases action with
        | keyCode kc => exact List.suffix_refl tail
        | multipleKeyCodes kcs => exact List.suffix_refl tail
        | custom value => exact List.suffix_refl tail
        | _ => exact ⟨_, rfl⟩
      | error fault =>
        cases fault with
        | panic p => exact absurd hx (haction head p)
        | error e =>
          rcases hhead.list_cases with hlist | ⟨l, k, hlist, hk, hl⟩
          · -- a list of items under modifiers
            dsimp only
            rw [hlist]
            refine (ensures_mapErr (modsHeld_ensures hhead)).andThen ?_
            rintro ⟨heldMods, unparsed⟩ ⟨t, ht, hmods⟩
            have hgroup := submacroItems_ensures hhead htail ht hmods e
            refine hgroup.mono_ok ?_ (fun _ he => he) |>.bind
            rintro ⟨items, rest⟩ hread ⟨k, hk, hl⟩
            exact (hitems items k hk hl).andThen fun events _ => submacroItems_suffix hread
          · dsimp only
            rw [hlist]
            refine (ensures_mapErr (hitems l k hk hl)).andThen fun events _ => ?_
            exact List.suffix_refl tail

end Stack

end Kanata.Macro
