import Kanata.Parser.SExpr
import Kanata.Lib.Acyclic
import Kanata.Lib.Fallible

/-!
# Kanata.Parser.Vars — variables of the configuration

`parse_vars` reads the pairs of `defvar`. References are followed each time an
expression is read, by `SExpr::atom`, `SExpr::list`, `SExpr::span_list` and
`push_all_atoms`, with no record of what was followed already. In the model each
of them has a stack of a given depth and overflows it when that is not enough.

`resolution_terminates_iff`: some stack is enough for every expression exactly if
no variable refers to itself.
-/

namespace Kanata

/-- `SExpr::span_list`. -/
def SExpr.spanListAux (vars : Option Vars) : Nat → SExpr → Rust (Option (List SExpr × Span))
  | _, .listNode l sp => pure (some (l, sp))
  | fuel, .atomNode s _ =>
    match Vars.target vars s with
    | none => pure none
    | some var =>
      match fuel with
      | 0 => panicWith "stack overflow"
      | fuel + 1 => SExpr.spanListAux vars fuel var

/-- `s.strip_prefix(prefix)`. -/
def stripPrefix : List Char → List Char → Option (List Char)
  | [], s => some s
  | _ :: _, [] => none
  | p :: ps, c :: s => if p = c then stripPrefix ps s else none

/-- `s.strip_suffix(suffix)`. -/
def stripSuffix (suffix s : List Char) : Option (List Char) :=
  (stripPrefix suffix.reverse s.reverse).map List.reverse

/-- `trim_atom_quotes`. -/
def trimAtomQuotes (s : String) : String :=
  match stripPrefix ['r', '#', '"'] s.toList with
  | some a => String.ofList ((stripSuffix ['"', '#'] a).getD a)
  | none =>
    let a := (stripPrefix ['"'] s.toList).getD s.toList
    String.ofList ((stripSuffix ['"'] a).getD s.toList)

/-- The loop of `push_all_atoms`. `deeper` is the recursive call. -/
def pushEach (vars : Vars) (fuel : Nat) (deeper : List SExpr → String → Rust String) :
    List SExpr → String → Rust String
  | [], pusheen => pure pusheen
  | expr :: exprs, pusheen => do
    match ← SExpr.atomAux (some vars) fuel expr with
    | some a => pushEach vars fuel deeper exprs (pusheen ++ trimAtomQuotes a)
    | none =>
      match ← SExpr.listAux (some vars) fuel expr with
      | some l => do
        let pusheen ← deeper l pusheen
        pushEach vars fuel deeper exprs pusheen
      | none => pushEach vars fuel deeper exprs pusheen

/-- `push_all_atoms`. -/
def pushAllAtoms (vars : Vars) : Nat → List SExpr → String → Rust String
  | 0 => pushEach vars 0 fun _ _ => panicWith "stack overflow"
  | fuel + 1 => pushEach vars (fuel + 1) (pushAllAtoms vars fuel)

/-- `parse_list_var`. -/
def parseListVar (fuel : Nat) (expr : List SExpr) (span : Span) (vars : Vars) : Rust SExpr :=
  match expr with
  | .atomNode "concat" _ :: visitees => do
    let concatStr ← pushAllAtoms vars fuel visitees ""
    pure (.atomNode concatStr span)
  | _ => pure (.listNode expr span)

/-- The pairs of one `defvar`. -/
def parseVarPairs (fuel : Nat) : List SExpr → Vars → Parse Vars
  | [], vars => pure vars
  | .listNode l sp :: _, _ => bailExpr (.listNode l sp) "variable name must not be a list"
  | .atomNode varName sp :: [], _ =>
    bailExpr (.atomNode varName sp) "variable name must have a subsequent value"
  | .atomNode varName sp :: v :: subexprs, vars => do
    let varExpr ← match v with
      | .atomNode _ _ => pure v
      | .listNode l listSpan => liftRust (parseListVar fuel l listSpan vars)
    if (vars.lookup varName).isSome then
      bailExpr (.atomNode varName sp) s!"duplicate variable name: {varName}"
    else parseVarPairs fuel subexprs ((varName, varExpr) :: vars)

/-- `parse_vars`. -/
def parseVars (fuel : Nat) : List (List SExpr) → Vars → Parse Vars
  | [], vars => pure vars
  | expr :: exprs, vars => do
    let subexprs ← checkFirstExpr expr "defvar"
    let vars ← parseVarPairs fuel subexprs vars
    parseVars fuel exprs vars

/-! ## What terminates -/

/-- The expression mentions `$w`, at any depth. -/
inductive Mentions (w : String) : SExpr → Prop where
  | atom {s : String} {sp : Span} (h : stripDollar s = some w) : Mentions w (.atomNode s sp)
  | list {l : List SExpr} {sp : Span} {x : SExpr} (hx : x ∈ l) (h : Mentions w x) :
      Mentions w (.listNode l sp)

/-- The value of `v` mentions `w`, and `w` is a variable. -/
def Refers (vars : Vars) (v w : String) : Prop :=
  (∃ e, vars.lookup v = some e ∧ Mentions w e) ∧ ∃ e, vars.lookup w = some e

/-- Following the references of the expression ends, in its parts too. -/
inductive Resolves (vars : Vars) : SExpr → Prop where
  | plain {s : String} {sp : Span} (h : Vars.target (some vars) s = none) :
      Resolves vars (.atomNode s sp)
  | reference {s : String} {sp : Span} {e : SExpr} (h : Vars.target (some vars) s = some e)
      (he : Resolves vars e) : Resolves vars (.atomNode s sp)
  | list {l : List SExpr} {sp : Span} (h : ∀ x ∈ l, Resolves vars x) :
      Resolves vars (.listNode l sp)

theorem Vars.target_eq_some_iff {vars : Vars} {s : String} {e : SExpr} :
    Vars.target (some vars) s = some e ↔ ∃ w, stripDollar s = some w ∧ vars.lookup w = some e := by
  unfold Vars.target
  cases stripDollar s with
  | none => simp
  | some w => simp

/-- Behind an expression that resolves, references are followed finitely often. -/
theorem Resolves.acc {vars : Vars} {e : SExpr} (h : Resolves vars e) :
    ∀ {w : String}, Mentions w e → (∃ e', vars.lookup w = some e') →
      Acc (fun a b => Refers vars b a) w := by
  induction h with
  | plain hnone =>
    intro w hm hw
    rcases hm with hs | _
    rcases hw with ⟨e', he'⟩
    rw [Vars.target_eq_some_iff.mpr ⟨w, hs, he'⟩] at hnone
    cases hnone
  | reference hsome _ ih =>
    intro w hm _
    rcases hm with hs | _
    rcases Vars.target_eq_some_iff.mp hsome with ⟨w', hs', he⟩
    rw [hs] at hs'
    cases hs'
    constructor
    rintro u ⟨⟨e'', he'', hu⟩, hdef⟩
    rw [he] at he''
    cases he''
    exact ih hu hdef
  | list _ ih =>
    intro w hm hw
    rcases hm with _ | ⟨hx, hm⟩
    exact ih _ hx hm hw

/-- An expression resolves if what it mentions does. -/
theorem resolves_of_mentions {vars : Vars} :
    ∀ e : SExpr, (∀ w e', Mentions w e → vars.lookup w = some e' → Resolves vars e') →
      Resolves vars e
  | .atomNode s sp, h => by
    cases htarget : Vars.target (some vars) s with
    | none => exact .plain htarget
    | some e =>
      rcases Vars.target_eq_some_iff.mp htarget with ⟨w, hs, he⟩
      exact .reference htarget (h w e (.atom hs) he)
  | .listNode l sp, h => by
    refine .list ?_
    intro x hx
    exact resolves_of_mentions x fun w e' hm he' => h w e' (.list hx hm) he'

/-- Every expression resolves exactly if no variable refers to itself. -/
theorem resolves_iff_loopless {vars : Vars} :
    (∀ e, Resolves vars e) ↔ Acyclic.Loopless (Refers vars) := by
  constructor
  · intro h v
    refine Acyclic.loopless_of_acc ?_
    constructor
    rintro u ⟨⟨e, _, hu⟩, hdef⟩
    exact (h e).acc hu hdef
  · intro h
    have hwf := Acyclic.wellFounded_of_loopless (vars.map Prod.fst) h (by
      rintro v w ⟨⟨e, he, _⟩, _⟩
      rcases List.lookup_eq_some_iff.mp he with ⟨before, after, heq, _⟩
      rw [heq]
      simp)
    have hvar : ∀ v e, vars.lookup v = some e → Resolves vars e := by
      intro v
      induction v using hwf.induction with
      | _ v ih =>
        intro e he
        refine resolves_of_mentions e ?_
        intro w e' hm he'
        exact ih w ⟨⟨e, he, hm⟩, e', he'⟩ e' he'
    intro e
    exact resolves_of_mentions e fun w e' _ he' => hvar w e' he'

/-! ## A deep enough stack -/

/-- Some stack is deep enough. -/
def Returns {α : Type} (f : Nat → Rust α) : Prop := ∃ fuel a, f fuel = .ok a

section Stack

variable {vars : Vars}

/-- What the functions give on an expression that resolves, with a stack of depth
`n` or more: an atom, or a list whose atoms can be pushed. -/
def DeepEnough (vars : Vars) (n : Nat) (e : SExpr) : Prop :=
  ∀ fuel, n ≤ fuel →
    (∃ a, SExpr.atomAux (some vars) fuel e = .ok (some a) ∧
      SExpr.listAux (some vars) fuel e = .ok none ∧
      SExpr.spanListAux (some vars) fuel e = .ok none) ∨
    (SExpr.atomAux (some vars) fuel e = .ok none ∧
      ∃ l sp, SExpr.listAux (some vars) fuel e = .ok (some l) ∧
        SExpr.spanListAux (some vars) fuel e = .ok (some (l, sp)) ∧
        ∀ deeper, n ≤ deeper + 1 → ∀ pusheen, ∃ s, pushAllAtoms vars deeper l pusheen = .ok s)

theorem DeepEnough.mono {n m : Nat} {e : SExpr} (h : DeepEnough vars n e) (hle : n ≤ m) :
    DeepEnough vars m e := by
  intro fuel hfuel
  rcases h fuel (Nat.le_trans hle hfuel) with ⟨a, ha⟩ | ⟨hnone, l, sp, hl, hsp, hdeeper⟩
  · exact .inl ⟨a, ha⟩
  · refine .inr ⟨hnone, l, sp, hl, hsp, ?_⟩
    intro deeper hd
    exact hdeeper deeper (Nat.le_trans hle hd)

/-- With a stack deep enough for each expression, all their atoms are pushed. -/
theorem pushAllAtoms_of_deepEnough {n fuel : Nat} (hpos : 0 < n) (hfuel : n ≤ fuel) :
    ∀ {exprs : List SExpr} (pusheen : String), (∀ e ∈ exprs, DeepEnough vars n e) →
      ∃ s, pushAllAtoms vars fuel exprs pusheen = .ok s := by
  rcases Nat.exists_eq_succ_of_ne_zero (Nat.pos_iff_ne_zero.mp (Nat.lt_of_lt_of_le hpos hfuel))
    with ⟨fuel', rfl⟩
  intro exprs
  induction exprs with
  | nil =>
    intro pusheen _
    exact ⟨pusheen, rfl⟩
  | cons e exprs ih =>
    intro pusheen h
    have ih' := fun s => ih s fun e' he' => h e' (List.mem_cons_of_mem _ he')
    unfold pushAllAtoms at ih' ⊢
    unfold pushEach
    rcases h e List.mem_cons_self (fuel' + 1) hfuel with
      ⟨a, ha, _, _⟩ | ⟨hnone, l, sp, hl, _, hdeeper⟩
    · rw [ha]
      exact ih' _
    · rcases hdeeper fuel' hfuel pusheen with ⟨s, hs⟩
      rw [hnone, hl]
      simp only [Fallible.ok_bind, hs]
      exact ih' s

/-- One stack serves all the expressions of a list. -/
theorem exists_deepEnough_list :
    ∀ {l : List SExpr}, (∀ x ∈ l, ∃ n, DeepEnough vars n x) →
      ∃ n, 0 < n ∧ ∀ x ∈ l, DeepEnough vars n x
  | [], _ => ⟨1, Nat.one_pos, fun _ hx => by cases hx⟩
  | x :: l, h => by
    rcases h x List.mem_cons_self with ⟨n, hn⟩
    rcases exists_deepEnough_list fun y hy => h y (List.mem_cons_of_mem _ hy) with ⟨m, hm, hrest⟩
    refine ⟨max n m, by omega, ?_⟩
    intro y hy
    rcases List.mem_cons.mp hy with rfl | hy
    · exact hn.mono (Nat.le_max_left n m)
    · exact (hrest y hy).mono (Nat.le_max_right n m)

theorem Resolves.deepEnough {e : SExpr} (h : Resolves vars e) : ∃ n, DeepEnough vars n e := by
  induction h with
  | @plain s sp hnone =>
    refine ⟨0, ?_⟩
    intro fuel _
    refine .inl ⟨s, ?_, ?_, ?_⟩
    · simp only [SExpr.atomAux, hnone]
      rfl
    · simp only [SExpr.listAux, hnone]
      rfl
    · simp only [SExpr.spanListAux, hnone]
      rfl
  | reference hsome _ ih =>
    rcases ih with ⟨n, hn⟩
    refine ⟨n + 1, ?_⟩
    intro fuel hfuel
    rcases Nat.exists_eq_succ_of_ne_zero (Nat.pos_iff_ne_zero.mp (Nat.lt_of_lt_of_le
      (Nat.succ_pos n) hfuel)) with ⟨fuel', rfl⟩
    simp only [SExpr.atomAux, SExpr.listAux, SExpr.spanListAux, hsome]
    rcases hn fuel' (Nat.le_of_succ_le_succ hfuel) with
      ⟨a, ha⟩ | ⟨hnone, l, sp, hl, hsp, hdeeper⟩
    · exact .inl ⟨a, ha⟩
    · refine .inr ⟨hnone, l, sp, hl, hsp, ?_⟩
      intro deeper hd
      exact hdeeper deeper (Nat.le_of_succ_le hd)
  | @list l sp _ ih =>
    rcases exists_deepEnough_list ih with ⟨n, hpos, hn⟩
    refine ⟨n + 1, ?_⟩
    intro fuel _
    refine .inr ⟨?_, l, sp, ?_, ?_, ?_⟩
    · simp only [SExpr.atomAux]
      rfl
    · simp only [SExpr.listAux]
      rfl
    · simp only [SExpr.spanListAux]
      rfl
    · intro deeper hd pusheen
      exact pushAllAtoms_of_deepEnough hpos (Nat.le_of_succ_le_succ hd) pusheen hn

/-- An expression with an atom behind its references resolves. -/
theorem resolves_of_atomAux {a : String} :
    ∀ {fuel : Nat} {e : SExpr}, SExpr.atomAux (some vars) fuel e = .ok (some a) →
      Resolves vars e
  | _, .listNode l sp, h => by
    simp only [SExpr.atomAux] at h
    cases h
  | fuel, .atomNode s sp, h => by
    simp only [SExpr.atomAux] at h
    cases htarget : Vars.target (some vars) s with
    | none => exact .plain htarget
    | some e =>
      rw [htarget] at h
      cases fuel with
      | zero => cases h
      | succ fuel => exact .reference htarget (resolves_of_atomAux h)

/-- An expression with a list behind its references resolves if its elements do. -/
theorem resolves_of_listAux {l : List SExpr} (hl : ∀ x ∈ l, Resolves vars x) :
    ∀ {fuel : Nat} {e : SExpr}, SExpr.listAux (some vars) fuel e = .ok (some l) →
      Resolves vars e
  | _, .listNode l' sp, h => by
    simp only [SExpr.listAux] at h
    cases h
    exact .list hl
  | fuel, .atomNode s sp, h => by
    simp only [SExpr.listAux] at h
    cases htarget : Vars.target (some vars) s with
    | none => exact .plain htarget
    | some e =>
      rw [htarget] at h
      cases fuel with
      | zero => cases h
      | succ fuel => exact .reference htarget (resolves_of_listAux hl h)

/-- What was pushed resolves. -/
theorem resolves_of_pushEach {fuel : Nat} {deeper : List SExpr → String → Rust String}
    (hdeeper : ∀ l pusheen s, deeper l pusheen = .ok s → ∀ x ∈ l, Resolves vars x) :
    ∀ {exprs : List SExpr} {pusheen s : String}, pushEach vars fuel deeper exprs pusheen = .ok s →
      ∀ x ∈ exprs, Resolves vars x
  | [], _, _, _, x, hx => by cases hx
  | e :: exprs, pusheen, s, h, x, hx => by
    unfold pushEach at h
    rcases Fallible.bind_eq_ok.mp h with ⟨a, ha, h⟩
    cases a with
    | some a =>
      rcases List.mem_cons.mp hx with rfl | hx
      · exact resolves_of_atomAux ha
      · exact resolves_of_pushEach hdeeper h x hx
    | none =>
      rcases Fallible.bind_eq_ok.mp h with ⟨l, hl, h⟩
      rcases SExpr.listAux_of_atomAux_none ha with ⟨l', hl'⟩
      rw [hl] at hl'
      cases hl'
      rcases Fallible.bind_eq_ok.mp h with ⟨pusheen', hpush, h⟩
      rcases List.mem_cons.mp hx with rfl | hx
      · exact resolves_of_listAux (hdeeper l' pusheen pusheen' hpush) hl
      · exact resolves_of_pushEach hdeeper h x hx

theorem resolves_of_pushAllAtoms :
    ∀ {fuel : Nat} {exprs : List SExpr} {pusheen s : String},
      pushAllAtoms vars fuel exprs pusheen = .ok s → ∀ x ∈ exprs, Resolves vars x
  | 0, _, _, _, h => by
    refine resolves_of_pushEach ?_ h
    intro l pusheen s hoverflow
    cases hoverflow
  | fuel + 1, _, _, _, h => by
    refine resolves_of_pushEach ?_ h
    intro l pusheen s hpush
    exact resolves_of_pushAllAtoms hpush

end Stack

/-! ## As deep as there are variables

`SExpr.atom` and `SExpr.list` have a stack for as many references as there are variables. It
is enough for every expression whose references end: none of them is followed twice. -/

/-- Following the references of an expression ends after so many of them. -/
inductive EndsAfter (vars : Option Vars) : SExpr → Nat → Prop where
  | atList (l : List SExpr) (sp : Span) : EndsAfter vars (.listNode l sp) 0
  | atAtom {s : String} {sp : Span} (h : Vars.target vars s = none) :
      EndsAfter vars (.atomNode s sp) 0
  | reference {s : String} {sp : Span} {e : SExpr} {n : Nat} (h : Vars.target vars s = some e)
      (he : EndsAfter vars e n) : EndsAfter vars (.atomNode s sp) (n + 1)

section EndsAfter

variable {vars : Option Vars} {e : SExpr} {n m fuel : Nat}

theorem EndsAfter.unique (h : EndsAfter vars e n) (h' : EndsAfter vars e m) : n = m := by
  induction h generalizing m with
  | atList l sp =>
    cases h'
    rfl
  | atAtom hnone =>
    cases h' with
    | atAtom _ => rfl
    | reference hsome _ =>
      rw [hnone] at hsome
      cases hsome
  | reference hsome _ ih =>
    cases h' with
    | atAtom hnone =>
      rw [hnone] at hsome
      cases hsome
    | reference hsome' he' =>
      rw [hsome] at hsome'
      cases hsome'
      rw [ih he']

/-- The variables on the way are different ones: from each the way is shorter than from the
one before. -/
theorem EndsAfter.names {vars : Vars} (h : EndsAfter (some vars) e n) :
    ∃ names : List String, names.length = n ∧ names.Nodup ∧
      ∀ w ∈ names, ∃ v m, vars.lookup w = some v ∧ EndsAfter (some vars) v m ∧ m < n := by
  induction h with
  | atList l sp => exact ⟨[], rfl, List.nodup_nil, fun _ hw => by cases hw⟩
  | atAtom _ => exact ⟨[], rfl, List.nodup_nil, fun _ hw => by cases hw⟩
  | @reference s sp e n hsome he ih =>
    rcases Vars.target_eq_some_iff.mp hsome with ⟨w, _, hlookup⟩
    rcases ih with ⟨names, hlength, hnodup, hnames⟩
    have hnew : w ∉ names := by
      intro hw
      rcases hnames w hw with ⟨v, m, hv, hm, hlt⟩
      rw [hlookup] at hv
      cases hv
      exact Nat.ne_of_lt hlt (hm.unique he)
    refine ⟨w :: names, congrArg Nat.succ hlength, List.nodup_cons.mpr ⟨hnew, hnodup⟩, ?_⟩
    intro w' hw'
    rcases List.mem_cons.mp hw' with rfl | hw'
    · exact ⟨e, n, hlookup, he, Nat.lt_succ_self n⟩
    · rcases hnames w' hw' with ⟨v, m, hv, hm, hlt⟩
      exact ⟨v, m, hv, hm, Nat.lt_succ_of_lt hlt⟩

theorem EndsAfter.le_depth (h : EndsAfter vars e n) : n ≤ Vars.depth vars := by
  cases vars with
  | none =>
    cases h with
    | atList _ _ => exact Nat.zero_le _
    | atAtom _ => exact Nat.zero_le _
    | @reference s _ _ _ hsome _ =>
      unfold Vars.target at hsome
      cases hdollar : stripDollar s <;> simp [hdollar] at hsome
  | some vars =>
    rcases h.names with ⟨names, rfl, hnodup, hnames⟩
    have hsubset : names ⊆ vars.map Prod.fst := by
      intro w hw
      rcases hnames w hw with ⟨v, _, hv, _⟩
      rcases List.lookup_eq_some_iff.mp hv with ⟨before, after, heq, _⟩
      rw [heq]
      simp
    have hle := (hnodup.subperm hsubset).length_le
    rwa [List.length_map] at hle

theorem EndsAfter.atomAux (h : EndsAfter vars e n) (hle : n ≤ fuel) :
    ∃ a, SExpr.atomAux vars fuel e = .ok a := by
  induction h generalizing fuel with
  | atList l sp => cases fuel <;> exact ⟨none, rfl⟩
  | @atAtom s _ hnone => exact ⟨some s, by cases fuel <;> simp only [SExpr.atomAux, hnone] <;> rfl⟩
  | reference hsome _ ih =>
    cases fuel with
    | zero => cases hle
    | succ fuel =>
      simp only [SExpr.atomAux, hsome]
      exact ih (Nat.le_of_succ_le_succ hle)

theorem EndsAfter.listAux (h : EndsAfter vars e n) (hle : n ≤ fuel) :
    ∃ l, SExpr.listAux vars fuel e = .ok l := by
  induction h generalizing fuel with
  | atList l sp => cases fuel <;> exact ⟨some l, rfl⟩
  | atAtom hnone => exact ⟨none, by cases fuel <;> simp only [SExpr.listAux, hnone] <;> rfl⟩
  | reference hsome _ ih =>
    cases fuel with
    | zero => cases hle
    | succ fuel =>
      simp only [SExpr.listAux, hsome]
      exact ih (Nat.le_of_succ_le_succ hle)

theorem EndsAfter.atom (h : EndsAfter vars e n) : ∃ a, e.atom vars = .ok a := h.atomAux h.le_depth

theorem EndsAfter.list (h : EndsAfter vars e n) : ∃ l, e.list vars = .ok l := h.listAux h.le_depth

theorem Resolves.endsAfter {vars : Vars} (h : Resolves vars e) :
    ∃ n, EndsAfter (some vars) e n := by
  induction h with
  | plain hnone => exact ⟨0, .atAtom hnone⟩
  | reference hsome _ ih =>
    rcases ih with ⟨n, hn⟩
    exact ⟨n + 1, .reference hsome hn⟩
  | list _ _ => exact ⟨0, .atList _ _⟩

end EndsAfter

/-- Every expression can be read with the variables: its atom, its list, its list
with the span, and the atoms below a list of expressions. -/
structure ResolutionTerminates (vars : Vars) : Prop where
  atom : ∀ e, Returns fun fuel => SExpr.atomAux (some vars) fuel e
  list : ∀ e, Returns fun fuel => SExpr.listAux (some vars) fuel e
  spanList : ∀ e, Returns fun fuel => SExpr.spanListAux (some vars) fuel e
  pushAllAtoms : ∀ exprs pusheen, Returns fun fuel => pushAllAtoms vars fuel exprs pusheen

/-- For every set of `defvar` forms that `parse_vars` accepts: reading any expression
with the variables terminates exactly if no variable refers to itself, over any
number of references. -/
theorem resolution_terminates_iff {fuel : Nat} {forms : List (List SExpr)} {vars : Vars}
    (_accepted : parseVars fuel forms [] = .ok vars) :
    ResolutionTerminates vars ↔ Acyclic.Loopless (Refers vars) := by
  rw [← resolves_iff_loopless]
  constructor
  · intro h e
    rcases h.pushAllAtoms [e] "" with ⟨fuel, s, hs⟩
    exact resolves_of_pushAllAtoms hs e List.mem_cons_self
  · intro h
    constructor
    · intro e
      rcases (h e).deepEnough with ⟨n, hn⟩
      rcases hn n (Nat.le_refl n) with ⟨a, ha, _, _⟩ | ⟨hnone, _⟩
      · exact ⟨n, _, ha⟩
      · exact ⟨n, _, hnone⟩
    · intro e
      rcases (h e).deepEnough with ⟨n, hn⟩
      rcases hn n (Nat.le_refl n) with ⟨_, _, hl, _⟩ | ⟨_, l, _, hl, _⟩
      · exact ⟨n, _, hl⟩
      · exact ⟨n, _, hl⟩
    · intro e
      rcases (h e).deepEnough with ⟨n, hn⟩
      rcases hn n (Nat.le_refl n) with ⟨_, _, _, hsp⟩ | ⟨_, l, sp, _, hsp, _⟩
      · exact ⟨n, _, hsp⟩
      · exact ⟨n, _, hsp⟩
    · intro exprs pusheen
      rcases exists_deepEnough_list fun e (_ : e ∈ exprs) => (h e).deepEnough with ⟨n, hpos, hn⟩
      rcases pushAllAtoms_of_deepEnough hpos (Nat.le_refl n) pusheen hn with ⟨s, hs⟩
      exact ⟨n, s, hs⟩

/-! ## A variable that is its own value -/

/-- `(defvar a $a)`. -/
def selfReference : List (List SExpr) :=
  [[.atomNode "defvar" default, .atomNode "a" default, .atomNode "$a" default]]

/-- `(defvar a b)`. -/
def plainVariable : List (List SExpr) :=
  [[.atomNode "defvar" default, .atomNode "a" default, .atomNode "b" default]]

/-- `resolution_terminates_iff` for `(defvar a b)`. -/
theorem resolution_terminates_plain :
    parseVars 0 plainVariable [] = .ok [("a", .atomNode "b" default)] ∧
      (ResolutionTerminates [("a", .atomNode "b" default)] ↔
        Acyclic.Loopless (Refers [("a", .atomNode "b" default)])) :=
  ⟨rfl, @resolution_terminates_iff 0 plainVariable _ rfl⟩

theorem atomAux_selfReference (fuel : Nat) :
    SExpr.atomAux (some [("a", .atomNode "$a" default)]) fuel (.atomNode "$a" default) =
      panicWith "stack overflow" := by
  have htarget : Vars.target (some [("a", SExpr.atomNode "$a" default)]) "$a" =
      some (.atomNode "$a" default) := rfl
  induction fuel with
  | zero => rfl
  | succ fuel ih =>
    unfold SExpr.atomAux
    rw [htarget]
    exact ih

/-- `(defvar a $a)` is accepted, and reading `$a` overflows every stack. -/
theorem selfReference_loops :
    ∃ vars, parseVars 0 selfReference [] = .ok vars ∧ ¬ ResolutionTerminates vars := by
  refine ⟨[("a", .atomNode "$a" default)], rfl, ?_⟩
  intro h
  rcases h.atom (.atomNode "$a" default) with ⟨fuel, a, ha⟩
  have hloop := atomAux_selfReference fuel
  simp only at ha
  rw [hloop] at ha
  cases ha

end Kanata
