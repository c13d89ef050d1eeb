import Kanata.Parser.Templates

/-!
# Kanata.Parser.TemplateForms — what an expansion keeps

The head of a list decides whether it is an expansion, and the second atom names the template.
Where heads and names are atoms that no step of an instance touches (`Headed`, `Fixed`), the
expansions of an instance are those that are written in the template and those of the values.

`cost` bounds the work that an expression is still good for: an expansion counts as its
template does for parameters of the cost of the whole expansion. Every step keeps it or lowers
it (`Bounds`).
-/

namespace Kanata.Templates

open Fallible

/-! ## Lists inside -/

/-- Every list inside satisfies the predicate, at any depth. -/
inductive AllLists (P : List SExpr → Prop) : List SExpr → Prop where
  | nil : AllLists P []
  | atom {a : String} {sp : Span} {exprs : List SExpr} (h : AllLists P exprs) :
      AllLists P (.atomNode a sp :: exprs)
  | list {l : List SExpr} {sp : Span} {exprs : List SExpr} (hP : P l) (hl : AllLists P l)
      (h : AllLists P exprs) : AllLists P (.listNode l sp :: exprs)

section AllLists

variable {P : List SExpr → Prop}

/-- Two parts one after the other. -/
theorem AllLists.append {exprs exprs' : List SExpr} (h : AllLists P exprs)
    (h' : AllLists P exprs') : AllLists P (exprs ++ exprs') := by
  induction h with
  | nil => exact h'
  | atom _ ih => exact .atom ih
  | list hP hl _ _ ih => exact .list hP hl ih

/-- The first part. -/
theorem AllLists.left {exprs exprs' : List SExpr} (h : AllLists P (exprs ++ exprs')) :
    AllLists P exprs := by
  induction exprs with
  | nil => exact .nil
  | cons expr exprs ih =>
    cases h with
    | atom h => exact .atom (ih h)
    | list hP hl h => exact .list hP hl (ih h)

/-- The second part. -/
theorem AllLists.right {exprs exprs' : List SExpr} (h : AllLists P (exprs ++ exprs')) :
    AllLists P exprs' := by
  induction exprs with
  | nil => exact h
  | cons expr exprs ih =>
    cases h with
    | atom h => exact ih h
    | list _ _ h => exact ih h

/-- A part at the end. -/
theorem AllLists.drop {exprs : List SExpr} (h : AllLists P exprs) (n : Nat) :
    AllLists P (exprs.drop n) := by
  rw [← List.take_append_drop n exprs] at h
  exact h.right

/-- One of the expressions. -/
theorem AllLists.mem {exprs : List SExpr} (h : AllLists P exprs) {expr : SExpr}
    (hmem : expr ∈ exprs) : AllLists P [expr] := by
  rcases List.append_of_mem hmem with ⟨before, after, rfl⟩
  have hafter : AllLists P ([expr] ++ after) := h.right
  exact hafter.left

/-- The list at the front, and the lists inside it. -/
theorem AllLists.items {l : List SExpr} {sp : Span} {exprs : List SExpr}
    (h : AllLists P (.listNode l sp :: exprs)) : P l ∧ AllLists P l := by
  cases h with
  | list hP hl _ => exact ⟨hP, hl⟩

/-- What follows the first expression. -/
theorem AllLists.tail {expr : SExpr} {exprs : List SExpr} (h : AllLists P (expr :: exprs)) :
    AllLists P exprs :=
  h.drop 1

end AllLists

/-! ## Heads -/

/-- The words at the head of a list that a step replaces. -/
def words : List String := ["template-expand", "t!", "concat", "if-equal", "if-not-equal",
  "if-in-list", "if-not-in-list"]

/-- The list is none that a step replaces. -/
def stays (l : List SExpr) : Bool := (headAtom l).all fun a => !words.contains a

/-- A list at the head stays a list, and an expansion names its template by an atom. -/
def wellHeaded : List SExpr → Bool
  | [] => true
  | .listNode l _ :: _ => stays l
  | .atomNode a _ :: .listNode _ _ :: _ => a != "template-expand" && a != "t!"
  | .atomNode _ _ :: _ => true

/-- The name of an expansion. -/
def nameOf (l : List SExpr) : Option String := headAtom (l.drop 1)

/-- All lists inside are well headed. -/
abbrev Headed (exprs : List SExpr) : Prop := AllLists (fun l => wellHeaded l = true) exprs

/-- The head of the list is none of the atoms, and its name neither if it is an expansion. -/
structure Free (vars : List String) (l : List SExpr) : Prop where
  head : ∀ a, headAtom l = some a → a ∉ vars
  name : isExpand l = true → ∀ a, nameOf l = some a → a ∉ vars

/-- No list inside has one of the atoms as its head, and no expansion as its name. -/
abbrev Fixed (vars : List String) (exprs : List SExpr) : Prop := AllLists (Free vars) exprs

/-- The expansions inside are of the templates that are named. -/
abbrev CallsIn (names : List String) (exprs : List SExpr) : Prop :=
  AllLists (fun l => isExpand l = true → ∀ a, nameOf l = some a → a ∈ names) exprs

/-- No list inside is an expansion. -/
abbrev NoCalls (exprs : List SExpr) : Prop := AllLists (fun l => isExpand l = false) exprs

/-- The two lists are the same to `expand`: they have the same head, and the same name if they
are expansions. -/
structure SameHead (l l' : List SExpr) : Prop where
  head : headAtom l' = headAtom l
  name : isExpand l = true → nameOf l' = nameOf l
  wellHeaded : wellHeaded l' = true

/-- Either both are expansions or none is. -/
theorem SameHead.isExpand {l l' : List SExpr} (h : SameHead l l') :
    isExpand l' = Templates.isExpand l := by
  unfold Templates.isExpand
  rw [h.head]

/-- Two steps one after the other. -/
theorem SameHead.trans {l l' l'' : List SExpr} (h : SameHead l l') (h' : SameHead l' l'') :
    SameHead l l'' where
  head := h'.head.trans h.head
  name hcall := (h'.name (h.isExpand.trans hcall)).trans (h.name hcall)
  wellHeaded := h'.wellHeaded

/-- An expansion is known by its first atom. -/
theorem isExpand_cons {a : String} {sp : Span} {exprs : List SExpr} :
    isExpand (.atomNode a sp :: exprs) = true ↔ a = "template-expand" ∨ a = "t!" := by
  simp [isExpand, headAtom, atomText]

/-- The head of a list that stays is no word. -/
theorem not_mem_words {l : List SExpr} (h : stays l = true) {a : String}
    (ha : headAtom l = some a) : a ∉ words := by
  unfold stays at h
  rw [ha] at h
  simpa using h

/-- What stays is decided by the head. -/
theorem stays_of_head {l l' : List SExpr} (h : stays l = true) (hhead : headAtom l' = headAtom l) :
    stays l' = true := by
  unfold stays at h ⊢
  rw [hhead]
  exact h

/-- A step that copies the atoms it does not touch keeps the heads that are among them. -/
theorem sameHead_of_copies (R : List SExpr → List SExpr → Prop) (P : String → Prop)
    (hnil : ∀ l', R [] l' → l' = [])
    (hatom : ∀ a sp exprs l', P a → R (.atomNode a sp :: exprs) l' →
      ∃ exprs', l' = .atomNode a sp :: exprs' ∧ R exprs exprs')
    {l l' : List SExpr} (hl : wellHeaded l = true)
    (hlist : ∀ l₁ sp exprs, l = .listNode l₁ sp :: exprs → stays l₁ = true →
      ∃ l₂ exprs', l' = .listNode l₂ sp :: exprs' ∧ headAtom l₂ = headAtom l₁)
    (hhead : ∀ a, headAtom l = some a → P a)
    (hname : isExpand l = true → ∀ a, nameOf l = some a → P a) (h : R l l') : SameHead l l' := by
  match l, hl with
  | [], _ =>
    obtain rfl := hnil l' h
    exact ⟨rfl, fun _ => rfl, rfl⟩
  | .listNode l₁ sp :: exprs, hl =>
    rcases hlist l₁ sp exprs rfl hl with ⟨l₂, exprs', rfl, hsame⟩
    refine ⟨rfl, fun hcall => ?_, stays_of_head hl hsame⟩
    cases hcall
  | .atomNode a sp :: exprs, hl =>
    rcases hatom a sp exprs l' (hhead a rfl) h with ⟨exprs', rfl, hrest⟩
    -- only of an expansion the name counts, too
    by_cases hcall : isExpand (.atomNode a sp :: exprs) = true
    · match exprs, hl with
      | [], _ =>
        obtain rfl := hnil exprs' hrest
        exact ⟨rfl, fun _ => rfl, rfl⟩
      | .atomNode b sp' :: exprs, _ =>
        rcases hatom b sp' exprs exprs' (hname hcall b rfl) hrest with ⟨exprs'', rfl, -⟩
        exact ⟨rfl, fun _ => rfl, rfl⟩
      | .listNode l'' sp' :: exprs, hl =>
        rcases isExpand_cons.mp hcall with rfl | rfl <;> cases hl
    · refine ⟨rfl, fun hcall' => absurd hcall' hcall, ?_⟩
      rw [isExpand_cons, not_or] at hcall
      match exprs' with
      | [] => rfl
      | .atomNode b sp' :: exprs => rfl
      | .listNode l'' sp' :: exprs => simp [wellHeaded, hcall]

/-! ## The steps keep heads -/

/-- Only `concat` joins. -/
theorem joinListsExpr_of_stays {l : List SExpr} (h : stays l = true) (sp : Span) :
    joinListsExpr (.listNode l sp) = .listNode (joinLists l) sp := by
  rw [joinListsExpr, if_neg]
  intro hconcat
  exact not_mem_words h hconcat (by decide)

/-- Joining strings inside keeps the head. -/
theorem headAtom_joinLists {l : List SExpr} (hl : wellHeaded l = true) :
    headAtom (joinLists l) = headAtom l := by
  match l, hl with
  | [], _ => rfl
  | .atomNode a sp :: exprs, _ => rfl
  | .listNode l₁ sp :: exprs, hl =>
    rw [joinLists, joinListsExpr_of_stays hl]
    rfl

/-- And the name of an expansion. -/
theorem sameHead_joinLists {l : List SExpr} (hl : wellHeaded l = true) (h : Headed l) :
    SameHead l (joinLists l) := by
  refine sameHead_of_copies (fun l l' => l' = joinLists l) (fun _ => True) ?_ ?_ hl ?_
    (fun _ _ => trivial) (fun _ _ _ => trivial) rfl
  · rintro l' rfl
    rfl
  · rintro a sp exprs l' - rfl
    exact ⟨_, rfl, rfl⟩
  · rintro l₁ sp exprs rfl hstays
    refine ⟨joinLists l₁, joinLists exprs, ?_, headAtom_joinLists h.items.1⟩
    rw [joinLists, joinListsExpr_of_stays hstays]

section Substitute

variable {vars : List String} {params : List (String × SExpr)}

/-- An atom that is no parameter is not replaced. -/
theorem substituteExpr_of_not_mem (hparams : ∀ a ∉ vars, params.lookup a = none) {a : String}
    (ha : a ∉ vars) (sp : Span) :
    substituteExpr params (.atomNode a sp) = .atomNode a sp := by
  rw [substituteExpr, hparams a ha]
  rfl

/-- A head that is no parameter is kept. -/
theorem headAtom_substitute (hparams : ∀ a ∉ vars, params.lookup a = none) {l : List SExpr}
    (hfree : Free vars l) : headAtom (substitute params l) = headAtom l := by
  match l, hfree with
  | [], _ => rfl
  | .atomNode a sp :: exprs, hfree =>
    rw [substitute, substituteExpr_of_not_mem hparams (hfree.head a rfl)]
    rfl
  | .listNode l₁ sp :: exprs, _ => rfl

/-- So is a name that is none. -/
theorem sameHead_substitute (hparams : ∀ a ∉ vars, params.lookup a = none) {l : List SExpr}
    (hl : wellHeaded l = true) (hfree : Free vars l) (hfixed : Fixed vars l) :
    SameHead l (substitute params l) := by
  refine sameHead_of_copies (fun l l' => l' = substitute params l) (· ∉ vars) ?_ ?_ hl ?_
    hfree.head hfree.name rfl
  · rintro l' rfl
    rfl
  · rintro a sp exprs l' ha rfl
    refine ⟨substitute params exprs, ?_, rfl⟩
    rw [substitute, substituteExpr_of_not_mem hparams ha]
  · rintro l₁ sp exprs rfl -
    exact ⟨_, _, rfl, headAtom_substitute hparams hfixed.items.1⟩

end Substitute

/-! ## The steps keep the forms -/

/-- All lists stay well headed when strings are joined. -/
theorem headed_joinLists {exprs : List SExpr} (h : Headed exprs) : Headed (joinLists exprs) := by
  induction h with
  | nil => exact .nil
  | atom _ ih => exact .atom ih
  | list hP hl _ ihl ih =>
    rw [joinLists, joinListsExpr]
    split
    · exact .atom ih
    · exact .list (sameHead_joinLists hP hl).wellHeaded ihl ih

/-- And when parameters are replaced by values that are well headed. -/
theorem headed_substitute {vars : List String} {params : List (String × SExpr)}
    (hparams : ∀ a ∉ vars, params.lookup a = none)
    (hvalues : ∀ a expr, params.lookup a = some expr → Headed [expr]) {exprs : List SExpr}
    (h : Headed exprs) (hfixed : Fixed vars exprs) : Headed (substitute params exprs) := by
  induction h with
  | nil => exact .nil
  | @atom a sp exprs _ ih =>
    -- the atom stays or becomes a value
    have hhere : Headed [substituteExpr params (.atomNode a sp)] := by
      rw [substituteExpr]
      rcases hlook : params.lookup a with _ | expr
      · exact .atom .nil
      · exact hvalues a expr hlook
    exact hhere.append (ih hfixed.tail)
  | list hP _ _ ihl ih =>
    rcases hfixed.items with ⟨hfree, hfixed'⟩
    exact .list (sameHead_substitute hparams hP hfree hfixed').wellHeaded
      (ihl hfixed') (ih hfixed.tail)

/-- A conditional is no expansion. Its replacement is the rest of it or nothing. -/
theorem stringsCompareReplacement_some {l exprs : List SExpr} {sp : Span} {operation : String}
    {holds : String → String → Bool}
    (h : stringsCompareReplacement l sp operation holds = .ok (some exprs)) :
    headAtom l = some operation ∧ (exprs = l.drop 3 ∨ exprs = []) := by
  unfold stringsCompareReplacement at h
  split at h
  · rename_i hhead
    rcases bind_eq_ok.mp h with ⟨first, -, h⟩
    rcases bind_eq_ok.mp h with ⟨second, -, h⟩
    cases h
    refine ⟨hhead, ?_⟩
    split
    · exact .inl rfl
    · exact .inr rfl
  · cases h

/-- The same for the comparisons with a list. -/
theorem stringListCompareReplacement_some {l exprs : List SExpr} {sp : Span}
    {operation : String} {holds : Bool → Bool}
    (h : stringListCompareReplacement l sp operation holds = .ok (some exprs)) :
    headAtom l = some operation ∧ (exprs = l.drop 3 ∨ exprs = []) := by
  unfold stringListCompareReplacement at h
  split at h
  · rename_i hhead
    rcases bind_eq_ok.mp h with ⟨first, -, h⟩
    rcases bind_eq_ok.mp h with ⟨second, -, h⟩
    cases h
    refine ⟨hhead, ?_⟩
    split
    · exact .inl rfl
    · exact .inr rfl
  · cases h

/-- All four conditionals. -/
theorem conditional_some {l exprs : List SExpr} {sp : Span}
    (h : conditional l sp = .ok (some exprs)) :
    (∃ operation ∈ ["if-equal", "if-not-equal", "if-in-list", "if-not-in-list"],
      headAtom l = some operation) ∧ (exprs = l.drop 3 ∨ exprs = []) := by
  unfold conditional at h
  rcases bind_eq_ok.mp h with ⟨r, hr, h⟩
  -- the four forms are tried one after the other
  rcases r with _ | r
  swap
  · cases h
    rcases stringsCompareReplacement_some hr with ⟨hhead, hexprs⟩
    exact ⟨⟨_, by simp, hhead⟩, hexprs⟩
  rcases bind_eq_ok.mp h with ⟨r, hr, h⟩
  rcases r with _ | r
  swap
  · cases h
    rcases stringsCompareReplacement_some hr with ⟨hhead, hexprs⟩
    exact ⟨⟨_, by simp, hhead⟩, hexprs⟩
  rcases bind_eq_ok.mp h with ⟨r, hr, h⟩
  rcases r with _ | r
  swap
  · cases h
    rcases stringListCompareReplacement_some hr with ⟨hhead, hexprs⟩
    exact ⟨⟨_, by simp, hhead⟩, hexprs⟩
  rcases stringListCompareReplacement_some h with ⟨hhead, hexprs⟩
  exact ⟨⟨_, by simp, hhead⟩, hexprs⟩

/-- None of their words is that of an expansion. -/
theorem isExpand_of_conditional {l exprs : List SExpr} {sp : Span}
    (h : conditional l sp = .ok (some exprs)) : isExpand l = false := by
  rcases (conditional_some h).1 with ⟨operation, hmem, hhead⟩
  unfold isExpand
  rw [hhead]
  simp only [List.mem_cons, List.not_mem_nil, or_false] at hmem
  rcases hmem with rfl | rfl | rfl | rfl <;> decide

/-- A list that stays is no conditional. -/
theorem evaluateConditionals_of_stays {l exprs r : List SExpr} {sp : Span} {changed : Bool}
    (hstays : stays l = true)
    (h : evaluateConditionals (.listNode l sp :: exprs) = .ok (r, changed)) :
    ∃ l' rest changed', r = .listNode l' sp :: rest ∧
      evaluateConditionals l = .ok (l', changed') := by
  rcases bind_eq_ok.mp h with ⟨⟨here, changed₁⟩, hhere, h⟩
  rcases bind_eq_ok.mp h with ⟨⟨rest, changed₂⟩, hrest, h⟩
  cases h
  rcases bind_eq_ok.mp hhere with ⟨replacement, hr, hhere⟩
  rcases replacement with _ | replacement
  · rcases bind_eq_ok.mp hhere with ⟨⟨l', changed₃⟩, hl', hhere⟩
    cases hhere
    exact ⟨l', rest, _, rfl, hl'⟩
  · rcases (conditional_some hr).1 with ⟨operation, hmem, hhead⟩
    -- a conditional would have one of the words as its head
    refine absurd (List.mem_cons_of_mem _ (List.mem_cons_of_mem _ ?_))
      (not_mem_words hstays hhead)
    exact List.mem_cons_of_mem _ hmem

/-- An atom is copied. -/
theorem evaluateConditionals_atom {a : String} {sp : Span} {exprs l' : List SExpr}
    {changed : Bool}
    (h : evaluateConditionals (.atomNode a sp :: exprs) = .ok (l', changed)) :
    ∃ exprs', l' = .atomNode a sp :: exprs' ∧
      ∃ changed, evaluateConditionals exprs = .ok (exprs', changed) := by
  rcases bind_eq_ok.mp h with ⟨⟨here, changed₁⟩, hhere, h⟩
  rcases bind_eq_ok.mp h with ⟨⟨rest, changed₂⟩, hrest, h⟩
  cases hhere
  cases h
  exact ⟨rest, rfl, changed₂, hrest⟩

/-- Evaluating conditionals inside keeps the head. -/
theorem headAtom_evaluateConditionals {l l' : List SExpr} {changed : Bool}
    (hl : wellHeaded l = true) (h : evaluateConditionals l = .ok (l', changed)) :
    headAtom l' = headAtom l := by
  match l, hl with
  | [], _ =>
    cases h
    rfl
  | .atomNode a sp :: exprs, _ =>
    rcases evaluateConditionals_atom h with ⟨exprs', rfl, -⟩
    rfl
  | .listNode l₁ sp :: exprs, hl =>
    rcases evaluateConditionals_of_stays hl h with ⟨l₂, rest, -, rfl, -⟩
    rfl

/-- And the name of an expansion. -/
theorem sameHead_evaluateConditionals {l l' : List SExpr} {changed : Bool}
    (hl : wellHeaded l = true) (hheaded : Headed l)
    (h : evaluateConditionals l = .ok (l', changed)) : SameHead l l' := by
  refine sameHead_of_copies (fun l l' => ∃ changed, evaluateConditionals l = .ok (l', changed))
    (fun _ => True) ?_ ?_ hl ?_ (fun _ _ => trivial) (fun _ _ _ => trivial) ⟨changed, h⟩
  · rintro l' ⟨changed, h⟩
    cases h
    rfl
  · rintro a sp exprs l' - ⟨changed, h⟩
    exact evaluateConditionals_atom h
  · rintro l₁ sp exprs rfl hstays
    rcases evaluateConditionals_of_stays hstays h with ⟨l₂, rest, changed', rfl, hl₂⟩
    exact ⟨l₂, rest, rfl, headAtom_evaluateConditionals hheaded.items.1 hl₂⟩

/-- All lists stay well headed. -/
theorem headed_evaluateConditionals {exprs : List SExpr} (h : Headed exprs) :
    ∀ {exprs' : List SExpr} {changed : Bool},
      evaluateConditionals exprs = .ok (exprs', changed) → Headed exprs' := by
  induction h with
  | nil =>
    intro exprs' changed heval
    cases heval
    exact .nil
  | atom _ ih =>
    intro exprs' changed heval
    rcases bind_eq_ok.mp heval with ⟨⟨here, changed₁⟩, hhere, heval⟩
    rcases bind_eq_ok.mp heval with ⟨⟨rest, changed₂⟩, hrest, heval⟩
    cases hhere
    cases heval
    exact .atom (ih hrest)
  | @list l sp exprs hP hl _ ihl ih =>
    intro exprs' changed heval
    rcases bind_eq_ok.mp heval with ⟨⟨here, changed₁⟩, hhere, heval⟩
    rcases bind_eq_ok.mp heval with ⟨⟨rest, changed₂⟩, hrest, heval⟩
    cases heval
    refine AllLists.append ?_ (ih hrest)
    rcases bind_eq_ok.mp hhere with ⟨r, hr, hhere⟩
    rcases r with _ | replacement
    · rcases bind_eq_ok.mp hhere with ⟨⟨l', changed₃⟩, hl', hhere⟩
      cases hhere
      exact .list (sameHead_evaluateConditionals hP hl hl').wellHeaded (ihl hl') .nil
    · cases hhere
      rcases (conditional_some hr).2 with rfl | rfl
      -- the rest of a conditional, behind its word and what it compares
      · exact hl.drop 3
      · exact .nil

/-! ## The cost -/

/-- What an expansion of the cost `n` is good for. -/
def callCost (F : String → Nat → Nat) (l : List SExpr) (n : Nat) : Nat :=
  if isExpand l then
    match nameOf l with
    | some name => F name n
    | none => n
  else n

mutual

/-- What the expressions are good for. `F name n` is that of an expansion of the cost `n`, and
`v a` that of an atom. -/
def cost (F : String → Nat → Nat) (v : String → Nat) : List SExpr → Nat
  | [] => 0
  | expr :: exprs => costExpr F v expr + cost F v exprs

def costExpr (F : String → Nat → Nat) (v : String → Nat) : SExpr → Nat
  | .atomNode a _ => v a
  | .listNode l _ => 1 + callCost F l (cost F v l)

end

/-- The cost of the parameters of a template, when its values cost `n`. -/
def paramCost (vars : List String) (n : Nat) (a : String) : Nat := if a ∈ vars then n else 1

/-- Every expression without parameters costs one for each atom. -/
def atomCost (_ : String) : Nat := 1

/-- `F` bounds the contents of the templates. -/
structure Bounds (templates : List Template) (F : String → Nat → Nat) : Prop where
  mono : ∀ name, Monotone (F name)
  le : ∀ name n, n ≤ F name n
  content : ∀ t ∈ templates, ∀ n, 1 ≤ n →
    cost F (paramCost t.varsSubstituteNames n) t.content ≤ F t.name n

section Cost

variable {F : String → Nat → Nat}

/-- The cost of a list depends on its head and name. -/
theorem callCost_of_sameHead {l l' : List SExpr} (h : SameHead l l') (n : Nat) :
    callCost F l' n = callCost F l n := by
  unfold callCost
  rw [h.isExpand]
  split
  · rename_i hcall
    rw [h.name hcall]
  · rfl

/-- Other lists cost what their items do. -/
theorem callCost_of_not {l : List SExpr} (h : isExpand l = false) (n : Nat) :
    callCost F l n = n := by
  unfold callCost
  rw [h]
  rfl

/-- More inside costs no less. -/
theorem callCost_mono (hmono : ∀ name, Monotone (F name))
    (l : List SExpr) {m n : Nat} (h : m ≤ n) : callCost F l m ≤ callCost F l n := by
  unfold callCost
  split
  · split
    · exact hmono _ h
    · exact h
  · exact h

/-- An expansion costs what its items do at least. -/
theorem le_callCost (hle : ∀ name n, n ≤ F name n) (l : List SExpr) (n : Nat) :
    n ≤ callCost F l n := by
  unfold callCost
  split
  · split
    · exact hle _ n
    · exact Nat.le_refl n
  · exact Nat.le_refl n

/-- The cost of two parts. -/
theorem cost_append (v : String → Nat) (exprs exprs' : List SExpr) :
    cost F v (exprs ++ exprs') = cost F v exprs + cost F v exprs' := by
  induction exprs with
  | nil => simp [cost]
  | cons expr exprs ih => rw [List.cons_append, cost, cost, ih, Nat.add_assoc]

/-- A part costs no more. -/
theorem cost_drop_le (v : String → Nat) (exprs : List SExpr) (n : Nat) :
    cost F v (exprs.drop n) ≤ cost F v exprs := by
  -- the part that is left out costs something or nothing
  have h := cost_append (F := F) v (exprs.take n) (exprs.drop n)
  rw [List.take_append_drop] at h
  omega

/-- Nor does one of the expressions. -/
theorem costExpr_le_cost (v : String → Nat) {exprs : List SExpr} {expr : SExpr}
    (h : expr ∈ exprs) : costExpr F v expr ≤ cost F v exprs := by
  induction exprs with
  | nil => cases h
  | cons e exprs ih =>
    rw [cost]
    rcases List.mem_cons.mp h with rfl | h
    · exact Nat.le_add_right _ _
    · exact Nat.le_trans (ih h) (Nat.le_add_left _ _)

/-- Replacing the parameters makes of the bound for the template one for the instance. -/
theorem cost_substitute (hmono : ∀ name, Monotone (F name))
    {vars : List String} {params : List (String × SExpr)} {n : Nat}
    (hparams : ∀ a ∉ vars, params.lookup a = none)
    (hvalues : ∀ a expr, params.lookup a = some expr → costExpr F atomCost expr ≤ n)
    (hn : 1 ≤ n) {exprs : List SExpr} (h : Headed exprs) (hfixed : Fixed vars exprs) :
    cost F atomCost (substitute params exprs) ≤ cost F (paramCost vars n) exprs := by
  induction h with
  | nil => exact Nat.le_refl 0
  | @atom a sp exprs _ ih =>
    rw [substitute, cost, cost]
    refine Nat.add_le_add ?_ (ih hfixed.tail)
    by_cases ha : a ∈ vars
    -- a parameter counts as all values together
    · rw [substituteExpr, costExpr, paramCost, if_pos ha]
      rcases hlook : params.lookup a with _ | expr
      · exact hn
      · exact hvalues a expr hlook
    · rw [substituteExpr_of_not_mem hparams ha, costExpr, costExpr, paramCost, if_neg ha]
      exact Nat.le_refl 1
  | @list l sp exprs hP _ _ ihl ih =>
    rw [substitute, cost, cost]
    refine Nat.add_le_add ?_ (ih hfixed.tail)
    rcases hfixed.items with ⟨hfree, hfixed'⟩
    rw [substituteExpr, costExpr, costExpr,
      callCost_of_sameHead (sameHead_substitute hparams hP hfree hfixed')]
    exact Nat.add_le_add_left (callCost_mono hmono l (ihl hfixed')) 1

/-- Joining strings lowers the cost or keeps it. -/
theorem cost_joinLists (hmono : ∀ name, Monotone (F name))
    {exprs : List SExpr} (h : Headed exprs) :
    cost F atomCost (joinLists exprs) ≤ cost F atomCost exprs := by
  induction h with
  | nil => exact Nat.le_refl 0
  | atom _ ih =>
    rw [joinLists, cost, cost]
    exact Nat.add_le_add (Nat.le_refl _) ih
  | @list l sp exprs hP hl _ ihl ih =>
    rw [joinLists, cost, cost]
    refine Nat.add_le_add ?_ ih
    rw [joinListsExpr, costExpr]
    split
    · exact Nat.le_add_right 1 _
    · rw [costExpr, callCost_of_sameHead (sameHead_joinLists hP hl)]
      exact Nat.add_le_add_left (callCost_mono hmono l ihl) 1

/-- So does evaluating conditionals. -/
theorem cost_evaluateConditionals
    (hmono : ∀ name, Monotone (F name))
    {exprs : List SExpr} (h : Headed exprs) : ∀ {exprs' : List SExpr} {changed : Bool},
      evaluateConditionals exprs = .ok (exprs', changed) →
        cost F atomCost exprs' ≤ cost F atomCost exprs := by
  induction h with
  | nil =>
    intro exprs' changed heval
    cases heval
    exact Nat.le_refl 0
  | atom _ ih =>
    intro exprs' changed heval
    rcases bind_eq_ok.mp heval with ⟨⟨here, changed₁⟩, hhere, heval⟩
    rcases bind_eq_ok.mp heval with ⟨⟨rest, changed₂⟩, hrest, heval⟩
    cases hhere
    cases heval
    exact Nat.add_le_add (Nat.le_refl _) (ih hrest)
  | @list l sp exprs hP hl _ ihl ih =>
    intro exprs' changed heval
    rcases bind_eq_ok.mp heval with ⟨⟨here, changed₁⟩, hhere, heval⟩
    rcases bind_eq_ok.mp heval with ⟨⟨rest, changed₂⟩, hrest, heval⟩
    cases heval
    rw [cost_append, cost]
    refine Nat.add_le_add ?_ (ih hrest)
    rcases bind_eq_ok.mp hhere with ⟨r, hr, hhere⟩
    rcases r with _ | replacement
    · rcases bind_eq_ok.mp hhere with ⟨⟨l', changed₃⟩, hl', hhere⟩
      cases hhere
      rw [cost, costExpr, costExpr,
        callCost_of_sameHead (sameHead_evaluateConditionals hP hl hl'), cost, Nat.add_zero]
      exact Nat.add_le_add_left (callCost_mono hmono l (ihl hl')) 1
    · cases hhere
      rw [costExpr, callCost_of_not (isExpand_of_conditional hr)]
      rcases (conditional_some hr).2 with rfl | rfl
      · exact Nat.le_trans (cost_drop_le atomCost l 3) (Nat.le_add_left _ 1)
      · exact Nat.zero_le _

end Cost

end Kanata.Templates
