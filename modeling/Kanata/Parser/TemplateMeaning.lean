import Kanata.Parser.TemplateExpansion

/-!
# Kanata.Parser.TemplateMeaning — what a configuration with templates means

* `expandTemplates_total`: the expansion ends, with an error or with no expansion left, when
  heads and names are those that are written (`Disciplined`): no list begins with a list that
  is replaced, an expansion names its template by an atom, and inside a template neither a
  head nor such a name is a parameter.
* `expandTemplates_iff`: it then gives what the configuration means (`Means`), where every
  expansion is replaced once and for all by what its contents mean.

Without the condition the passes can repeat forever, or leave an expansion whose head comes
from another one.
-/

namespace Kanata.Templates

open Fallible

/-! ## The meaning -/

/-- What an expansion is replaced by. -/
def Instance (templates : List Template) (l : List SExpr) (sp : Span) (content : List SExpr) :
    Prop :=
  ∃ fuel, instantiate templates fuel l sp = .ok content

/-- What expressions mean: an expansion is what its contents mean. -/
inductive Means (templates : List Template) : List SExpr → List SExpr → Prop where
  | nil : Means templates [] []
  | atom {a : String} {sp : Span} {exprs r : List SExpr} (h : Means templates exprs r) :
      Means templates (.atomNode a sp :: exprs) (.atomNode a sp :: r)
  | list {l l' : List SExpr} {sp : Span} {exprs r : List SExpr} (hl : isExpand l = false)
      (hinside : Means templates l l') (h : Means templates exprs r) :
      Means templates (.listNode l sp :: exprs) (.listNode l' sp :: r)
  | expansion {l content here : List SExpr} {sp : Span} {exprs r : List SExpr}
      (hl : isExpand l = true) (hcontent : Instance templates l sp content)
      (hhere : Means templates content here) (h : Means templates exprs r) :
      Means templates (.listNode l sp :: exprs) (here ++ r)

section Means

variable {templates : List Template}

/-- An evaluation that has ended gives the same with more fuel. -/
theorem evaluateAll_of_le {fuel fuel' : Nat} {exprs : List SExpr} (hle : fuel ≤ fuel')
    (h : evaluateAll fuel exprs ≠ .error none) :
    evaluateAll fuel' exprs = evaluateAll fuel exprs := by
  induction hle with
  | refl => rfl
  | step _ ih => rw [evaluateAll_succ (ih ▸ h), ih]

/-- Two evaluations that end give the same. -/
theorem evaluateAll_agree {fuel fuel' : Nat} {exprs : List SExpr}
    (h : evaluateAll fuel exprs ≠ .error none) (h' : evaluateAll fuel' exprs ≠ .error none) :
    evaluateAll fuel exprs = evaluateAll fuel' exprs := by
  rw [← evaluateAll_of_le (Nat.le_max_left fuel fuel') h,
    ← evaluateAll_of_le (Nat.le_max_right fuel fuel') h']

/-- An expansion has one instance. -/
theorem Instance.unique {l content content' : List SExpr} {sp : Span}
    (h : Instance templates l sp content) (h' : Instance templates l sp content') :
    content = content' := by
  rcases h with ⟨fuel, h⟩
  rcases h' with ⟨fuel', h'⟩
  rcases instantiate_cases templates l sp with ⟨e, herror⟩ | ⟨t, -, -, heq⟩
  · cases (herror fuel).symm.trans h
  · rw [heq] at h h'
    -- both evaluations end, one of them with less fuel
    have hagree := evaluateAll_agree (h ▸ ok_ne_none content) (h' ▸ ok_ne_none content')
    rw [h, h'] at hagree
    exact Except.ok.inj hagree

/-- An expansion with an instance does not fail. -/
theorem Instance.ne_error {l content : List SExpr} {sp : Span}
    (h : Instance templates l sp content) {fuel : Nat} {e : ParseFault} :
    instantiate templates fuel l sp ≠ .error (some e) := by
  intro herror
  rcases h with ⟨fuel', h⟩
  rcases instantiate_cases templates l sp with ⟨e', hfails⟩ | ⟨t, -, -, heq⟩
  · cases (hfails fuel').symm.trans h
  · rw [heq] at herror h
    have hagree := evaluateAll_agree (herror ▸ some_ne_none e) (h ▸ ok_ne_none content)
    rw [herror, h] at hagree
    cases hagree

/-- Expressions mean one thing. -/
theorem Means.unique {exprs r : List SExpr} (h : Means templates exprs r) :
    ∀ {r' : List SExpr}, Means templates exprs r' → r' = r := by
  induction h with
  | nil =>
    intro r' h'
    cases h'
    rfl
  | atom _ ih =>
    intro r' h'
    cases h' with
    | atom h' => rw [ih h']
  | list hl _ _ ihl ih =>
    intro r' h'
    cases h' with
    | list _ hinside h' => rw [ihl hinside, ih h']
    | expansion hl' _ _ _ => cases hl.symm.trans hl'
  | expansion hl hcontent _ _ ihhere ih =>
    intro r' h'
    cases h' with
    | list hl' _ _ => cases hl.symm.trans hl'
    | expansion _ hcontent' hhere h' =>
      rw [hcontent'.unique hcontent] at hhere
      rw [ihhere hhere, ih h']

/-- Two parts mean what they mean one by one. -/
theorem means_append {exprs exprs' r : List SExpr} :
    Means templates (exprs ++ exprs') r ↔
      ∃ r₁ r₂, r = r₁ ++ r₂ ∧ Means templates exprs r₁ ∧ Means templates exprs' r₂ := by
  constructor
  · intro h
    induction exprs generalizing r with
    | nil => exact ⟨[], r, rfl, .nil, h⟩
    | cons expr exprs ih =>
      cases h with
      | atom h =>
        rcases ih h with ⟨r₁, r₂, rfl, h₁, h₂⟩
        exact ⟨_ :: r₁, r₂, rfl, .atom h₁, h₂⟩
      | list hl hinside h =>
        rcases ih h with ⟨r₁, r₂, rfl, h₁, h₂⟩
        exact ⟨_ :: r₁, r₂, rfl, .list hl hinside h₁, h₂⟩
      | @expansion _ _ here _ _ _ hl hcontent hhere h =>
        rcases ih h with ⟨r₁, r₂, rfl, h₁, h₂⟩
        exact ⟨here ++ r₁, r₂, (List.append_assoc here r₁ r₂).symm,
          .expansion hl hcontent hhere h₁, h₂⟩
  · rintro ⟨r₁, r₂, rfl, h₁, h₂⟩
    induction h₁ with
    | nil => exact h₂
    | atom _ ih => exact .atom ih
    | list hl hinside _ _ ih => exact .list hl hinside ih
    | expansion hl hcontent hhere _ _ ih =>
      rw [List.append_assoc]
      exact .expansion hl hcontent hhere ih

/-- Without expansions the expressions mean themselves. -/
theorem means_of_noCalls {exprs : List SExpr} (h : NoCalls exprs) :
    Means templates exprs exprs := by
  induction h with
  | nil => exact .nil
  | atom _ ih => exact .atom ih
  | list hl _ _ ihl ih => exact .list hl ihl ih

end Means

/-! ## The passes keep the meaning -/

section Passes

variable {templates : List Template} {F : String → Nat → Nat} {fuel : Nat}
  {deeper : List SExpr → Steps (List SExpr)}

/-- A pass does not change what the expressions mean. -/
theorem pass_means (hdeeper : ∀ l l', Headed l → deeper l = .ok l' →
      Means templates l l' ∧ Keeps F l l' ∧ NoCalls l')
    {exprs : List SExpr} (hexprs : Headed exprs) : ∀ {exprs' : List SExpr} {replaced : Bool},
      pass templates fuel deeper exprs = .ok (exprs', replaced) →
        ∀ r, Means templates exprs' r ↔ Means templates exprs r := by
  induction hexprs with
  | nil =>
    intro exprs' replaced h r
    cases h
    rfl
  | atom _ ih =>
    intro exprs' replaced h r
    rcases pass_atom h with ⟨rest, rfl, hrest⟩
    constructor
    · intro hmeans
      cases hmeans with
      | atom hmeans => exact .atom ((ih hrest _).mp hmeans)
    · intro hmeans
      cases hmeans with
      | atom hmeans => exact .atom ((ih hrest _).mpr hmeans)
  | @list l sp exprs hl hheaded _ _ ih =>
    intro exprs' replaced h r
    rcases pass_list h with ⟨rest, replaced', hrest, hcases⟩
    rcases hcases with ⟨hcall, -, l', hl', rfl⟩ | ⟨hcall, -, content, hcontent, rfl⟩
    · rcases hdeeper l l' hheaded hl' with ⟨hinside, hkeeps, hnocalls⟩
      -- the list is no expansion after the steps inside it either
      have hcall' : isExpand l' = false := (hkeeps.sameHead hl).isExpand.trans hcall
      constructor
      · intro hmeans
        cases hmeans with
        | list _ hmeans' hmeans =>
          rw [(means_of_noCalls hnocalls).unique hmeans']
          exact .list hcall hinside ((ih hrest _).mp hmeans)
        | expansion hcall'' _ _ _ => cases hcall'.symm.trans hcall''
      · intro hmeans
        cases hmeans with
        | list _ hmeans' hmeans =>
          rw [hinside.unique hmeans']
          exact .list hcall' (means_of_noCalls hnocalls) ((ih hrest _).mpr hmeans)
        | expansion hcall'' _ _ _ => cases hcall.symm.trans hcall''
    · rw [means_append]
      constructor
      · rintro ⟨r₁, r₂, rfl, hmeans₁, hmeans₂⟩
        exact .expansion hcall ⟨fuel, hcontent⟩ hmeans₁ ((ih hrest _).mp hmeans₂)
      · intro hmeans
        cases hmeans with
        | list hcall' _ _ => cases hcall.symm.trans hcall'
        | expansion _ hcontent' hhere hmeans =>
          rw [hcontent'.unique ⟨fuel, hcontent⟩] at hhere
          exact ⟨_, _, rfl, hhere, (ih hrest _).mpr hmeans⟩

/-- Where two steps fail, the first one does or the second one. -/
theorem bind_eq_error {α β : Type} {x : Steps α} {f : α → Steps β} {e : Option ParseFault}
    (h : (x >>= f) = .error e) : x = .error e ∨ ∃ a, x = .ok a ∧ f a = .error e := by
  match x with
  | .ok a => exact .inr ⟨a, rfl, h⟩
  | .error e' =>
    left
    cases h
    rfl

/-- Where a pass fails the expressions mean nothing. -/
theorem pass_error (hdeeper : ∀ l e, Headed l → deeper l = .error (some e) →
      ∀ r, ¬ Means templates l r)
    {exprs : List SExpr} (hexprs : Headed exprs) {e : ParseFault}
    (h : pass templates fuel deeper exprs = .error (some e)) :
    ∀ r, ¬ Means templates exprs r := by
  induction hexprs with
  | nil => cases h
  | atom _ ih =>
    intro r hmeans
    cases hmeans with
    | atom hmeans =>
      rcases bind_eq_error h with hhere | ⟨_, -, h⟩
      · cases hhere
      · rcases bind_eq_error h with hrest | ⟨_, -, h⟩
        · exact ih hrest _ hmeans
        · cases h
  | @list l sp exprs _ hheaded _ _ ih =>
    intro r hmeans
    rcases bind_eq_error h with hhere | ⟨_, -, h⟩
    · rw [passExpr] at hhere
      cases hmeans with
      | list hcall hinside _ =>
        rw [hcall] at hhere
        rcases bind_eq_error hhere with hl' | ⟨_, -, hhere⟩
        · exact hdeeper l e hheaded hl' _ hinside
        · cases hhere
      | expansion hcall hcontent _ _ =>
        rw [if_pos hcall] at hhere
        rcases bind_eq_error hhere with herror | ⟨_, -, hhere⟩
        · exact hcontent.ne_error herror
        · cases hhere
    · rcases bind_eq_error h with hrest | ⟨_, -, h⟩
      · cases hmeans with
        | list _ _ hmeans => exact ih hrest _ hmeans
        | expansion _ _ _ hmeans => exact ih hrest _ hmeans
      · cases h

/-- What the passes end with is what the expressions mean. -/
theorem expand_means (hF : Bounds templates F) (hdisc : ∀ t ∈ templates, t.Disciplined) :
    ∀ {fuel : Nat} {exprs r : List SExpr}, Headed exprs →
      expand templates fuel exprs = .ok r → Means templates exprs r
  | 0, _, _, _, h => nomatch h
  | fuel + 1, exprs, r, hexprs, h => by
    rcases bind_eq_ok.mp h with ⟨⟨exprs', replaced⟩, hpass, h⟩
    have hdeeper : ∀ l l', Headed l → expand templates fuel l = .ok l' →
        Means templates l l' ∧ Keeps F l l' ∧ NoCalls l' := fun l l' hl hl' =>
      ⟨expand_means hF hdisc hl hl', expand_keeps hF hdisc hl hl'⟩
    -- induction on the fuel, for the next pass and for the lists inside
    rcases pass_keeps hF hdisc (fun l l' hl hl' => (hdeeper l l' hl hl').2.1)
      (fun l l' hl hl' => (hdeeper l l' hl hl').2.2) hexprs hpass with ⟨hkeeps, -, hdone⟩
    rw [← pass_means hdeeper hexprs hpass]
    cases replaced with
    | false =>
      cases h
      exact means_of_noCalls (hdone rfl)
    | true => exact expand_means hF hdisc hkeeps.headed h

/-- Where the passes fail, they mean nothing. -/
theorem expand_error (hF : Bounds templates F) (hdisc : ∀ t ∈ templates, t.Disciplined) :
    ∀ {fuel : Nat} {exprs : List SExpr} {e : ParseFault}, Headed exprs →
      expand templates fuel exprs = .error (some e) → ∀ r, ¬ Means templates exprs r
  | 0, _, _, _, h => nomatch h
  | fuel + 1, exprs, e, hexprs, h => by
    rcases bind_eq_error h with hpass | ⟨⟨exprs', replaced⟩, hpass, h⟩
    · exact pass_error (fun l e hl herror => expand_error hF hdisc hl herror) hexprs hpass
    · have hdeeper : ∀ l l', Headed l → expand templates fuel l = .ok l' →
          Means templates l l' ∧ Keeps F l l' ∧ NoCalls l' := fun l l' hl hl' =>
        ⟨expand_means hF hdisc hl hl', expand_keeps hF hdisc hl hl'⟩
      rcases pass_keeps hF hdisc (fun l l' hl hl' => (hdeeper l l' hl hl').2.1)
        (fun l l' hl hl' => (hdeeper l l' hl hl').2.2) hexprs hpass with ⟨hkeeps, -, -⟩
      intro r hmeans
      rw [← pass_means hdeeper hexprs hpass] at hmeans
      cases replaced with
      | false => cases h
      | true => exact expand_error hF hdisc hkeeps.headed h r hmeans

end Passes

/-! ## The configuration -/

/-- The lists at the top as expressions. -/
def listNodes (toplevel : List (List SExpr × Span)) : List SExpr :=
  toplevel.map fun tl => .listNode tl.1 tl.2

/-- Heads and names are those that are written. -/
structure Disciplined (toplevel : List (List SExpr × Span)) : Prop where
  headed : Headed (listNodes toplevel)
  fixed : ∀ templates, parseTemplates toplevel [] = .ok templates →
    ∀ t ∈ templates, Fixed t.varsSubstituteNames t.content

/-- The items of a list at the top. -/
theorem AllLists.of_listNodes {P : List SExpr → Prop} {toplevel : List (List SExpr × Span)}
    (h : AllLists P (listNodes toplevel)) {tl : List SExpr × Span} (hmem : tl ∈ toplevel) :
    AllLists P tl.1 :=
  (h.mem (List.mem_map_of_mem hmem)).items.2

/-- The templates of such a configuration are disciplined. -/
theorem Disciplined.templates {toplevel : List (List SExpr × Span)} (h : Disciplined toplevel)
    {templates : List Template} (hparse : parseTemplates toplevel [] = .ok templates) :
    ∀ t ∈ templates, t.Disciplined := by
  intro t ht
  refine ⟨?_, h.fixed templates hparse t ht⟩
  rcases mem_parseTemplates hparse t ht with hold | ⟨tl, hmem, -, hcontent⟩
  · cases hold
  · rw [hcontent]
    exact (h.headed.of_listNodes hmem).drop 3

/-- The result has lists at the top only. -/
theorem toTopLevel_ok : ∀ {exprs : List SExpr} {out : List (List SExpr × Span)},
    toTopLevel exprs = .ok out ↔ exprs = listNodes out
  | [], out => by
    cases out with
    | nil => exact ⟨fun _ => rfl, fun _ => rfl⟩
    | cons tl out => constructor <;> intro h <;> cases h
  | .atomNode a sp :: exprs, out => by
    cases out with
    | nil => constructor <;> intro h <;> cases h
    | cons tl out => constructor <;> intro h <;> cases h
  | .listNode l sp :: exprs, out => by
    constructor
    · intro h
      rcases bind_eq_ok.mp h with ⟨rest, hrest, h⟩
      cases h
      rw [toTopLevel_ok.mp hrest]
      rfl
    · intro h
      cases out with
      | nil => cases h
      | cons tl out =>
        cases h
        exact bind_eq_ok.mpr ⟨out, toTopLevel_ok.mpr rfl, rfl⟩

/-- The templates are read first. -/
theorem expandTemplates_of_parse {toplevel : List (List SExpr × Span)} {templates : List Template}
    (hparse : parseTemplates toplevel [] = .ok templates) (fuel : Nat) :
    expandTemplates fuel toplevel =
      (expand templates fuel (listNodes toplevel) >>= fun exprs =>
        liftParse (toTopLevel exprs)) := by
  unfold expandTemplates
  rw [hparse]
  rfl

/-- An error of the parser is one of the steps. -/
theorem liftParse_ok {α : Type} {x : Parse α} {a : α} : liftParse x = .ok a ↔ x = .ok a := by
  cases x with
  | ok a' => exact ⟨fun h => congrArg Except.ok (Except.ok.inj h), fun h => by cases h; rfl⟩
  | error e => constructor <;> intro h <;> cases h

/-- The passes give the lists of the result. -/
theorem expandTemplates_ok {toplevel out : List (List SExpr × Span)} {templates : List Template}
    (hparse : parseTemplates toplevel [] = .ok templates) {fuel : Nat} :
    expandTemplates fuel toplevel = .ok out ↔
      expand templates fuel (listNodes toplevel) = .ok (listNodes out) := by
  rw [expandTemplates_of_parse hparse, bind_eq_ok]
  constructor
  · rintro ⟨exprs, hexprs, hout⟩
    rw [hexprs, toTopLevel_ok.mp (liftParse_ok.mp hout)]
  · intro h
    exact ⟨_, h, liftParse_ok.mpr (toTopLevel_ok.mpr rfl)⟩

/-- The expansion of a disciplined configuration ends, with an error or without an expansion
left. -/
theorem expandTemplates_total {toplevel : List (List SExpr × Span)} (h : Disciplined toplevel) :
    ∃ fuel r, r ≠ .error none ∧ (∀ fuel' ≥ fuel, expandTemplates fuel' toplevel = r) ∧
      ∀ out, r = .ok out → NoCalls (listNodes out) := by
  rcases hparse : parseTemplates toplevel [] with e | templates
  · refine ⟨0, .error (some e), some_ne_none e, fun fuel' _ => ?_, fun out hout => ?_⟩
    · unfold expandTemplates
      rw [hparse]
      rfl
    · cases hout
  · rcases (ordered_parseTemplates .nil hparse).exists_bounds with ⟨F, hF⟩
    have hdisc := h.templates hparse
    -- every pass that replaces something lowers the cost
    let fuel := cost F atomCost (listNodes toplevel) + 1
    have htotal : expand templates fuel (listNodes toplevel) ≠ .error none :=
      expand_total hF hdisc h.headed (Nat.lt_succ_self _)
    refine ⟨fuel, expandTemplates fuel toplevel, ?_, fun fuel' hle => ?_, fun out hout => ?_⟩
    · rw [expandTemplates_of_parse hparse]
      refine bind_ne_none htotal fun exprs _ => ?_
      rcases toTopLevel exprs with e | out
      · exact some_ne_none e
      · exact ok_ne_none out
    · rw [expandTemplates_of_parse hparse, expandTemplates_of_parse hparse,
        expand_of_le hle htotal]
    · exact (expand_keeps hF hdisc h.headed ((expandTemplates_ok hparse).mp hout)).2

/-- A parameter at the head can bring the expansion back: `(deftemplate a (x) ($x a $x))` and
`(t! a t!)`. -/
example (sp : Span) (fuel : Nat) : expand [⟨"a", ["x"],
      [.listNode [.atomNode "$x" sp, .atomNode "a" sp, .atomNode "$x" sp] sp]⟩] fuel
    [.listNode [.atomNode "t!" sp, .atomNode "a" sp, .atomNode "t!" sp] sp] = .error none := by
  induction fuel with
  | zero => rfl
  | succ fuel ih =>
    rw [expand]
    cases fuel with
    | zero => rfl
    | succ fuel => exact ih

/-- An atom at no position. -/
def word (a : String) : SExpr := .atomNode a default

/-- A list at no position. -/
def group (l : List SExpr) : SExpr := .listNode l default

/-- `(deftemplate twice (x) (g $x $x))` and `(h (t! twice (t! twice a)))`. -/
def twiceTwice : List (List SExpr × Span) :=
  [([word "deftemplate", word "twice", group [word "x"], group [word "g", word "$x", word "$x"]],
    default),
   ([word "h", group [word "t!", word "twice", group [word "t!", word "twice", word "a"]]],
    default)]

/-- Neither a head nor a name is a parameter. -/
theorem disciplined_twiceTwice : Disciplined twiceTwice := by
  constructor
  · repeat' constructor
  · intro templates h t ht
    cases h
    rcases List.mem_singleton.mp ht with rfl
    refine .list ⟨?_, ?_⟩ (.atom (.atom (.atom .nil))) .nil
    · rintro a h
      cases h
      decide
    · intro hcall
      cases hcall

/-- The nested expansion ends. -/
theorem expandTemplates_total_twice : ∃ fuel r, r ≠ .error none ∧
    (∀ fuel' ≥ fuel, expandTemplates fuel' twiceTwice = r) ∧
      ∀ out, r = .ok out → NoCalls (listNodes out) :=
  expandTemplates_total disciplined_twiceTwice

/-- A disciplined configuration expands to what it means. -/
theorem expandTemplates_iff {toplevel : List (List SExpr × Span)} (h : Disciplined toplevel)
    (out : List (List SExpr × Span)) :
    (∃ fuel, expandTemplates fuel toplevel = .ok out) ↔
      ∃ templates, parseTemplates toplevel [] = .ok templates ∧
        Means templates (listNodes toplevel) (listNodes out) := by
  constructor
  · rintro ⟨fuel, hout⟩
    rcases hparse : parseTemplates toplevel [] with e | templates
    · unfold expandTemplates at hout
      rw [hparse] at hout
      cases hout
    · rcases (ordered_parseTemplates .nil hparse).exists_bounds with ⟨F, hF⟩
      exact ⟨templates, rfl, expand_means hF (h.templates hparse) h.headed
        ((expandTemplates_ok hparse).mp hout)⟩
  · rintro ⟨templates, hparse, hmeans⟩
    rcases (ordered_parseTemplates .nil hparse).exists_bounds with ⟨F, hF⟩
    have hdisc := h.templates hparse
    refine ⟨cost F atomCost (listNodes toplevel) + 1, (expandTemplates_ok hparse).mpr ?_⟩
    have htotal := expand_total hF hdisc h.headed (Nat.lt_succ_self _)
    -- it ends, and neither fails nor gives something else
    match hexpand : expand templates (cost F atomCost (listNodes toplevel) + 1)
        (listNodes toplevel) with
    | .ok r => rw [hmeans.unique (expand_means hF hdisc h.headed hexpand)]
    | .error none => exact absurd hexpand htotal
    | .error (some e) => exact absurd hmeans (expand_error hF hdisc h.headed hexpand _)

/-- And gives what it means, with the inner one twice. -/
theorem expandTemplates_iff_twice : ∃ templates, parseTemplates twiceTwice [] = .ok templates ∧
    Means templates (listNodes twiceTwice) (listNodes (twiceTwice.take 1 ++
      [([word "h", group [word "g", group [word "g", word "a", word "a"],
        group [word "g", word "a", word "a"]]], default)])) :=
  (expandTemplates_iff disciplined_twiceTwice _).mp ⟨6, rfl⟩

end Kanata.Templates
