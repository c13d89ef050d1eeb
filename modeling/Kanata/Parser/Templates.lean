import Kanata.Parser.Vars

/-!
# Kanata.Parser.Templates — `deftemplate` and `template-expand`

`expand_templates` of `parser/src/cfg/deftemplate.rs`. The templates are read first, in order.
Then `expand` goes over the expressions in passes: a pass expands the lists inside, reads the
expansions of its own level, and puts their contents in their places; it is repeated until
there was nothing to expand. The contents of a template are instantiated by substituting the
parameters, joining the lists of `concat` and evaluating the conditionals until none changes.

A pass that puts in what has to be expanded again can repeat forever, so the passes have fuel:
`none` as an error is that it was not enough.
-/

namespace Kanata.Templates

open Fallible

structure Template where
  name : String
  vars : List String
  content : List SExpr
deriving Inhabited

/-- `vars_substitute_names`. -/
def Template.varsSubstituteNames (t : Template) : List String := t.vars.map ("$" ++ ·)

/-- `expr.atom(None)`. -/
def atomText : SExpr → Option String
  | .atomNode a _ => some a
  | .listNode _ _ => none

/-- `exprs.first().and_then(|expr| expr.atom(None))`. -/
def headAtom (exprs : List SExpr) : Option String := exprs.head?.bind atomText

/-- The list is a `template-expand`. -/
def isExpand (exprs : List SExpr) : Bool :=
  headAtom exprs = some "template-expand" || headAtom exprs = some "t!"

/-! ## The templates -/

/-- The visitor of the atoms of a template's content, with what follows the atom. -/
def validateAtom (templates : List Template) (a : String) (sp : Span) (next : Option SExpr) :
    Parse Unit :=
  if a = "deftemplate" then
    .error (.error ⟨"deftemplate is not allowed within deftemplate", some sp⟩)
  else if a = "template-expand" ∨ a = "t!" then
    match next with
    | some (.atomNode name sp') =>
      if templates.any (·.name == name) then pure ()
      else .error (.error ⟨"Unknown template name in template-expand. " ++
        "Note that order of declaration matters.", some sp'⟩)
    | _ => pure ()
  else pure ()

mutual

/-- `visit_validate_all_atoms_peek_next` with `validateAtom`. -/
def validateAll (templates : List Template) : List SExpr → Parse Unit
  | [] => pure ()
  | expr :: exprs => do
    validateExpr templates expr exprs.head?
    validateAll templates exprs

def validateExpr (templates : List Template) : SExpr → Option SExpr → Parse Unit
  | .atomNode a sp, next => validateAtom templates a sp next
  | .listNode l _, _ => validateAll templates l

end

/-- `anyhow_span!`. -/
def errSpan {α : Type} (span : Span) (msg : String) : Parse α := .error (.error ⟨msg, some span⟩)

/-- The names of the variables of a template. -/
def parseTemplateVars : List SExpr → Parse (List String)
  | [] => pure []
  | .atomNode a _ :: vars => do
    let rest ← parseTemplateVars vars
    pure (a :: rest)
  | .listNode l sp :: _ => bailExpr (.listNode l sp) "deftemplate variables must be strings"

def parseTemplateName (templates : List Template) (list : List SExpr) (span : Span) :
    Parse String :=
  match (list[1]? : Option SExpr) with
  | none => errSpan span "deftemplate must have the template name as the first parameter"
  | some (.listNode l sp) => bailExpr (.listNode l sp) "template name must be a string"
  | some (.atomNode name sp) =>
    if templates.any (·.name == name) then
      bailExpr (.atomNode name sp) "template name was already defined earlier"
    else pure name

def parseTemplateVarList (list : List SExpr) (span : Span) : Parse (List String) :=
  match (list[2]? : Option SExpr) with
  | none =>
    errSpan span "deftemplate must have a list of template variables as the second parameter"
  | some (.atomNode a sp) =>
    bailExpr (.atomNode a sp)
      "deftemplate must have a list of template variables the second parameter"
  | some (.listNode l _) => parseTemplateVars l

/-- A `deftemplate`. -/
def parseTemplate (templates : List Template) (list : List SExpr) (span : Span) :
    Parse Template := do
  let name ← parseTemplateName templates list span
  let vars ← parseTemplateVarList list span
  validateAll templates (list.drop 3)
  pure ⟨name, vars, list.drop 3⟩

/-- The templates of the expressions at the top. -/
def parseTemplates : List (List SExpr × Span) → List Template → Parse (List Template)
  | [], templates => pure templates
  | (list, span) :: toplevel, templates =>
    if headAtom list = some "deftemplate" then do
      let template ← parseTemplate templates list span
      parseTemplates toplevel (templates ++ [template])
    else parseTemplates toplevel templates

/-! ## Instances of a template -/

mutual

/-- `visit_mut_all_atoms`, where an atom that is a parameter becomes its value. -/
def substitute (params : List (String × SExpr)) : List SExpr → List SExpr
  | [] => []
  | expr :: exprs => substituteExpr params expr :: substitute params exprs

def substituteExpr (params : List (String × SExpr)) : SExpr → SExpr
  | .atomNode a sp => (params.lookup a).getD (.atomNode a sp)
  | .listNode l sp => .listNode (substitute params l) sp

end

mutual

/-- `push_all_atoms` without variables. -/
def joinAtoms : List SExpr → String → String
  | [], pusheen => pusheen
  | expr :: exprs, pusheen => joinAtoms exprs (joinAtomsExpr expr pusheen)

def joinAtomsExpr : SExpr → String → String
  | .atomNode a _, pusheen => pusheen ++ trimAtomQuotes a
  | .listNode l _, pusheen => joinAtoms l pusheen

end

mutual

/-- `visit_mut_all_lists` with `parse_list_var`: a list of `concat` becomes an atom. -/
def joinLists : List SExpr → List SExpr
  | [] => []
  | expr :: exprs => joinListsExpr expr :: joinLists exprs

def joinListsExpr : SExpr → SExpr
  | .atomNode a sp => .atomNode a sp
  | .listNode l sp =>
    if headAtom l = some "concat" then .atomNode (joinAtoms l.tail "") sp
    else .listNode (joinLists l) sp

end

/-- The string at a position of a conditional. -/
def stringComparand (l : List SExpr) (sp : Span) (i : Nat) (missing noString : String) :
    Parse String :=
  match (l[i]? : Option SExpr) with
  | none => bailExpr (.listNode l sp) missing
  | some (.listNode l' sp') => bailExpr (.listNode l' sp') noString
  | some (.atomNode a _) => pure a

/-- The list at the third position of a conditional. -/
def listComparand (l : List SExpr) (sp : Span) (missing noList : String) :
    Parse (List SExpr) :=
  match (l[2]? : Option SExpr) with
  | none => bailExpr (.listNode l sp) missing
  | some (.atomNode a sp') => bailExpr (.atomNode a sp') noList
  | some (.listNode l' _) => pure l'

/-- `strings_compare_replacement`. -/
def stringsCompareReplacement (l : List SExpr) (sp : Span) (operation : String)
    (holds : String → String → Bool) : Parse (Option (List SExpr)) :=
  if headAtom l = some operation then do
    let first ← stringComparand l sp 1
      s!"{operation} expects a string comparand as the first parameter"
      s!"comparands within {operation} must be strings"
    let second ← stringComparand l sp 2
      s!"{operation} expects a string comparand as the second parameter"
      s!"comparands within {operation} must be strings"
    pure (some (if holds first second then l.drop 3 else []))
  else pure none

mutual

/-- The strings of a list, at any depth. -/
def allAtoms : List SExpr → List String
  | [] => []
  | expr :: exprs => allAtomsExpr expr ++ allAtoms exprs

def allAtomsExpr : SExpr → List String
  | .atomNode a _ => [a]
  | .listNode l _ => allAtoms l

end

/-- `string_list_compare_replacement`. -/
def stringListCompareReplacement (l : List SExpr) (sp : Span) (operation : String)
    (holds : Bool → Bool) : Parse (Option (List SExpr)) :=
  if headAtom l = some operation then do
    let first ← stringComparand l sp 1
      s!"{operation} expects a string comparand as the first parameter"
      s!"the first parameter of {operation} must be a string"
    let second ← listComparand l sp
      s!"{operation} expects a list comparand as the second parameter"
      s!"the second parameter of {operation} must be a list"
    pure (some (if holds ((allAtoms second).contains first) then l.drop 3 else []))
  else pure none

/-- The replacement of a list, if it is a conditional: what it is about, or nothing. -/
def conditional (l : List SExpr) (sp : Span) : Parse (Option (List SExpr)) := do
  match ← stringsCompareReplacement l sp "if-equal" (· == ·) with
  | some exprs => pure (some exprs)
  | none =>
    match ← stringsCompareReplacement l sp "if-not-equal" (· != ·) with
    | some exprs => pure (some exprs)
    | none =>
      match ← stringListCompareReplacement l sp "if-in-list" id with
      | some exprs => pure (some exprs)
      | none => stringListCompareReplacement l sp "if-not-in-list" (!·)

mutual

/-- `evaluate_conditionals`: the expressions and whether something changed. -/
def evaluateConditionals : List SExpr → Parse (List SExpr × Bool)
  | [] => pure ([], false)
  | expr :: exprs => do
    let (here, changed) ← evaluateExpr expr
    let (rest, changed') ← evaluateConditionals exprs
    pure (here ++ rest, changed || changed')

def evaluateExpr : SExpr → Parse (List SExpr × Bool)
  | .atomNode a sp => pure ([.atomNode a sp], false)
  | .listNode l sp => do
    match ← conditional l sp with
    | some replacement => pure (replacement, true)
    | none => do
      let (l, changed) ← evaluateConditionals l
      pure ([.listNode l sp], changed)

end

/-- `while evaluate_conditionals(..)? {}`, at most as often as the fuel allows. -/
def evaluateAll : Nat → List SExpr → Except (Option ParseFault) (List SExpr)
  | 0, _ => .error none
  | fuel + 1, exprs =>
    match evaluateConditionals exprs with
    | .error e => .error (some e)
    | .ok (exprs, true) => evaluateAll fuel exprs
    | .ok (exprs, false) => .ok exprs

/-! ## Expansions -/

/-- What is not found in time, or an error. -/
abbrev Steps (α : Type) := Except (Option ParseFault) α

def liftParse {α : Type} : Parse α → Steps α
  | .ok a => .ok a
  | .error e => .error (some e)

/-- The template that an expansion names. -/
def findTemplate (templates : List Template) (l : List SExpr) (sp : Span) : Parse Template :=
  match (l[1]? : Option SExpr) with
  | none => errSpan sp "template-expand must have a template name as the first parameter"
  | some (.listNode l' sp') => bailExpr (.listNode l' sp') "template name must be a string"
  | some (.atomNode name sp') =>
    match templates.find? (·.name == name) with
    | none => bailExpr (.atomNode name sp') "template name was not defined in any deftemplate"
    | some template => pure template

/-- The message of an expansion with too few or too many parameters. -/
def paramCountMessage (template : Template) (found : Nat) : String :=
  let name := template.name
  let needed := template.vars.length
  let parameters := String.intercalate " " template.vars
  s!"template-expand of {name} needs {needed} parameters but instead found {found}.\n" ++
    s!"Parameters: {parameters}"

/-- What an expansion is replaced by. -/
def instantiate (templates : List Template) (fuel : Nat) (l : List SExpr) (sp : Span) :
    Steps (List SExpr) := do
  let template ← liftParse (findTemplate templates l sp)
  if l.length - 2 ≠ template.vars.length then
    .error (some (.error ⟨paramCountMessage template (l.length - 2), some sp⟩))
  else
    -- there are as many names as values
    let params := template.varsSubstituteNames.zip (l.drop 2)
    evaluateAll fuel (joinLists (substitute params template.content))

/-- What a pass of `expand` does with an expression: what is put in its place, and whether it
is an expansion. `deeper` is the call for a list that is none. -/
def passExpr (templates : List Template) (fuel : Nat)
    (deeper : List SExpr → Steps (List SExpr)) : SExpr → Steps (List SExpr × Bool)
  | .atomNode a sp => pure ([.atomNode a sp], false)
  | .listNode l sp =>
    if isExpand l then do
      let content ← instantiate templates fuel l sp
      pure (content, true)
    else do
      let l ← deeper l
      pure ([.listNode l sp], false)

/-- A pass of `expand`. -/
def pass (templates : List Template) (fuel : Nat)
    (deeper : List SExpr → Steps (List SExpr)) : List SExpr → Steps (List SExpr × Bool)
  | [] => pure ([], false)
  | expr :: exprs => do
    let (here, replaced) ← passExpr templates fuel deeper expr
    let (rest, replaced') ← pass templates fuel deeper exprs
    pure (here ++ rest, replaced || replaced')

/-- `expand`. -/
def expand (templates : List Template) : Nat → List SExpr → Steps (List SExpr)
  | 0, _ => .error none
  | fuel + 1, exprs => do
    let (exprs, replaced) ← pass templates fuel (expand templates fuel) exprs
    if replaced then expand templates fuel exprs else pure exprs

/-- The lists at the top. -/
def toTopLevel : List SExpr → Parse (List (List SExpr × Span))
  | [] => pure []
  | .atomNode a sp :: _ => bailExpr (.atomNode a sp)
      "expansion created a string outside any list which is not allowed"
  | .listNode l sp :: exprs => do
    let rest ← toTopLevel exprs
    pure ((l, sp) :: rest)

/-- `expand_templates`. -/
def expandTemplates (fuel : Nat) (toplevel : List (List SExpr × Span)) :
    Steps (List (List SExpr × Span)) := do
  let templates ← liftParse (parseTemplates toplevel [])
  let exprs ← expand templates fuel (toplevel.map fun tl => .listNode tl.1 tl.2)
  liftParse (toTopLevel exprs)

end Kanata.Templates
