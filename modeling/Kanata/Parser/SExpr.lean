import Kanata.Basic
import Kanata.Lib.Fallible

/-!
# Kanata.Parser.SExpr — S-expressions and parse results

The trees the configuration is read from, variable references inside them, and
the result type of the parser: a value, a `ParseError` with its message and the
span it points at, or a panic.
-/

namespace Kanata

structure Position where
  absolute : Nat
  line : Nat
  lineBeginning : Nat
deriving DecidableEq, Repr, Inhabited

/-- A range of the source. The file name and content that the source stores
beside it are the same for every span of one parse. -/
structure Span where
  start : Position
  stop : Position
deriving DecidableEq, Repr, Inhabited

inductive SExpr where
  | atomNode (t : String) (span : Span)
  | listNode (t : List SExpr) (span : Span)

/-- `SExpr::span`. -/
def SExpr.span : SExpr → Span
  | .atomNode _ sp => sp
  | .listNode _ sp => sp

/-- The variables of a configuration (`defvar`), by name. -/
abbrev Vars := List (String × SExpr)

/-! ## Parse results -/

structure ParseError where
  msg : String
  span : Option Span
deriving DecidableEq, Repr

inductive ParseFault where
  | error (e : ParseError)
  | panic (p : Panic)
deriving DecidableEq, Repr

abbrev Parse (α : Type) := Except ParseFault α

/-- `bail_expr!(expr, msg)`. -/
def bailExpr {α : Type} (expr : SExpr) (msg : String) : Parse α :=
  .error (.error ⟨msg, some expr.span⟩)

/-- `bail!(msg)`. -/
def bail {α : Type} (msg : String) : Parse α := .error (.error ⟨msg, none⟩)

/-- A panic inside the parser. -/
def liftRust {α : Type} : Rust α → Parse α
  | .ok a => .ok a
  | .error p => .error (.panic p)

instance : MonadLift (Except Panic) (Except ParseFault) := ⟨liftRust⟩

@[simp] theorem liftRust_ok {α : Type} (a : α) : liftRust (.ok a : Rust α) = .ok a := rfl

theorem liftM_ok {α : Type} (a : α) : (liftM (.ok a : Rust α) : Parse α) = .ok a := rfl

theorem liftRust_eq_ok {α : Type} {r : Rust α} {a : α} :
    liftRust r = .ok a ↔ r = .ok a := by
  cases r <;> simp [liftRust]

/-- `opt.ok_or_else(|| anyhow_expr!(expr, msg))`. -/
def okOrExpr {α : Type} (expr : SExpr) (msg : String) : Option α → Parse α
  | some a => .ok a
  | none => bailExpr expr msg

theorem okOrExpr_eq_ok {α : Type} {expr : SExpr} {msg : String} {o : Option α} {a : α} :
    okOrExpr expr msg o = .ok a ↔ o = some a := by
  cases o <;> simp [okOrExpr, bailExpr]

/-! ## Parsers that return -/

section Answers

open Fallible

variable {α β : Type}

/-- An error of the parser, not a panic. -/
def Refused (e : ParseFault) : Prop := ∃ err, e = .error err

/-- The parser returns a value or an error. -/
def Answers (x : Parse α) : Prop := Ensures x (fun _ => True) Refused

theorem answers_ok (a : α) : Answers (.ok a : Parse α) := trivial

theorem answers_bailExpr (e : SExpr) (msg : String) : Answers (bailExpr e msg : Parse α) := ⟨_, rfl⟩

theorem answers_okOrExpr (e : SExpr) (msg : String) (o : Option α) :
    Answers (okOrExpr e msg o) := by
  cases o with
  | none => exact answers_bailExpr e msg
  | some a => exact answers_ok a

theorem Answers.bind {x : Parse α} {f : α → Parse β} (hx : Answers x) (hf : ∀ a, Answers (f a)) :
    Answers (x >>= f) :=
  hx.andThen fun a _ => hf a

theorem Answers.mapM {f : α → Parse β} (h : ∀ a, Answers (f a)) (xs : List α) :
    Answers (xs.mapM f) :=
  Ensures.mapM h

theorem Answers.no_panic {x : Parse α} (hx : Answers x) (p : Panic) : x ≠ .error (.panic p) := by
  intro h
  rcases hx.of_error h with ⟨err, herr⟩
  cases herr

end Answers

/-! ## Atoms and lists through variables

A variable may refer to another one. The recursion follows references, so it is
bounded by the number of variables unless the references form a loop, which
overflows the stack. -/

/-- `s.strip_prefix('$')`. -/
def stripDollar (s : String) : Option String :=
  match s.toList with
  | '$' :: rest => some (String.ofList rest)
  | _ => none

/-- The variable an atom refers to, if it is one that is defined. -/
def Vars.target (vars : Option Vars) (s : String) : Option SExpr :=
  match stripDollar s, vars with
  | some varname, some vars => vars.lookup varname
  | _, _ => none

def SExpr.atomAux (vars : Option Vars) : Nat → SExpr → Rust (Option String)
  | _, .listNode _ _ => pure none
  | fuel, .atomNode s _ =>
    match Vars.target vars s with
    | none => pure (some s)
    | some var =>
      match fuel with
      | 0 => panicWith "stack overflow"
      | fuel + 1 => SExpr.atomAux vars fuel var

def SExpr.listAux (vars : Option Vars) : Nat → SExpr → Rust (Option (List SExpr))
  | _, .listNode l _ => pure (some l)
  | fuel, .atomNode s _ =>
    match Vars.target vars s with
    | none => pure none
    | some var =>
      match fuel with
      | 0 => panicWith "stack overflow"
      | fuel + 1 => SExpr.listAux vars fuel var

def Vars.depth (vars : Option Vars) : Nat := (vars.getD []).length

/-- `SExpr::atom`. -/
def SExpr.atom (e : SExpr) (vars : Option Vars) : Rust (Option String) :=
  SExpr.atomAux vars (Vars.depth vars) e

/-- `SExpr::list`. -/
def SExpr.list (e : SExpr) (vars : Option Vars) : Rust (Option (List SExpr)) :=
  SExpr.listAux vars (Vars.depth vars) e

/-- What is not an atom is a list: both follow the same references. -/
theorem SExpr.listAux_of_atomAux_none {vars : Option Vars} {fuel : Nat} {e : SExpr}
    (h : SExpr.atomAux vars fuel e = .ok none) :
    ∃ l, SExpr.listAux vars fuel e = .ok (some l) := by
  induction fuel generalizing e with
  | zero =>
    cases e with
    | listNode l sp => exact ⟨l, rfl⟩
    | atomNode s sp =>
      simp only [SExpr.atomAux] at h
      split at h <;> simp [panicWith, pure, Except.pure] at h
  | succ fuel ih =>
    cases e with
    | listNode l sp => exact ⟨l, rfl⟩
    | atomNode s sp =>
      simp only [SExpr.atomAux] at h
      simp only [SExpr.listAux]
      split at h
      · simp [pure, Except.pure] at h
      · exact ih h

theorem SExpr.list_of_atom_none {vars : Option Vars} {e : SExpr} (h : e.atom vars = .ok none) :
    ∃ l, e.list vars = .ok (some l) :=
  SExpr.listAux_of_atomAux_none h

/-- `check_first_expr`. -/
def checkFirstExpr (exprs : List SExpr) (expectedFirst : String) : Parse (List SExpr) :=
  match exprs with
  | [] => bail s!"Passed empty list to {expectedFirst}"
  | .listNode _ _ :: _ =>
    bail s!"First entry is expected to be an atom for {expectedFirst}"
  | .atomNode firstAtom _ :: exprs =>
    if firstAtom = expectedFirst then pure exprs
    else bail s!"Passed non-{expectedFirst} expression to {expectedFirst}: {firstAtom}"

theorem checkFirstExpr_eq_ok {exprs rest : List SExpr} {keyword : String} :
    checkFirstExpr exprs keyword = .ok rest ↔ ∃ sp, exprs = .atomNode keyword sp :: rest := by
  constructor
  · intro h
    match exprs, h with
    | .atomNode a sp :: exprs, h =>
      unfold checkFirstExpr at h
      dsimp only at h
      by_cases ha : a = keyword
      · rw [if_pos ha] at h
        cases h
        exact ⟨sp, by rw [ha]⟩
      · rw [if_neg ha] at h
        cases h
  · rintro ⟨sp, rfl⟩
    exact if_pos rfl

/-! ## Numbers -/

/-- The value of a string of ASCII digits. -/
def digitsValue (ds : List Char) : Option Nat :=
  if ds ≠ [] ∧ ds.all Char.isDigit then
    some (ds.foldl (fun n c => 10 * n + (c.toNat - '0'.toNat)) 0)
  else none

/-- `str::parse` for an unsigned type with the given maximum: digits with an
optional plus sign. -/
def parseUInt (bound : Nat) (s : String) : Option Nat :=
  let ds := match s.toList with
    | '+' :: ds => ds
    | ds => ds
  (digitsValue ds).filter (· ≤ bound)

/-- `str::parse::<i32>`. -/
def parseI32 (s : String) : Option Int :=
  match s.toList with
  | '-' :: ds => ((digitsValue ds).filter (· ≤ 2147483648)).map fun n => -(n : Int)
  | '+' :: ds => ((digitsValue ds).filter (· ≤ 2147483647)).map Int.ofNat
  | ds => ((digitsValue ds).filter (· ≤ 2147483647)).map Int.ofNat

theorem parseUInt_le {bound : Nat} {s : String} {n : Nat} (h : parseUInt bound s = some n) :
    n ≤ bound := by
  simp only [parseUInt, Option.filter_eq_some_iff] at h
  simpa using h.2

end Kanata
