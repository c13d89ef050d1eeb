import Kanata.Parser.SExpr
import Kanata.Keyberon.Switch

/-!
# Kanata.Parser.Switch — from key-match lists to opcodes

The code of `parse_switch_case_bool` in `parser/src/cfg/switch.rs`. Each arm of
its big `match` is one definition here. The recursion of the source carries a
depth that starts at 1 and is refused above `MAX_BOOL_EXPR_DEPTH`; the model
carries the number of depths left instead, which is 0 at a refused depth.
-/

namespace Kanata.Switch

/-- The function stored in `Switch.callbacks` for a `cmd-exit` item: whether
the latest command exited with this code. -/
structure CallbackFn where
  exitcode : Int
deriving DecidableEq, Repr

/-- What the switch parser reads of `ParserState`. `strToOscode` is the table of
key names, `cmdFeature` whether the executable was compiled with `cmd`. -/
structure ParserState where
  vars : Option Vars
  virtualKeys : List (String × Nat)
  layerIdxs : List (String × Nat)
  inputDevices : Option (List Nat)
  isCmdEnabled : Bool
  cmdFeature : Bool
  strToOscode : String → Option OsCode

/-- What the parser accumulates: opcodes, callbacks, and the longest
`key-timing` check seen. -/
structure SwitchParse where
  ops : List OpCode
  callbacks : List CallbackFn
  maxKeyTimingCheck : Nat
deriving DecidableEq, Repr

def SwitchParse.push (st : SwitchParse) (op : OpCode) : SwitchParse :=
  { st with ops := st.ops ++ [op] }

def SwitchParse.extend (st : SwitchParse) (ops : OpCode × OpCode) : SwitchParse :=
  { st with ops := st.ops ++ [ops.1, ops.2] }

inductive AllowedListOps where
  | or | and | not | keyHistory | keyTiming | input | inputHistory | layer | baseLayer
  | deviceHistory | cmdExit
deriving DecidableEq, Repr

def AllowedListOps.ofString : String → Option AllowedListOps
  | "or" => some .or
  | "and" => some .and
  | "not" => some .not
  | "key-history" => some .keyHistory
  | "key-timing" => some .keyTiming
  | "input" => some .input
  | "input-history" => some .inputHistory
  | "layer" => some .layer
  | "base-layer" => some .baseLayer
  | "device-history" => some .deviceHistory
  | "cmd-exit" => some .cmdExit
  | _ => none

inductive InputType where
  | real | virtual
deriving DecidableEq, Repr

def InputType.toRow : InputType → Nat
  | .real => 0
  | .virtual => 1

def InputType.ofString : String → Option InputType
  | "real" => some .real
  | "fake" => some .virtual
  | "virtual" => some .virtual
  | _ => none

/-! ## Arguments -/

def parseU8WithRange (expr : SExpr) (s : ParserState) (label : String) (min max : Nat) :
    Parse Nat := do
  let a ← expr.atom s.vars
  okOrExpr expr (label ++ " must be " ++ toString min ++ "-" ++ toString max)
    ((a.bind (parseUInt 255)).filter fun u => min ≤ u ∧ u ≤ max)

def parseU16 (expr : SExpr) (s : ParserState) (label : String) : Parse Nat := do
  let a ← expr.atom s.vars
  okOrExpr expr (label ++ " must be 0-65535") (a.bind (parseUInt u16Max))

/-- `parse_vkey_coord`, whose row is always the virtual one. -/
def parseVkeyCoord (param : SExpr) (s : ParserState) : Parse Nat := do
  let name ← okOrExpr param "key-name must not be a list" (← param.atom s.vars)
  match s.virtualKeys.lookup name with
  | some y => pure (y % (u16Max + 1))
  | none => bailExpr param ("unknown virtual key name: " ++ name)

/-- The key of an `input` or `input-history` item, once its type is known. -/
def parseInputKey (inputType : InputType) (expr : SExpr) (s : ParserState) : Parse Nat :=
  match inputType with
  | .real => do
    let key ← okOrExpr expr "input key name must not be a list" (← expr.atom s.vars)
    let osc ← okOrExpr expr "invalid input key name" (s.strToOscode key)
    pure osc.code
  | .virtual => parseVkeyCoord expr s

/-- The type of an `input` item; the two items point at different expressions
when it is not one of the known words. -/
def parseInputType (expr errExpr : SExpr) (s : ParserState) : Parse InputType := do
  let word ← okOrExpr expr "key-type must be virtual|real" (← expr.atom s.vars)
  okOrExpr errExpr "key-type must be virtual|real" (InputType.ofString word)

/-! ## The arms -/

def parseKeyHistory (s : ParserState) (opExpr : SExpr) (l : List SExpr) (st : SwitchParse) :
    Parse SwitchParse :=
  match l with
  | [_, key, recency] => do
    let osc ← okOrExpr key "invalid key name" ((← key.atom s.vars).bind s.strToOscode)
    let keyRecency ← parseU8WithRange recency s "key-recency" 1 8
    let op ← liftRust (OpCode.newKeyHistory osc (keyRecency - 1))
    pure (st.push op)
  | _ => bailExpr opExpr "key-history must have 2 parameters: key, key-recency"

def parseInput (s : ParserState) (opExpr : SExpr) (l : List SExpr) (st : SwitchParse) :
    Parse SwitchParse :=
  match l with
  | [_, keyType, key] => do
    let inputType ← parseInputType keyType opExpr s
    let input ← parseInputKey inputType key s
    let ops ← liftRust (OpCode.newActiveInput (inputType.toRow, input))
    pure (st.extend ops)
  | _ => bailExpr opExpr "input must have 2 parameters: key-type(virtual|real), key"

def parseInputHistory (s : ParserState) (opExpr : SExpr) (l : List SExpr) (st : SwitchParse) :
    Parse SwitchParse :=
  match l with
  | [_, keyType, key, recency] => do
    let inputType ← parseInputType keyType keyType s
    let input ← parseInputKey inputType key s
    let keyRecency ← parseU8WithRange recency s "key-recency" 1 8
    let ops ← liftRust (OpCode.newHistoricalInput (inputType.toRow, input) (keyRecency - 1))
    pure (st.extend ops)
  | _ => bailExpr opExpr
      "input-history must have 3 parameters: key-type(virtual|real), key, key-recency"

def keyTimingErr : String :=
  "key-timing 2nd parameter must be one of: lt|gt|less-than|greater-than"

def parseKeyTiming (s : ParserState) (opExpr : SExpr) (l : List SExpr) (st : SwitchParse) :
    Parse SwitchParse :=
  match l with
  | [_, recency, cmp, millis] => do
    let nthKey ← parseU8WithRange recency s "key-recency" 1 8
    let ticksSince ← parseU16 millis s "milliseconds"
    let word ← okOrExpr cmp keyTimingErr (← cmp.atom s.vars)
    let op ←
      if word = "less-than" ∨ word = "lt" then
        liftRust (OpCode.newTicksSinceLt (nthKey - 1) ticksSince)
      else if word = "greater-than" ∨ word = "gt" then
        liftRust (OpCode.newTicksSinceGt (nthKey - 1) ticksSince)
      else bailExpr cmp keyTimingErr
    pure { st.push op with maxKeyTimingCheck := max st.maxKeyTimingCheck ticksSince }
  | _ => bailExpr opExpr ("key-timing must have 3 parameters: key-recency, " ++
      "lt|gt|less-than|greater-than, milliseconds (0-65535)")

/-- `layer` and `base-layer` differ in the opcode they emit. -/
def parseLayerCheck (name : String) (newOp : Nat → Rust (OpCode × OpCode)) (s : ParserState)
    (opExpr : SExpr) (l : List SExpr) (st : SwitchParse) : Parse SwitchParse :=
  match l with
  | [_, layerName] => do
    let idx := (← layerName.atom s.vars).bind fun atom => s.layerIdxs.lookup atom
    let layer ← match idx with
      | some idx => do
        liftRust (assertThat (idx < maxLayers) "assertion failed: *idx < MAX_LAYERS")
        pure idx
      | none => bailExpr layerName "not a known layer name"
    let ops ← liftRust (newOp layer)
    pure (st.extend ops)
  | _ => bailExpr opExpr (name ++ " must have 1 parameter: layer-name")

def parseLayer : ParserState → SExpr → List SExpr → SwitchParse → Parse SwitchParse :=
  parseLayerCheck "layer" OpCode.newLayer

def parseBaseLayer : ParserState → SExpr → List SExpr → SwitchParse → Parse SwitchParse :=
  parseLayerCheck "base-layer" OpCode.newBaseLayer

def parseDeviceHistory (s : ParserState) (opExpr : SExpr) (l : List SExpr) (st : SwitchParse) :
    Parse SwitchParse :=
  match l with
  | [_, device, recency] => do
    let idStr ← okOrExpr device "device ID must be a number (1-255)" (← device.atom s.vars)
    let idNum ← okOrExpr device "device ID must be a number (1-255)" (parseUInt 255 idStr)
    let id ← okOrExpr device "device ID must be nonzero (1-255)"
      (if idNum = 0 then none else some idNum)
    match s.inputDevices with
    | some devs =>
      if !devs.any (· == id) then
        bailExpr device ("device ID " ++ toString idNum ++ " is not defined in definputdevices")
      else do
        let deviceRecency ← parseU8WithRange recency s "device-recency" 1 8
        let ops ← liftRust (OpCode.newDeviceHistory id (deviceRecency - 1))
        pure (st.extend ops)
    | none => bailExpr device ("cannot use (device-history " ++ toString idNum ++
        " ...) without a definputdevices block")
  | _ => bailExpr opExpr "device-history must have 2 parameters: device-id, device-recency"

def parseCmdExit (s : ParserState) (opExpr : SExpr) (l : List SExpr) (st : SwitchParse) :
    Parse SwitchParse :=
  if !s.cmdFeature then
    bailExpr opExpr ("cmd is not enabled for this kanata executable. Use a cmd_allowed prebuilt " ++
      "executable or compile with the feature: cmd.")
  else if !s.isCmdEnabled then
    bailExpr opExpr "To use cmd you must put in defcfg: danger-enable-cmd yes."
  else match l with
  | [_, code] => do
    let exitCode ← okOrExpr code "exit code must be a 32 bit integer" (← code.atom s.vars)
    let exitCode ← okOrExpr code "exit code must be a 32 bit integer" (parseI32 exitCode)
    let index := st.callbacks.length
    if index > 60000 then
      bailExpr opExpr "Exceeded limit of 60000 callback-based switch items"
    else
      pure { st.extend (OpCode.newCallbackIndex index) with
        callbacks := st.callbacks ++ [⟨exitCode⟩] }
  | _ => bailExpr opExpr "cmd-exit must have 1 parameter: exit-code"

/-- An operator: a placeholder, the operands, then the end index that the
operands determine. -/
def parseOperator (parseOperand : SExpr → SwitchParse → Parse SwitchParse)
    (op : BooleanOperator) (opExpr : SExpr) (operands : List SExpr) (st : SwitchParse) :
    Parse SwitchParse := do
  let placeholderIndex := st.ops.length
  let placeholder ← liftRust (OpCode.newBool op placeholderIndex)
  let st ← operands.foldlM (fun st e => parseOperand e st) (st.push placeholder)
  if st.ops.length > maxOpcodeLen then
    bailExpr opExpr "switch logic length has been exceeded"
  else do
    let opCode ← liftRust (OpCode.newBool op st.ops.length)
    pure { st with ops := st.ops.set placeholderIndex opCode }

def listOpErr : String :=
  "lists inside switch logic must begin with one of:\nor | and | not | key-history | " ++
  "key-timing\n| input | input-history | layer | base-layer | device-history"

/-- `parse_switch_case_bool`, `levels` being the depths left. -/
def parseSwitchCaseBool (s : ParserState) (levels : Nat) (opExpr : SExpr) (st : SwitchParse) :
    Parse SwitchParse :=
  if st.ops.length > maxOpcodeLen then
    bailExpr opExpr "maximum key match size of 4095 items is exceeded"
  else
    match levels with
    | 0 => bailExpr opExpr "maximum key match expression depth 8 is exceeded"
    | levels + 1 => do
      match ← opExpr.atom s.vars with
      | some a =>
        let osc ← okOrExpr opExpr "invalid key name" (s.strToOscode a)
        let op ← liftRust (OpCode.newKey osc)
        pure (st.push op)
      | none =>
        match ← opExpr.list s.vars with
        | none => liftRust (panicWith "must be a list, checked atom")
        | some [] => bailExpr opExpr "switch logic cannot contain empty lists inside"
        | some (head :: operands) =>
          let op ← okOrExpr opExpr listOpErr ((← head.atom s.vars).bind AllowedListOps.ofString)
          match op with
          | .keyHistory => parseKeyHistory s opExpr (head :: operands) st
          | .input => parseInput s opExpr (head :: operands) st
          | .inputHistory => parseInputHistory s opExpr (head :: operands) st
          | .keyTiming => parseKeyTiming s opExpr (head :: operands) st
          | .layer => parseLayer s opExpr (head :: operands) st
          | .baseLayer => parseBaseLayer s opExpr (head :: operands) st
          | .deviceHistory => parseDeviceHistory s opExpr (head :: operands) st
          | .cmdExit => parseCmdExit s opExpr (head :: operands) st
          | .or => parseOperator (parseSwitchCaseBool s levels) .or opExpr operands st
          | .and => parseOperator (parseSwitchCaseBool s levels) .and opExpr operands st
          | .not => parseOperator (parseSwitchCaseBool s levels) .not opExpr operands st

/-- The key match of one switch case: `parse_switch` starts with no opcodes,
keeps the callbacks of earlier cases, and parses the operands at depth 1. -/
def parseKeyMatch (s : ParserState) (keyMatch : List SExpr) (callbacks : List CallbackFn)
    (maxKeyTimingCheck : Nat) : Parse SwitchParse :=
  keyMatch.foldlM (fun st e => parseSwitchCaseBool s maxBoolExprDepth e st)
    { ops := [], callbacks, maxKeyTimingCheck }

end Kanata.Switch
