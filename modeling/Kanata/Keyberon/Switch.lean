import Kanata.Basic

/-!
# Kanata.Keyberon.Switch — opcodes and their evaluation

A switch case is compiled to a flat array of `u16` opcodes. This module is the
code of `keyberon/src/action/switch.rs`: the constructors `OpCode::new_*`, the
decoder `opcode_type` and the machine `evaluate_boolean`.

The machine has a register for the last truth value, the current operator with
the index at which its operands end, and a stack of the enclosing operators.
The stack is written here with its back element first.
-/

namespace Kanata.Switch

def maxOpcodeLen : Nat := 0x0FFF
def opMask : Nat := 0xF000
def maxBoolExprDepth : Nat := 8
def maxKeyRecency : Nat := 7

def orVal : Nat := 0x1000
def andVal : Nat := 0x2000
def notVal : Nat := 0x3000

def inputVal : Nat := 851
def historicalInputVal : Nat := 852
def layerVal : Nat := 853
def baseLayerVal : Nat := 854
def historicalDeviceVal : Nat := 855
def callbackIndexVal : Nat := 856

def ticksSinceValGt : Nat := 0x4000
def ticksSinceValLt : Nat := 0x6000
def historicalKeycodeVal : Nat := 0x8000

/-- Boolean operator. -/
inductive BooleanOperator where
  | or | and | not
deriving DecidableEq, Repr

/-- An opcode, or the second word of one: a `u16`. -/
abbrev OpCode := Nat

/-- The operation type and the opcode index at which evaluating it ends. -/
structure OperatorAndEndIndex where
  op : BooleanOperator
  idx : Nat
deriving DecidableEq, Repr

/-- The more useful interpretation of an `OpCode`. -/
inductive OpCodeType where
  | booleanOp (o : OperatorAndEndIndex)
  | keyCode (kc : Nat)
  | historicalKeyCode (keyCode howFarBack : Nat)
  | input (c : KCoord)
  | historicalInput (input : KCoord) (howFarBack : Nat)
  | ticksSinceLessThan (nthKey ticksSince : Nat)
  | ticksSinceGreaterThan (nthKey ticksSince : Nat)
  | layer (l : Nat)
  | baseLayer (l : Nat)
  | historicalDevice (deviceId howFarBack : Nat)
  | callbackIndex (i : Nat)
deriving DecidableEq, Repr

def BooleanOperator.toU16 : BooleanOperator → Nat
  | .or => orVal
  | .and => andVal
  | .not => notVal

/-! ## Tick compression -/

def lossyCompressTicks (t : Nat) : Nat :=
  if t ≤ 255 then t
  else if t ≤ 2303 then (t - 255) / 8 + 255
  else (t - 2303) / 128 + 511

def lossyDecompressTicks (t : Nat) : Nat :=
  if t ≤ 255 then t
  else if t ≤ 511 then (t - 255) * 8 + 255
  else (t - 511) * 128 + 2303

/-! ## Constructors -/

def OpCode.newKey (kc : KeyCode) : Rust OpCode := do
  assertThat (kc.code ≤ keyMax) "assertion failed: (kc as u16) <= KEY_MAX"
  pure (kc.code &&& maxOpcodeLen)

def OpCode.newKeyHistory (kc : KeyCode) (keyRecency : Nat) : Rust OpCode := do
  assertThat (kc.code ≤ maxOpcodeLen) "assertion failed: (kc as u16) <= MAX_OPCODE_LEN"
  assertThat (keyRecency ≤ maxKeyRecency) "assertion failed: key_recency <= MAX_KEY_RECENCY"
  pure ((kc.code &&& maxOpcodeLen) ||| historicalKeycodeVal ||| (keyRecency <<< 12))

/-- The two tick comparisons differ in their marker only. -/
def OpCode.newTicksSince (marker nthKey ticksSince : Nat) : Rust OpCode := do
  assertThat (nthKey ≤ maxKeyRecency) "assertion failed: nth_key <= MAX_KEY_RECENCY"
  pure (marker ||| lossyCompressTicks ticksSince ||| (nthKey <<< 10))

def OpCode.newTicksSinceGt (nthKey ticksSince : Nat) : Rust OpCode :=
  OpCode.newTicksSince ticksSinceValGt nthKey ticksSince

def OpCode.newTicksSinceLt (nthKey ticksSince : Nat) : Rust OpCode :=
  OpCode.newTicksSince ticksSinceValLt nthKey ticksSince

/-- A boolean operation that ends (non-inclusive) at the given index. -/
def OpCode.newBool (op : BooleanOperator) (endIdx : Nat) : Rust OpCode := do
  assertThat (endIdx ≤ maxOpcodeLen) "assertion failed: end_idx <= MAX_OPCODE_LEN"
  pure ((endIdx &&& maxOpcodeLen) + op.toU16)

def OpCode.newActiveInput (input : KCoord) : Rust (OpCode × OpCode) := do
  assertThat (input.1 < 4) "assertion failed: input.0 < 4"
  assertThat (input.2 < 0x0400) "assertion failed: input.1 < 0x0400"
  pure (inputVal, ((input.1 &&& 3) <<< 14) + input.2)

def OpCode.newHistoricalInput (input : KCoord) (keyRecency : Nat) :
    Rust (OpCode × OpCode) := do
  assertThat (input.1 < 4) "assertion failed: input.0 < 4"
  assertThat (input.2 < 0x0400) "assertion failed: input.1 < 0x0400"
  assertThat (keyRecency < 0x8) "assertion failed: key_recency < 0x8"
  pure (historicalInputVal, ((input.1 &&& 3) <<< 14) + (keyRecency <<< 11) + input.2)

def OpCode.newLayer (layer : Nat) : Rust (OpCode × OpCode) := do
  assertThat (layer < maxLayers) "assertion failed: usize::from(layer) < MAX_LAYERS"
  pure (layerVal, layer)

def OpCode.newBaseLayer (baseLayer : Nat) : Rust (OpCode × OpCode) := do
  assertThat (baseLayer < maxLayers) "assertion failed: usize::from(base_layer) < MAX_LAYERS"
  pure (baseLayerVal, baseLayer)

def OpCode.newDeviceHistory (id howFarBack : Nat) : Rust (OpCode × OpCode) := do
  assertThat (howFarBack ≤ maxKeyRecency) "assertion failed: how_far_back <= MAX_KEY_RECENCY"
  pure (historicalDeviceVal, id ||| (howFarBack <<< 8))

def OpCode.newCallbackIndex (index : Nat) : OpCode × OpCode := (callbackIndexVal, index)

/-! ## Decoder -/

/-- `OperatorAndEndIndex::from`. -/
def OperatorAndEndIndex.ofU16 (value : Nat) : Rust OperatorAndEndIndex := do
  let op ←
    if value &&& opMask = orVal then pure BooleanOperator.or
    else if value &&& opMask = andVal then pure BooleanOperator.and
    else if value &&& opMask = notVal then pure BooleanOperator.not
    else panicWith "public interface should protect from this"
  pure ⟨op, value &&& maxOpcodeLen⟩

/-- The interpretation of a two-word opcode. -/
def twoWordType (self op2 : Nat) : Rust OpCodeType :=
  if self = inputVal then
    pure (.input ((op2 >>> 14) &&& 0x3, op2 &&& 0x3FF))
  else if self = historicalInputVal then
    pure (.historicalInput ((op2 >>> 14) &&& 0x3, op2 &&& 0x3FF) (((op2 >>> 11) % 256) &&& 0x7))
  else if self = layerVal then
    pure (.layer op2)
  else if self = baseLayerVal then
    pure (.baseLayer op2)
  else if self = historicalDeviceVal then
    if op2 &&& 0xFF = 0 then panicWith "device ID must be nonzero"
    else pure (.historicalDevice (op2 &&& 0xFF) ((op2 >>> 8) &&& 0x7))
  else if self = callbackIndexVal then
    pure (.callbackIndex op2)
  else
    panicWith "unexpected opcode"

def OpCode.opcodeType (self : Nat) (next : Option Nat) : Rust OpCodeType :=
  if self < keyMax then
    pure (.keyCode self)
  else if self ≤ maxOpcodeLen then
    match next with
    | none => panicWith "next should be some for opcode"
    | some op2 => twoWordType self op2
  else if self &&& 0xE000 = ticksSinceValLt then
    pure (.ticksSinceLessThan ((self &&& 0x1C00) >>> 10) (lossyDecompressTicks (self &&& 0x03FF)))
  else if self &&& 0xE000 = ticksSinceValGt then
    pure (.ticksSinceGreaterThan ((self &&& 0x1C00) >>> 10)
      (lossyDecompressTicks (self &&& 0x03FF)))
  else if 0x8000 ≤ self &&& 0xE000 then
    pure (.historicalKeyCode (self &&& 0x0FFF) ((self &&& 0x7000) >>> 12))
  else do
    pure (.booleanOp (← OperatorAndEndIndex.ofU16 self))

/-! ## Evaluation -/

/-- What a switch reads when it is evaluated. Histories come most recent first,
`layers` with the active layer first, and `callbacks` holds what each callback
returns. -/
structure SwitchEnv where
  keyCodes : List KeyCode
  inputs : List KCoord
  historicalKeys : List (HistoricalEvent KeyCode)
  historicalInputs : List (HistoricalEvent KCoord)
  layers : List Nat
  defaultLayer : Nat
  deviceHistory : List (Option Nat)
  callbacks : List Bool

/-- The local variables of `evaluate_boolean`. -/
structure EvalState where
  ret : Bool
  currentIndex : Nat
  currentEndIndex : Nat
  currentOp : BooleanOperator
  stack : List OperatorAndEndIndex
deriving DecidableEq, Repr

/-- The opcodes past the first word that an instruction takes, and its value.
Boolean operators have no value of their own. -/
def leafValue (env : SwitchEnv) : OpCodeType → Rust (Nat × Bool)
  | .booleanOp _ => panicWith "boolean operators are evaluated by the caller"
  | .keyCode kc => pure (0, env.keyCodes.any fun kcInput => kcInput.code == kc)
  | .historicalKeyCode kc back =>
    pure (0, match env.historicalKeys[back]? with
      | some he => he.event.code == kc
      | none => false)
  | .ticksSinceLessThan nth ticks =>
    pure (0, match env.historicalKeys[nth]? with
      | some he => decide (he.ticksSinceOccurrence ≤ ticks)
      | none => false)
  | .ticksSinceGreaterThan nth ticks =>
    pure (0, match env.historicalKeys[nth]? with
      | some he => decide (he.ticksSinceOccurrence > ticks)
      | none => false)
  | .input coord => pure (1, env.inputs.any fun c => c == coord)
  | .historicalInput input back =>
    pure (1, match env.historicalInputs[back]? with
      | some he => he.event == input
      | none => false)
  | .layer layer =>
    pure (1, match env.layers.head? with
      | some l => l == layer
      | none => false)
  | .baseLayer baseLayer => pure (1, env.defaultLayer == baseLayer)
  | .historicalDevice deviceId back =>
    pure (1, match env.deviceHistory[back]? with
      | some (some d) => d == deviceId
      | _ => false)
  | .callbackIndex i =>
    match env.callbacks[i]? with
    | some b => pure (1, b)
    | none => panicWith "index out of bounds: callbacks"

/-- The end of an iteration that evaluated a leaf: negate under `not`, then
either leave the operator or go to the next opcode. -/
def finishLeaf (s : EvalState) (extra : Nat) (value : Bool) : EvalState :=
  let ret := if s.currentOp = .not then !value else value
  if (ret = true ∧ s.currentOp = .or) ∨ (ret = false ∧ (s.currentOp = .and ∨ s.currentOp = .not))
  then { s with ret, currentIndex := s.currentEndIndex }
  else { s with ret, currentIndex := s.currentIndex + extra + 1 }

/-- One opcode of the loop body. -/
def evalOpCode (boolExpr : List OpCode) (env : SwitchEnv) (s : EvalState) : Rust EvalState :=
  match boolExpr[s.currentIndex]? with
  | none => panicWith "index out of bounds: bool_expr"
  | some c => do
    match ← OpCode.opcodeType c boolExpr[s.currentIndex + 1]? with
    | .booleanOp operator =>
      assertThat (s.stack.length < maxBoolExprDepth) "exceeded boolean op depth 8"
      pure { s with
        stack := ⟨s.currentOp, s.currentEndIndex⟩ :: s.stack
        currentOp := operator.op
        currentEndIndex := operator.idx
        currentIndex := s.currentIndex + 1 }
    | leaf =>
      let (extra, value) ← leafValue env leaf
      pure (finishLeaf s extra value)

/-- The final unwinding of the operators still on the stack. -/
def unwindStack (ret : Bool) (stack : List OperatorAndEndIndex) : Bool :=
  stack.foldl (fun r o => if o.op = .not then !r else r) ret

/-- The loop of `evaluate_boolean`. The fuel bounds its iterations. -/
def evalLoop (boolExpr : List OpCode) (env : SwitchEnv) : Nat → EvalState → Rust Bool
  | fuel, s =>
    if s.currentIndex < boolExpr.length then
      match fuel with
      | 0 => panicWith "out of fuel"
      | fuel + 1 =>
        if s.currentIndex ≥ s.currentEndIndex then
          match s.stack with
          | [] => pure s.ret
          | operator :: rest =>
            let s := { s with
              currentOp := operator.op, currentEndIndex := operator.idx, stack := rest }
            -- short-circuiting, or the enclosing operator ends here as well
            if (s.ret = true ∧ (s.currentOp = .or ∨ s.currentOp = .not)) ∨
                (s.ret = false ∧ s.currentOp = .and) ∨ s.currentIndex ≥ s.currentEndIndex then
              evalLoop boolExpr env fuel { s with
                ret := if s.currentOp = .not then !s.ret else s.ret
                currentIndex := s.currentEndIndex }
            else do
              evalLoop boolExpr env fuel (← evalOpCode boolExpr env s)
        else do
          evalLoop boolExpr env fuel (← evalOpCode boolExpr env s)
    else
      pure (unwindStack s.ret s.stack)

/-- Enough iterations for every array the parser emits: each one consumes an
opcode or pops an operator that an opcode pushed. -/
def evalFuel (boolExpr : List OpCode) : Nat := 2 * boolExpr.length

def evaluateBoolean (boolExpr : List OpCode) (env : SwitchEnv) : Rust Bool :=
  evalLoop boolExpr env (evalFuel boolExpr)
    { ret := true, currentIndex := 0, currentEndIndex := boolExpr.length
      currentOp := .or, stack := [] }

end Kanata.Switch
