import Kanata.Parser.Switch

/-!
# Kanata.Switch.Meaning — what a key match says

The abstract side of the switch action: the expression a key-match list denotes
and its truth value. Leaves carry their bounds in their types, so a leaf that an
opcode could not hold cannot be written.

* `BoolExpr.meaning`: the recursive truth value;
* `Reads`: the expression that a piece of configuration text denotes;
* `BoolExpr.code`: the opcodes of an expression placed at an index.
-/

namespace Kanata.Switch

/-! ## Expressions -/

@[instance] theorem neZero_byte : @NeZero Nat Zero.ofOfNat0 256 := ⟨by decide⟩

/-- A condition without operands. `recency` 0 is the most recent event. -/
inductive Leaf where
  | key (kc : KeyCode)
  | keyHistory (kc : KeyCode) (recency : Fin 8)
  | ticksSinceLt (nthKey : Fin 8) (ticks : Fin 65536)
  | ticksSinceGt (nthKey : Fin 8) (ticks : Fin 65536)
  | input (row : Fin 4) (y : Fin 1024)
  | inputHistory (row : Fin 4) (y : Fin 1024) (recency : Fin 8)
  | layer (l : Fin maxLayers)
  | baseLayer (l : Fin maxLayers)
  | deviceHistory (id : Fin 256) (nonzero : id ≠ 0) (recency : Fin 8)
  | cmdExit (f : CallbackFn) (index : Nat)

inductive BoolExpr where
  | leaf (l : Leaf)
  | op (o : BooleanOperator) (es : List BoolExpr)

/-- `or` is true iff some operand is, `and` iff all are, `not` iff none is. -/
def BooleanOperator.apply : BooleanOperator → List Bool → Bool
  | .or, vs => vs.any id
  | .and, vs => vs.all id
  | .not, vs => !vs.any id

/-- The tick value that a `key-timing` item is compared against: the opcode
stores it compressed. -/
def storedTicks (t : Nat) : Nat := lossyDecompressTicks (lossyCompressTicks t)

/-- The truth value of a leaf. `run` gives what each callback returns. -/
def Leaf.meaning (env : SwitchEnv) (run : CallbackFn → Bool) : Leaf → Bool
  | .key kc => env.keyCodes.any fun k => k == kc
  | .keyHistory kc recency =>
    match env.historicalKeys[recency.val]? with
    | some he => he.event == kc
    | none => false
  | .ticksSinceLt nth ticks =>
    match env.historicalKeys[nth.val]? with
    | some he => decide (he.ticksSinceOccurrence ≤ storedTicks ticks)
    | none => false
  | .ticksSinceGt nth ticks =>
    match env.historicalKeys[nth.val]? with
    | some he => decide (he.ticksSinceOccurrence > storedTicks ticks)
    | none => false
  | .input row y => env.inputs.any fun c => c == (row.val, y.val)
  | .inputHistory row y recency =>
    match env.historicalInputs[recency.val]? with
    | some he => he.event == (row.val, y.val)
    | none => false
  | .layer l =>
    match env.layers.head? with
    | some cur => cur == l.val
    | none => false
  | .baseLayer l => env.defaultLayer == l.val
  | .deviceHistory id _ recency =>
    match env.deviceHistory[recency.val]? with
    | some (some d) => d == id.val
    | _ => false
  | .cmdExit f _ => run f

mutual

/-- The truth value of an expression. -/
def BoolExpr.meaning (env : SwitchEnv) (run : CallbackFn → Bool) : BoolExpr → Bool
  | .leaf l => l.meaning env run
  | .op o es => o.apply (BoolExpr.meanings env run es)

def BoolExpr.meanings (env : SwitchEnv) (run : CallbackFn → Bool) : List BoolExpr → List Bool
  | [] => []
  | e :: es => e.meaning env run :: BoolExpr.meanings env run es

end

theorem BoolExpr.meanings_eq_map (env : SwitchEnv) (run : CallbackFn → Bool)
    (es : List BoolExpr) :
    BoolExpr.meanings env run es = es.map (BoolExpr.meaning env run) := by
  induction es with
  | nil => rfl
  | cons e es ih => simp [BoolExpr.meanings, ih]

mutual

/-- Every operator has an operand. -/
def BoolExpr.HasOperands : BoolExpr → Prop
  | .leaf _ => True
  | .op _ es => es ≠ [] ∧ BoolExpr.AllHaveOperands es

def BoolExpr.AllHaveOperands : List BoolExpr → Prop
  | [] => True
  | e :: es => e.HasOperands ∧ BoolExpr.AllHaveOperands es

end

mutual

/-- How many operators enclose the innermost operand. -/
def BoolExpr.nesting : BoolExpr → Nat
  | .leaf _ => 0
  | .op _ es => BoolExpr.nestings es

def BoolExpr.nestings : List BoolExpr → Nat
  | [] => 0
  | e :: es => max (e.nesting + 1) (BoolExpr.nestings es)

end

/-! ## Reading the text

`Reads s text e` says that the configuration text denotes the expression. It is
stated with the parser's own words for atoms, numbers and names only. -/

/-- The text is a list that begins with the given word. -/
def ListOp (s : ParserState) (text : SExpr) (op : AllowedListOps) (args : List SExpr) : Prop :=
  ∃ head word, text.atom s.vars = .ok none ∧ text.list s.vars = .ok (some (head :: args)) ∧
    head.atom s.vars = .ok (some word) ∧ AllowedListOps.ofString word = some op

/-- The text is an atom with this content. -/
def IsAtom (s : ParserState) (text : SExpr) (a : String) : Prop :=
  text.atom s.vars = .ok (some a)

/-- The text names a key. -/
def NamesKey (s : ParserState) (text : SExpr) (kc : KeyCode) : Prop :=
  ∃ a, IsAtom s text a ∧ s.strToOscode a = some kc

/-- The text is a recency, counted from 1. -/
def IsRecency (s : ParserState) (text : SExpr) (recency : Fin 8) : Prop :=
  ∃ a, IsAtom s text a ∧ parseUInt 255 a = some (recency.val + 1)

/-- The two texts name a coordinate: a key of the keyboard in row 0, a virtual
key, by its index, in row 1. -/
def NamesCoord (s : ParserState) (keyType key : SExpr) (row : Fin 4) (y : Fin 1024) : Prop :=
  ∃ word, IsAtom s keyType word ∧
    ((InputType.ofString word = some .real ∧ row = 0 ∧ ∃ kc, NamesKey s key kc ∧ kc.code = y.val) ∨
     (InputType.ofString word = some .virtual ∧ row = 1 ∧
       ∃ name idx, IsAtom s key name ∧ s.virtualKeys.lookup name = some idx ∧
         idx % (u16Max + 1) = y.val))

def NamesLayer (s : ParserState) (text : SExpr) (l : Fin maxLayers) : Prop :=
  ∃ a, IsAtom s text a ∧ s.layerIdxs.lookup a = some l.val

def IsTicks (s : ParserState) (text : SExpr) (ticks : Fin 65536) : Prop :=
  ∃ a, IsAtom s text a ∧ parseUInt u16Max a = some ticks.val

/-- The leaf that a list beginning with `op` denotes. -/
inductive ReadsLeaf (s : ParserState) : AllowedListOps → List SExpr → Leaf → Prop where
  | keyHistory {key recency kc r} (hkey : NamesKey s key kc) (hr : IsRecency s recency r) :
      ReadsLeaf s .keyHistory [key, recency] (.keyHistory kc r)
  | input {keyType key row y} (hc : NamesCoord s keyType key row y) :
      ReadsLeaf s .input [keyType, key] (.input row y)
  | inputHistory {keyType key recency row y r} (hc : NamesCoord s keyType key row y)
      (hr : IsRecency s recency r) :
      ReadsLeaf s .inputHistory [keyType, key, recency] (.inputHistory row y r)
  | ticksSinceLt {recency cmp millis word r t} (hr : IsRecency s recency r)
      (hcmp : IsAtom s cmp word) (hword : word = "less-than" ∨ word = "lt")
      (ht : IsTicks s millis t) :
      ReadsLeaf s .keyTiming [recency, cmp, millis] (.ticksSinceLt r t)
  | ticksSinceGt {recency cmp millis word r t} (hr : IsRecency s recency r)
      (hcmp : IsAtom s cmp word) (hword : word = "greater-than" ∨ word = "gt")
      (ht : IsTicks s millis t) :
      ReadsLeaf s .keyTiming [recency, cmp, millis] (.ticksSinceGt r t)
  | layer {name l} (hl : NamesLayer s name l) : ReadsLeaf s .layer [name] (.layer l)
  | baseLayer {name l} (hl : NamesLayer s name l) : ReadsLeaf s .baseLayer [name] (.baseLayer l)
  | deviceHistory {device recency a id r} (hne : id ≠ 0) (ha : IsAtom s device a)
      (hid : parseUInt 255 a = some id.val) (hr : IsRecency s recency r) :
      ReadsLeaf s .deviceHistory [device, recency] (.deviceHistory id hne r)
  | cmdExit {code a f index} (ha : IsAtom s code a) (hf : parseI32 a = some f.exitcode) :
      ReadsLeaf s .cmdExit [code] (.cmdExit f index)

/-- The word of an operator. -/
def BooleanOperator.word : BooleanOperator → AllowedListOps
  | .or => .or
  | .and => .and
  | .not => .not

mutual

/-- The expression a text denotes. -/
inductive Reads (s : ParserState) : SExpr → BoolExpr → Prop where
  | key {text kc} (h : NamesKey s text kc) : Reads s text (.leaf (.key kc))
  | leaf {text op args l} (hop : ListOp s text op args) (hl : ReadsLeaf s op args l) :
      Reads s text (.leaf l)
  | op {text o args es} (hop : ListOp s text o.word args) (hes : ReadsAll s args es) :
      Reads s text (.op o es)

inductive ReadsAll (s : ParserState) : List SExpr → List BoolExpr → Prop where
  | nil : ReadsAll s [] []
  | cons {text texts e es} (h : Reads s text e) (hs : ReadsAll s texts es) :
      ReadsAll s (text :: texts) (e :: es)

end

/-! ## Opcodes of an expression -/

/-- The opcodes of a leaf. -/
def Leaf.code : Leaf → List OpCode
  | .key kc => [kc.code]
  | .keyHistory kc recency => [historicalKeycodeVal + recency.val * 4096 + kc.code]
  | .ticksSinceLt nth ticks => [ticksSinceValLt + nth.val * 1024 + lossyCompressTicks ticks]
  | .ticksSinceGt nth ticks => [ticksSinceValGt + nth.val * 1024 + lossyCompressTicks ticks]
  | .input row y => [inputVal, row.val * 16384 + y.val]
  | .inputHistory row y recency =>
    [historicalInputVal, row.val * 16384 + recency.val * 2048 + y.val]
  | .layer l => [layerVal, l.val]
  | .baseLayer l => [baseLayerVal, l.val]
  | .deviceHistory id _ recency => [historicalDeviceVal, recency.val * 256 + id.val]
  | .cmdExit _ index => [callbackIndexVal, index]

mutual

/-- The opcodes of an expression placed at index `off`. An operator stores the
index at which its operands end. -/
def BoolExpr.code (off : Nat) : BoolExpr → List OpCode
  | .leaf l => l.code
  | .op o es =>
    (off + 1 + (BoolExpr.codes (off + 1) es).length + o.toU16) :: BoolExpr.codes (off + 1) es

def BoolExpr.codes (off : Nat) : List BoolExpr → List OpCode
  | [] => []
  | e :: es => e.code off ++ BoolExpr.codes (off + (e.code off).length) es

end

mutual

/-- Every end index fits in an opcode. -/
def BoolExpr.Fits (off : Nat) : BoolExpr → Prop
  | .leaf _ => True
  | .op _ es =>
    off + 1 + (BoolExpr.codes (off + 1) es).length ≤ maxOpcodeLen ∧ BoolExpr.AllFit (off + 1) es

def BoolExpr.AllFit (off : Nat) : List BoolExpr → Prop
  | [] => True
  | e :: es => e.Fits off ∧ BoolExpr.AllFit (off + (e.code off).length) es

end

mutual

/-- Every callback index leads to the callback it was parsed from. -/
def BoolExpr.Linked (callbacks : List CallbackFn) : BoolExpr → Prop
  | .leaf (.cmdExit f index) => callbacks[index]? = some f
  | .leaf _ => True
  | .op _ es => BoolExpr.AllLinked callbacks es

def BoolExpr.AllLinked (callbacks : List CallbackFn) : List BoolExpr → Prop
  | [] => True
  | e :: es => e.Linked callbacks ∧ BoolExpr.AllLinked callbacks es

end

theorem Leaf.code_length_pos (l : Leaf) : 0 < l.code.length := by
  cases l <;> simp [Leaf.code]

theorem BoolExpr.code_length_pos (off : Nat) (e : BoolExpr) : 0 < (e.code off).length := by
  cases e with
  | leaf l => simpa [BoolExpr.code] using l.code_length_pos
  | op o es => simp [BoolExpr.code]

end Kanata.Switch
