import Kanata.Parser.Vars
import Kanata.Keyberon.Layout

/-!
# Kanata.Parser.Layers — from `defsrc` and the layers to the table of actions

The passes of `parse_cfg_raw_string` that fill the table the layout looks keys up in:
`parse_defsrc`, `parse_layer_indexes`, `parse_fake_keys`, `parse_virtual_keys` and
`parse_layers`.

`parse_action` is a parameter, a function of the virtual keys so far and of the expression.
-/

namespace Kanata.Layers

open Fallible

variable {T : Type}

/-! ## The table -/

/-- `KEYS_IN_ROW`. -/
def keysInRow : Nat := keyCodeMax

/-- `MAX_LAYERS`. -/
def maxLayers : Nat := 60000

abbrev Row (T : Type) := Fin keysInRow → Action T

/-- The two rows of a layer. -/
structure LayerRows (T : Type) where
  keys : Row T
  virtualKeys : Row T

theorem errorUndefined_le : 0 ≤ keyCodeMax := Nat.zero_le _

/-- `KeyCode::ErrorUndefined`. -/
def errorUndefined : KeyCode := ⟨0, errorUndefined_le⟩

/-- `DEFAULT_ACTION`. -/
def defaultAction : Action T := .keyCode errorUndefined

/-- The comparison with `DEFAULT_ACTION`. -/
def isDefault : Action T → Bool
  | .keyCode kc => kc == errorUndefined
  | _ => false

/-- One layer of `new_layers`. -/
def newLayer : LayerRows T := ⟨fun _ => defaultAction, fun _ => defaultAction⟩

def getCell (row : Row T) (i : Nat) : Rust (Action T) :=
  if h : i < keysInRow then pure (row ⟨i, h⟩) else panicWith "index out of bounds"

def setCell (row : Row T) (i : Nat) (action : Action T) : Rust (Row T) :=
  if h : i < keysInRow then pure (Function.update row ⟨i, h⟩ action)
  else panicWith "index out of bounds"

/-! ## Virtual keys -/

/-- The virtual keys by name, each with its index. -/
abbrev VirtualKeys (T : Type) := List (String × Nat × Action T)

/-- The loop over the pairs of `deffakekeys` or `defvirtualkeys`; the texts of its errors
name the kind of keys. -/
def parseKeyPairs (parseAction : VirtualKeys T → SExpr → Parse (Action T)) (vars : Vars)
    (nameIsList noAction duplicate : String) : List SExpr → VirtualKeys T →
    Parse (VirtualKeys T)
  | [], virtualKeys => pure virtualKeys
  | keyNameExpr :: subexprs, virtualKeys => do
    let keyName ← okOrExpr keyNameExpr nameIsList (← keyNameExpr.atom (some vars))
    match subexprs with
    | [] => bailExpr keyNameExpr noAction
    | v :: subexprs => do
      let action ← parseAction virtualKeys v
      if (virtualKeys.lookup keyName).isSome then bailExpr keyNameExpr (duplicate ++ keyName)
      else
        parseKeyPairs parseAction vars nameIsList noAction duplicate subexprs
          (virtualKeys ++ [(keyName, virtualKeys.length, action)])

/-- The texts of `parse_fake_keys` and `parse_virtual_keys`. -/
structure KeyTexts where
  keyword : String
  nameIsList : String
  noAction : String
  duplicate : String
  kind : String

/-- The function of which `parse_fake_keys` and `parse_virtual_keys` are cases. -/
def parseKeyDefs (texts : KeyTexts) (parseAction : VirtualKeys T → SExpr → Parse (Action T))
    (vars : Vars) (exprs : List (List SExpr)) (virtualKeys : VirtualKeys T) :
    Parse (VirtualKeys T) := do
  let virtualKeys ← exprs.foldlM (fun virtualKeys expr => do
    let subexprs ← checkFirstExpr expr texts.keyword
    parseKeyPairs parseAction vars texts.nameIsList texts.noAction texts.duplicate
      subexprs virtualKeys) virtualKeys
  if virtualKeys.length > keysInRow then
    bail s!"Maximum number of {texts.kind} keys is {keysInRow}, found {virtualKeys.length}"
  else pure virtualKeys

/-- `parse_fake_keys`. -/
def parseFakeKeys (parseAction : VirtualKeys T → SExpr → Parse (Action T)) (vars : Vars)
    (exprs : List (List SExpr)) (virtualKeys : VirtualKeys T) : Parse (VirtualKeys T) :=
  parseKeyDefs ⟨"deffakekeys", "Fake key name must not be a list.",
    "Fake key name has no action - you should add an action.", "Duplicate fake key: ", "fake"⟩
    parseAction vars exprs virtualKeys

/-- `parse_virtual_keys`. -/
def parseVirtualKeys (parseAction : VirtualKeys T → SExpr → Parse (Action T)) (vars : Vars)
    (exprs : List (List SExpr)) (virtualKeys : VirtualKeys T) : Parse (VirtualKeys T) :=
  parseKeyDefs ⟨"defvirtualkeys", "Virtual key name must not be a list.",
    "Virtual key name has no action - you must add an action.", "Duplicate virtual key: ",
    "virtual"⟩ parseAction vars exprs virtualKeys

/-! ## `defsrc` -/

/-- What is used of `CfgOptions`. -/
structure CfgOptions where
  blockUnmappedKeys : Bool
  processUnmappedKeys : Bool
  processUnmappedKeysExceptions : Option (List (OsCode × SExpr))

/-- The keys of `defsrc`: those that are mapped and their codes in order. -/
def parseDefsrcKeys (strToOscode : String → Option OsCode) :
    List SExpr → List OsCode → List Nat → Parse (List OsCode × List Nat)
  | [], mkeys, orderedCodes => pure (mkeys, orderedCodes)
  | .listNode l sp :: _, _, _ => bailExpr (.listNode l sp) "No lists allowed in defsrc"
  | .atomNode s sp :: exprs, mkeys, orderedCodes => do
    let oscode ← okOrExpr (.atomNode s sp) s!"Unknown key in defsrc: \"{s}\"" (strToOscode s)
    if mkeys.contains oscode then
      bailExpr (.atomNode s sp) s!"Repeat declaration of key in defsrc: \"{s}\""
    else parseDefsrcKeys strToOscode exprs (mkeys ++ [oscode]) (orderedCodes ++ [oscode.code])

/-- `OsCode::is_mouse_code`: the buttons and the wheel. -/
def isMouseCode (osc : OsCode) : Bool :=
  [272, 273, 274, 275, 276, 745, 746, 747, 748].contains osc.code

/-- `KeyCode::No` has the code 240. -/
def isNo (osc : OsCode) : Bool := osc.code == 240

/-- `parse_defsrc`. -/
def parseDefsrc (strToOscode : String → Option OsCode) (fromU16 : Nat → Option OsCode)
    (defcfg : CfgOptions) (expr : List SExpr) : Parse (List OsCode × List Nat) := do
  let exprs ← checkFirstExpr expr "defsrc"
  let (mkeys, orderedCodes) ← parseDefsrcKeys strToOscode exprs [] []
  let exceptions := defcfg.processUnmappedKeysExceptions.getD []
  match exceptions.find? fun excluded => mkeys.contains excluded.1 with
  | some excluded =>
    bailExpr excluded.2
      "Keys cannot be included in defsrc and also excepted in process-unmapped-keys."
  | none =>
    if defcfg.processUnmappedKeys then
      let unmapped := ((List.range keysInRow).filterMap fromU16).filter fun osc =>
        !isMouseCode osc && !isNo osc && !(exceptions.map Prod.fst).contains osc
      pure (mkeys ++ unmapped.filter fun osc => !mkeys.contains osc, orderedCodes)
    else pure (mkeys, orderedCodes)

/-! ## The names of the layers -/

inductive LayerExprs where
  | defsrcMapping (exprs : List SExpr)
  | customMapping (exprs : List SExpr)

def deflayer : String := "deflayer"
def deflayerMapped : String := "deflayermap"

def LayerExprs.exprs : LayerExprs → List SExpr
  | .defsrcMapping exprs => exprs
  | .customMapping exprs => exprs

def LayerExprs.keyword : LayerExprs → String
  | .defsrcMapping _ => deflayer
  | .customMapping _ => deflayerMapped

/-- `bail_span!`. -/
def bailSpan {α : Type} (span : Span) (msg : String) : Parse α := .error (.error ⟨msg, some span⟩)

/-- `DEFLAYER_ICON`. -/
def deflayerIcon : List String := ["icon", "🖻", "🖼"]

/-- `DEFLAYER_ICON` in the texts of errors. -/
def deflayerIconDebug : String := "[\"icon\", \"🖻\", \"🖼\"]"

/-- `parse_layer_opts`. The only option is the icon, under its first name. -/
def parseLayerOpts : List SExpr → Option String → Parse (Option String)
  | [], icon => pure icon
  | [rem], _ => bailExpr rem "This option is missing a value."
  | keyExpr :: valExpr :: opts, icon => do
    let optKey ← okOrExpr keyExpr "No lists are allowed in deflayer options"
      (← keyExpr.atom none)
    if deflayerIcon.contains optKey then
      if icon.isSome then
        bailExpr keyExpr
          (s!"Duplicate option found in deflayer: {optKey}, one of {deflayerIconDebug} " ++
            "already exists")
      else do
        let optVal ← okOrExpr valExpr "No lists are allowed in deflayer's option values"
          (← valExpr.atom none)
        parseLayerOpts opts (some optVal)
    else
      bailExpr keyExpr
        s!"Invalid option in deflayer: {optKey}, expected one of {deflayerIconDebug}"

/-- The name of a layer and its icon. -/
def parseLayerName (keyword : String) (vars : Vars) (layerExpr : SExpr) :
    Parse (String × Option String) := do
  match ← layerExpr.atom (some vars) with
  | some name => pure (name, none)
  | none =>
    match ← layerExpr.list (some vars) with
    | none => liftRust (panicWith "called `Option::unwrap()` on a `None` value")
    | some [] => bailExpr layerExpr (s!"{keyword} requires a string name within this pair of " ++
        "parentheses (or a string name without any)")
    | some (first :: opts) => do
      let name ← okOrExpr layerExpr (s!"layer name after {keyword} must be a string when " ++
        "enclosed within one pair of parentheses") (← first.atom (some vars))
      let icon ← parseLayerOpts opts none
      pure (name, icon.map trimAtomQuotes)

def parenthesesText : String :=
  "You can't put parentheses in deflayer directly, because they are special characters for " ++
  "delimiting lists.\nTo get `(` and `)` in US layout, you should use `S-9` and `S-0` " ++
  "respectively.\nFor more context, see: https://github.com/jtroo/kanata/issues/459"

def escapingText : String :=
  "Escaping shifted characters with `\\` is currently not supported in kanata.\n" ++
  "To get `(` and `)` in US layout, you should use `S-9` and `S-0` respectively.\n" ++
  "For more context, see: https://github.com/jtroo/kanata/issues/163"

/-- Parentheses that are meant as keys. -/
def checkParenthesis : SExpr → Parse Unit
  | .atomNode _ _ => pure ()
  | .listNode [] sp => bailExpr (.listNode [] sp) parenthesesText
  | .listNode [.atomNode "\\" sp'] sp =>
    bailExpr (.listNode [.atomNode "\\" sp'] sp) escapingText
  | .listNode _ _ => pure ()

def checkParentheses : List SExpr → Parse Unit
  | [] => pure ()
  | subexpr :: subexprs => do
    checkParenthesis subexpr
    checkParentheses subexprs

/-- The checks of a layer after those before it, and its name and icon. -/
def parseLayerIndex (vars : Vars) (expectedLen : Nat) (layer : LayerExprs × Span)
    (layers : List (String × Option String)) : Parse (String × Option String) := do
  let subexprs ← checkFirstExpr layer.1.exprs layer.1.keyword
  match subexprs with
  | [] => bailSpan layer.2 (s!"{layer.1.keyword} requires a layer name after " ++
      s!"`{layer.1.keyword}` token")
  | layerExpr :: subexprs => do
    let (name, icon) ← parseLayerName layer.1.keyword vars layerExpr
    if (layers.lookup name).isSome then
      bailExpr layerExpr s!"duplicate layer name: {name}"
    else do
      checkParentheses subexprs
      match layer.1 with
      | .defsrcMapping _ =>
        if subexprs.length ≠ expectedLen then
          bailSpan layer.2 (s!"Layer {name} has {subexprs.length} item(s), but requires " ++
            s!"{expectedLen} to match defsrc")
        else pure (name, icon)
      | .customMapping _ => pure (name, icon)

/-- `parse_layer_indexes`: the names of the layers in order, each with its icon. -/
def parseLayerIndexes (vars : Vars) (expectedLen : Nat) :
    List (LayerExprs × Span) → List (String × Option String) →
    Parse (List (String × Option String))
  | [], layers => pure layers
  | layer :: exprs, layers => do
    let index ← parseLayerIndex vars expectedLen layer layers
    parseLayerIndexes vars expectedLen exprs (layers ++ [index])

/-! ## The layers -/

/-- What is used of `ParserState`. `strToOscode` is the table of key names with the keys of
`deflocalkeys`; `windows` is the operating system the code is compiled for. -/
structure ParserState (T : Type) where
  vars : Vars
  mappingOrder : List Nat
  blockUnmappedKeys : Bool
  virtualKeys : VirtualKeys T
  strToOscode : String → Option OsCode
  parseAction : VirtualKeys T → SExpr → Parse (Action T)
  windows : Bool

/-- `is_a_button`. -/
def isAButton (windows : Bool) (osc : Nat) : Bool :=
  if windows then (1 ≤ osc && osc ≤ 6) || 256 ≤ osc else 256 ≤ osc

namespace ParserState

variable (s : ParserState T)

/-- `parse_action(expr, s)`. -/
def action (expr : SExpr) : Parse (Action T) := s.parseAction s.virtualKeys expr

end ParserState

/-- The actions of `deflayer`, from the position `i` on. -/
def placeActions (s : ParserState T) : Nat → List SExpr → Row T → Parse (Row T)
  | _, [], row => pure row
  | i, ac :: layer, row => do
    let ac ← s.action ac
    match s.mappingOrder[i]? with
    | none => liftRust (panicWith "index out of bounds")
    | some col => do
      let row ← liftRust (setCell row col ac)
      placeActions s (i + 1) layer row

/-- The loop over the keys of `defsrc` for `_`. -/
def fillMapped (action : Action T) : List Nat → Row T → Rust (Row T)
  | [], row => pure row
  | col :: mappingOrder, row => do
    let old ← getCell row col
    if isDefault old then do
      let row ← setCell row col action
      fillMapped action mappingOrder row
    else fillMapped action mappingOrder row

/-- The loops over a row that put an action where there is none yet. -/
def fillWhere (p : Nat → Bool) (action : Nat → Action T) (row : Row T) : Row T := fun i =>
  if isDefault (row i) && p i then action i else row i

/-- The loop over the pairs of `deflayermap`: what it has of the row, of the mapped keys and
of the inputs so far. -/
structure PairState (T : Type) where
  row : Row T
  mappedKeys : List OsCode
  layerMappedKeys : List OsCode
  defsrcAnykeyUsed : Bool
  unmappedAnykeyUsed : Bool
  bothAnykeyUsed : Bool

/-- A pair of `deflayermap`. -/
def mapPair (s : ParserState T) (defcfg : CfgOptions) (input action : SExpr) (st : PairState T) :
    Parse (PairState T) := do
  let action ← s.action action
  let name ← input.atom (some s.vars)
  if name = some "_" then
    if st.defsrcAnykeyUsed then
      bailExpr input "must have only one use of _ within a layer"
    else if st.bothAnykeyUsed then
      bailExpr input "must either use _ or ___ within a layer, not both"
    else do
      let row ← liftRust (fillMapped action s.mappingOrder st.row)
      pure { st with row, defsrcAnykeyUsed := true }
  else if name = some "__" then
    if st.unmappedAnykeyUsed then
      bailExpr input "must have only one use of __ within a layer"
    else if !defcfg.processUnmappedKeys then
      bailExpr input "must set process-unmapped-keys to yes to use __ to map unmapped keys"
    else if st.bothAnykeyUsed then
      bailExpr input "must either use __ or ___ within a layer, not both"
    else
      let row := fillWhere (fun i => !s.mappingOrder.contains i) (fun _ => action) st.row
      pure { st with row, unmappedAnykeyUsed := true }
  else if name = some "___" then
    if st.bothAnykeyUsed then
      bailExpr input "must have only one use of ___ within a layer"
    else if st.defsrcAnykeyUsed then
      bailExpr input "must either use _ or ___ within a layer, not both"
    else if st.unmappedAnykeyUsed then
      bailExpr input "must either use __ or ___ within a layer, not both"
    else if !defcfg.processUnmappedKeys then
      bailExpr input "must set process-unmapped-keys to yes to use ___ to also map unmapped keys"
    else
      let row := fillWhere (fun _ => true) (fun _ => action) st.row
      pure { st with row, bothAnykeyUsed := true }
  else do
    let inputKey ← okOrExpr input "input must be a key name" (name.bind s.strToOscode)
    if st.layerMappedKeys.contains inputKey then
      bailExpr input "input key must not be repeated within a layer"
    else do
      let row ← liftRust (setCell st.row inputKey.code action)
      pure { st with
        row
        mappedKeys := st.mappedKeys.insert inputKey
        layerMappedKeys := st.layerMappedKeys ++ [inputKey] }

def mapPairs (s : ParserState T) (defcfg : CfgOptions) :
    List SExpr → PairState T → Parse (PairState T)
  | [], st => pure st
  | [rem], _ => bailExpr rem "input must by followed by an action"
  | input :: action :: pairs, st => do
    let st ← mapPair s defcfg input action st
    mapPairs s defcfg pairs st

/-- What is left in a row when all actions are in their places. -/
def fillRest (s : ParserState T) (row : Row T) : Row T :=
  fillWhere (fun _ => true)
    (fun i => if s.blockUnmappedKeys && !isAButton s.windows i then .noOp else .trans) row

def setVirtualKeys (virtualKeys : VirtualKeys T) (row : Row T) : Rust (Row T) :=
  virtualKeys.foldlM (fun row key => setCell row (asU16 key.2.1) key.2.2) row

/-- The first key of a row is never pressed. -/
def setFirst (row : Row T) : Row T := fun i => if i.val = 0 then .noOp else row i

/-- What a layer says about the keys. -/
def parseKeys (s : ParserState T) (defcfg : CfgOptions) (layer : LayerExprs)
    (mappedKeys : List OsCode) : Parse (Row T × List OsCode) :=
  match layer with
  | .defsrcMapping exprs => do
    let row ← placeActions s 0 (exprs.drop 2) newLayer.keys
    pure (row, mappedKeys)
  | .customMapping exprs =>
    if exprs.length < 2 then liftRust (panicWith "range start index 2 out of range for slice")
    else do
      let st ← mapPairs s defcfg (exprs.drop 2)
        ⟨newLayer.keys, mappedKeys, [], false, false, false⟩
      pure (st.row, st.mappedKeys)

/-- A layer. -/
def parseLayer (s : ParserState T) (defcfg : CfgOptions) (layer : LayerExprs)
    (mappedKeys : List OsCode) : Parse (LayerRows T × List OsCode) := do
  let (row, mappedKeys) ← parseKeys s defcfg layer mappedKeys
  let virtualKeys ← liftRust (setVirtualKeys s.virtualKeys newLayer.virtualKeys)
  pure (⟨setFirst (fillRest s row), virtualKeys⟩, mappedKeys)

def parseEach (s : ParserState T) (defcfg : CfgOptions) :
    List LayerExprs → List OsCode → Parse (List (LayerRows T) × List OsCode)
  | [], mappedKeys => pure ([], mappedKeys)
  | layer :: layerExprs, mappedKeys => do
    let (rows, mappedKeys) ← parseLayer s defcfg layer mappedKeys
    let (layers, mappedKeys) ← parseEach s defcfg layerExprs mappedKeys
    pure (rows :: layers, mappedKeys)

/-- `parse_layers`. -/
def parseLayers (s : ParserState T) (defcfg : CfgOptions) (layerExprs : List LayerExprs)
    (mappedKeys : List OsCode) : Parse (List (LayerRows T) × List OsCode) :=
  if layerExprs.length > maxLayers then
    bail s!"Maximum number of layers ({maxLayers}) exceeded."
  else parseEach s defcfg layerExprs mappedKeys

/-! ## The passes -/

/-- The expressions of a configuration that the passes read, and the variables. -/
structure Exprs where
  defsrc : List SExpr
  layers : List (LayerExprs × Span)
  fakeKeys : List (List SExpr)
  virtualKeys : List (List SExpr)
  vars : Vars

/-- The tables of names and of key codes, `parse_action`, and the operating system. -/
structure Env (T : Type) where
  strToOscode : String → Option OsCode
  fromU16 : Nat → Option OsCode
  parseAction : VirtualKeys T → SExpr → Parse (Action T)
  windows : Bool

/-- The state of the parser when the layers are read. -/
def Env.state (env : Env T) (defcfg : CfgOptions) (vars : Vars) (mappingOrder : List Nat)
    (virtualKeys : VirtualKeys T) : ParserState T :=
  ⟨vars, mappingOrder, defcfg.blockUnmappedKeys, virtualKeys, env.strToOscode, env.parseAction,
    env.windows⟩

/-- What the passes give: the layers, their names and the mapped keys. -/
structure Table (T : Type) where
  names : List (String × Option String)
  layers : List (LayerRows T)
  mappedKeys : List OsCode

/-- The passes of `parse_cfg_raw_string`. -/
def parseTable (env : Env T) (defcfg : CfgOptions) (exprs : Exprs) : Parse (Table T) := do
  let (mappedKeys, mappingOrder) ←
    parseDefsrc env.strToOscode env.fromU16 defcfg exprs.defsrc
  let names ← parseLayerIndexes exprs.vars mappingOrder.length exprs.layers []
  let fakeKeys ← parseFakeKeys env.parseAction exprs.vars exprs.fakeKeys []
  let virtualKeys ← parseVirtualKeys env.parseAction exprs.vars exprs.virtualKeys fakeKeys
  let (layers, mappedKeys) ← parseLayers (env.state defcfg exprs.vars mappingOrder virtualKeys)
    defcfg (exprs.layers.map Prod.fst) mappedKeys
  pure ⟨names, layers, mappedKeys⟩

end Kanata.Layers
