import Kanata.Parser.LayerPasses

/-!
# Kanata.Parser.LayerPanics — the table is filled in bounds

The code of `parse_layers` indexes rows by key codes, the keys of `defsrc` by positions in a
layer, and the expressions of a layer from the third on. None of it is checked there: the
lengths are those that `parse_layer_indexes` has checked, and the keys of `defsrc` and the
number of virtual keys are as the passes before leave them.

`parseTable_panics`: a panic of the passes is one of `parse_action` or of following variables.
A row has no cell for the last key code, so the table of key names must not have it.
-/

namespace Kanata.Layers

open Fallible

variable {T : Type} {env : Env T} {defcfg : CfgOptions} {exprs : Exprs}

/-- An error, or a panic that is not of the passes themselves. -/
def Outside (env : Env T) (vars : Vars) : ParseFault → Prop
  | .error _ => True
  | .panic p => (∃ virtualKeys expr, env.parseAction virtualKeys expr = .error (.panic p)) ∨
      ∃ expr : SExpr, expr.atom (some vars) = .error p

/-- Every key name is of a key that has a cell. -/
def Env.InRows (env : Env T) : Prop :=
  ∀ name osc, env.strToOscode name = some osc → osc.code < keysInRow

/-! ## What the passes call -/

section Calls

variable {vars : Vars}

/-- An error is not a panic. -/
theorem ensures_bail {α : Type} {Q : α → Prop} (msg : String) :
    Ensures (bail msg : Parse α) Q (Outside env vars) := trivial

/-- Nor is one that names an expression. -/
theorem ensures_bailExpr {α : Type} {Q : α → Prop} (expr : SExpr) (msg : String) :
    Ensures (bailExpr expr msg : Parse α) Q (Outside env vars) := trivial

/-- What is missing is an error. -/
theorem ensures_okOrExpr {α : Type} {Q : α → Prop} {expr : SExpr} {msg : String} {o : Option α}
    (h : ∀ a, o = some a → Q a) : Ensures (okOrExpr expr msg o) Q (Outside env vars) := by
  cases o with
  | none => trivial
  | some a => exact h a rfl

/-- Following variables may end in a panic. -/
theorem ensures_atom (expr : SExpr) :
    Ensures (liftM (expr.atom (some vars)) : Parse (Option String))
      (fun name => expr.atom (some vars) = .ok name) (Outside env vars) := by
  rcases h : expr.atom (some vars) with p | name
  · exact .inr ⟨expr, h⟩
  · rfl

/-- Without variables there is nothing to follow. -/
theorem ensures_atom_none (expr : SExpr) :
    Ensures (liftM (expr.atom none) : Parse (Option String)) (fun _ => True)
      (Outside env vars) := by
  cases expr with
  | listNode l sp => trivial
  | atomNode a sp =>
    have htarget : Vars.target none a = none := by
      unfold Vars.target
      cases stripDollar a <;> rfl
    unfold SExpr.atom SExpr.atomAux
    rw [htarget]
    trivial

/-- `parse_action` may panic, and nothing is said about that. -/
theorem ensures_parseAction (virtualKeys : VirtualKeys T) (expr : SExpr) :
    Ensures (env.parseAction virtualKeys expr) (fun _ => True) (Outside env vars) := by
  rcases h : env.parseAction virtualKeys expr with (e | p) | a
  · trivial
  · exact .inl ⟨virtualKeys, expr, h⟩
  · trivial

/-- The keyword is taken off the front. -/
theorem ensures_checkFirstExpr (exprs : List SExpr) (keyword : String) :
    Ensures (checkFirstExpr exprs keyword) (fun rest => exprs.length = rest.length + 1)
      (Outside env vars) := by
  rcases h : checkFirstExpr exprs keyword with e | rest
  · unfold checkFirstExpr at h
    split at h
    · cases h
      trivial
    · cases h
      trivial
    · split at h
      · cases h
      · cases h
        trivial
  · rcases checkFirstExpr_eq_ok.mp h with ⟨sp, rfl⟩
    rfl

end Calls

/-! ## The passes before the layers -/

/-- Keys that are unknown or given twice are errors. -/
theorem parseDefsrcKeys_outside (vars : Vars) : ∀ (exprs : List SExpr) (mkeys : List OsCode)
    (codes : List Nat), Ensures (parseDefsrcKeys env.strToOscode exprs mkeys codes)
      (fun _ => True) (Outside env vars)
  | [], _, _ => trivial
  | .listNode _ _ :: _, _, _ => trivial
  | .atomNode a sp :: exprs, mkeys, codes => by
    unfold parseDefsrcKeys
    refine Ensures.bind (ensures_okOrExpr fun osc _ => ?_)
    split
    · trivial
    · exact parseDefsrcKeys_outside vars exprs _ _

/-- The keys of `defsrc` have cells. -/
theorem Defsrc.inRows {expr : List SExpr} {keys mkeys : List OsCode} {order : List Nat}
    (h : Defsrc env defcfg expr keys mkeys order) (hrows : env.InRows) :
    ∀ col ∈ order, col < keysInRow := by
  -- the keys are named in `defsrc`, and names are of keys with cells
  rcases h.names with ⟨rest, -, hnames⟩
  have hkeys : ∀ osc ∈ keys, osc.code < keysInRow := by
    clear h
    induction hnames with
    | nil => nofun
    | cons hfirst _ ih =>
      rcases hfirst with ⟨a, sp, -, hosc⟩
      exact List.forall_mem_cons.mpr ⟨hrows a _ hosc, ih⟩
  intro col hcol
  rw [h.order_eq] at hcol
  rcases List.mem_map.mp hcol with ⟨osc, hosc, rfl⟩
  exact hkeys osc hosc

/-- The order of the keys points to cells. -/
theorem parseDefsrc_outside (hrows : env.InRows) (vars : Vars) (expr : List SExpr) :
    Ensures (parseDefsrc env.strToOscode env.fromU16 defcfg expr)
      (fun r => ∀ col ∈ r.2, col < keysInRow) (Outside env vars) := by
  have hpanics : Ensures (parseDefsrc env.strToOscode env.fromU16 defcfg expr) (fun _ => True)
      (Outside env vars) := by
    unfold parseDefsrc
    refine Ensures.bind ((ensures_checkFirstExpr expr "defsrc").mono (fun rest _ => ?_)
      fun _ h => h)
    refine Ensures.bind ((parseDefsrcKeys_outside vars rest [] []).mono (fun r _ => ?_)
      fun _ h => h)
    dsimp only
    split
    · trivial
    · split <;> trivial
  refine hpanics.mono_ok (fun r hr _ => ?_) fun _ h => h
  rcases parseDefsrc_ok hr with ⟨keys, hdefsrc⟩
  exact hdefsrc.inRows hrows

/-- Options of a layer come in pairs, and one that is left over is not read. -/
theorem parseLayerOpts_outside (vars : Vars) : ∀ (opts : List SExpr) (icon : Option String),
    Ensures (parseLayerOpts opts icon) (fun _ => True) (Outside env vars)
  | [], _ => trivial
  | [_], _ => trivial
  | keyExpr :: valExpr :: opts, icon => by
    unfold parseLayerOpts
    refine Ensures.bind ((ensures_atom_none keyExpr).mono (fun key _ => ?_) fun _ h => h)
    refine Ensures.bind (ensures_okOrExpr fun optKey _ => ?_)
    split
    · split
      · trivial
      · refine Ensures.bind ((ensures_atom_none valExpr).mono (fun val _ => ?_) fun _ h => h)
        exact Ensures.bind (ensures_okOrExpr fun optVal _ => parseLayerOpts_outside vars opts _)
    · trivial

/-- The name of a layer, alone or with options. -/
theorem parseLayerName_outside (keyword : String) (vars : Vars) (layerExpr : SExpr) :
    Ensures (parseLayerName keyword vars layerExpr) (fun _ => True) (Outside env vars) := by
  unfold parseLayerName
  refine Ensures.bind ((ensures_atom layerExpr).mono (fun name hname => ?_) fun _ h => h)
  cases name with
  | some name => trivial
  | none =>
    -- what is not an atom is a list
    rcases SExpr.listAux_of_atomAux_none hname with ⟨l, hl⟩
    have hlist : layerExpr.list (some vars) = .ok (some l) := hl
    dsimp only
    rw [hlist, liftM_ok, ok_bind]
    cases l with
    | nil => trivial
    | cons first opts =>
      refine Ensures.bind ((ensures_atom first).mono (fun name _ => ?_) fun _ h => h)
      refine Ensures.bind (ensures_okOrExpr fun name _ => ?_)
      exact Ensures.bind ((parseLayerOpts_outside vars opts none).mono (fun _ _ => trivial)
        fun _ h => h)

/-- The layer has as many expressions as `parse_layers` relies on. -/
def Shaped (n : Nat) : LayerExprs → Prop
  | .defsrcMapping exprs => exprs.length = n + 2
  | .customMapping exprs => 2 ≤ exprs.length

/-- Stray parentheses are errors. -/
theorem checkParentheses_outside (vars : Vars) (exprs : List SExpr) :
    Ensures (checkParentheses exprs) (fun _ => True) (Outside env vars) := by
  induction exprs with
  | nil => trivial
  | cons expr exprs ih =>
    have hfirst : Ensures (checkParenthesis expr) (fun _ => True) (Outside env vars) := by
      unfold checkParenthesis
      split <;> trivial
    exact Ensures.bind (hfirst.mono (fun _ _ => ih) fun _ h => h)

/-- The number of actions of a `deflayer` is checked here, and relied on later. -/
theorem parseLayerIndex_outside (vars : Vars) (n : Nat) (layer : LayerExprs × Span)
    (names : List (String × Option String)) :
    Ensures (parseLayerIndex vars n layer names) (fun _ => Shaped n layer.1)
      (Outside env vars) := by
  unfold parseLayerIndex
  refine Ensures.bind ((ensures_checkFirstExpr _ _).mono (fun subexprs hlen => ?_) fun _ h => h)
  cases subexprs with
  | nil => trivial
  | cons layerExpr subexprs =>
    refine Ensures.bind ((parseLayerName_outside _ vars layerExpr).mono (fun name _ => ?_)
      fun _ h => h)
    dsimp only
    split
    · trivial
    · refine Ensures.bind ((checkParentheses_outside vars subexprs).mono (fun _ _ => ?_)
        fun _ h => h)
      rcases layer with ⟨layer, span⟩
      cases layer with
      | defsrcMapping exprs =>
        dsimp only
        split
        · trivial
        · rename_i hn
          rw [not_not] at hn
          change exprs.length = n + 2
          rw [← hn]
          exact hlen
      | customMapping exprs =>
        change 2 ≤ exprs.length
        change exprs.length = subexprs.length + 2 at hlen
        omega

/-- So every layer has its shape once the names are read. -/
theorem parseLayerIndexes_outside (vars : Vars) (n : Nat) (layers : List (LayerExprs × Span))
    (names : List (String × Option String)) :
    Ensures (parseLayerIndexes vars n layers names)
      (fun _ => ∀ layer ∈ layers.map Prod.fst, Shaped n layer) (Outside env vars) := by
  induction layers generalizing names with
  | nil => exact (nofun : ∀ layer ∈ [], Shaped n layer)
  | cons layer layers ih =>
    refine Ensures.bind ((parseLayerIndex_outside vars n layer names).mono
      (fun index hshaped => ?_) fun _ h => h)
    exact (ih _).mono (fun _ hrest => List.forall_mem_cons.mpr ⟨hshaped, hrest⟩) fun _ h => h

/-- The names and actions of virtual keys. -/
theorem parseKeyPairs_outside (texts : KeyTexts) (vars : Vars) : ∀ (exprs : List SExpr)
    (virtualKeys : VirtualKeys T), Ensures (parseKeyPairs env.parseAction vars texts.nameIsList
      texts.noAction texts.duplicate exprs virtualKeys) (fun _ => True) (Outside env vars)
  | [], _ => trivial
  | keyNameExpr :: subexprs, virtualKeys => by
    unfold parseKeyPairs
    refine Ensures.bind ((ensures_atom keyNameExpr).mono (fun name _ => ?_) fun _ h => h)
    refine Ensures.bind (ensures_okOrExpr fun keyName _ => ?_)
    cases subexprs with
    | nil => trivial
    | cons v subexprs =>
      refine Ensures.bind ((ensures_parseAction virtualKeys v).mono (fun action _ => ?_)
        fun _ h => h)
      split
      · trivial
      · exact parseKeyPairs_outside texts vars subexprs _

/-- All `deffakekeys` or all `defvirtualkeys`. -/
theorem parseKeyDefs_outside (texts : KeyTexts) (vars : Vars) (exprs : List (List SExpr))
    (virtualKeys : VirtualKeys T) : Ensures (parseKeyDefs texts env.parseAction vars exprs
      virtualKeys) (fun _ => True) (Outside env vars) := by
  unfold parseKeyDefs
  refine Ensures.bind ?_
  induction exprs generalizing virtualKeys with
  | nil =>
    change Ensures (if _ then _ else _) _ _
    split <;> trivial
  | cons expr exprs ih =>
    rw [List.foldlM_cons]
    refine Ensures.bind (Ensures.bind ((ensures_checkFirstExpr expr texts.keyword).mono
      (fun subexprs _ => ?_) fun _ h => h))
    exact (parseKeyPairs_outside texts vars subexprs virtualKeys).mono
      (fun virtualKeys _ => ih virtualKeys) fun _ h => h

/-! ## The layers -/

section Layers

variable {s : ParserState T}

/-- A cell in bounds is written. -/
theorem setCell_ok {col : Nat} (hcol : col < keysInRow) (row : Row T) (action : Action T) :
    ∃ row', setCell row col action = .ok row' :=
  ⟨_, setCell_eq_ok.mpr ⟨hcol, fun _ => rfl⟩⟩

/-- The cells of the keys of `defsrc` are in bounds. -/
theorem fillMapped_ok (action : Action T) : ∀ {cols : List Nat} (row : Row T),
    (∀ col ∈ cols, col < keysInRow) → ∃ row', fillMapped action cols row = .ok row'
  | [], row, _ => ⟨row, rfl⟩
  | col :: cols, row, hcols => by
    rcases List.forall_mem_cons.mp hcols with ⟨hcol, hcols⟩
    rw [fillMapped_cons hcol]
    exact fillMapped_ok action _ hcols

end Layers

section State

variable {vars : Vars} {order : List Nat} {virtualKeys : VirtualKeys T}

/-- The `i`-th action goes to the cell of the `i`-th key of `defsrc`, which there is. -/
theorem placeActions_outside (horder : ∀ col ∈ order, col < keysInRow) :
    ∀ (exprs : List SExpr) (i : Nat) (row : Row T), i + exprs.length ≤ order.length →
      Ensures (placeActions (env.state defcfg vars order virtualKeys) i exprs row)
        (fun _ => True) (Outside env vars)
  | [], _, _, _ => trivial
  | ac :: exprs, i, row, hlen => by
    unfold placeActions
    refine Ensures.bind ((ensures_parseAction virtualKeys ac).mono (fun action _ => ?_)
      fun _ h => h)
    -- as many actions as keys, which the names of the layers have checked
    have hi : i < order.length := by
      rw [List.length_cons] at hlen
      omega
    have hcol : (env.state defcfg vars order virtualKeys).mappingOrder[i]? = some order[i] :=
      List.getElem?_eq_getElem hi
    rw [hcol]
    rcases setCell_ok (horder _ (List.getElem_mem hi)) row action with ⟨row', hrow⟩
    dsimp only
    rw [hrow]
    refine placeActions_outside horder exprs (i + 1) row' ?_
    rw [List.length_cons] at hlen
    omega

/-- A pair of a `deflayermap`, by what its input is. -/
theorem mapPair_outside (hrows : env.InRows) (horder : ∀ col ∈ order, col < keysInRow)
    (input action : SExpr) (st : PairState T) :
    Ensures (mapPair (env.state defcfg vars order virtualKeys) defcfg input action st)
      (fun _ => True) (Outside env vars) := by
  unfold mapPair
  refine Ensures.bind ((ensures_parseAction virtualKeys action).mono (fun a _ => ?_)
    fun _ h => h)
  refine Ensures.bind ((ensures_atom input).mono (fun name _ => ?_) fun _ h => h)
  split
  · -- `_`
    split
    · trivial
    · split
      · trivial
      · rcases fillMapped_ok a st.row horder with ⟨row', hrow⟩
        change Ensures (liftRust (fillMapped a order st.row) >>= _) _ _
        rw [hrow]
        trivial
  · split
    · -- `__`
      repeat' split
      all_goals trivial
    · split
      · -- `___`
        repeat' split
        all_goals trivial
      · -- a key
        refine Ensures.bind (ensures_okOrExpr fun osc hosc => ?_)
        rcases Option.bind_eq_some_iff.mp hosc with ⟨a', -, hcode⟩
        rcases setCell_ok (hrows a' osc hcode) st.row a with ⟨row', hrow⟩
        split
        · trivial
        · rw [hrow]
          trivial

/-- An input without an action is not read. -/
theorem mapPairs_outside (hrows : env.InRows) (horder : ∀ col ∈ order, col < keysInRow) :
    ∀ (pairs : List SExpr) (st : PairState T),
      Ensures (mapPairs (env.state defcfg vars order virtualKeys) defcfg pairs st)
        (fun _ => True) (Outside env vars)
  | [], _ => trivial
  | [_], _ => trivial
  | input :: action :: pairs, st =>
    Ensures.bind ((mapPair_outside hrows horder input action st).mono
      (fun st' _ => mapPairs_outside hrows horder pairs st') fun _ h => h)

/-- A layer is read in bounds, and leaves what the next one relies on. -/
theorem parseLayer_outside (hrows : env.InRows) (horder : ∀ col ∈ order, col < keysInRow)
    {layer : LayerExprs} (hshaped : Shaped order.length layer) {mappedKeys : List OsCode}
    (hvirtual : ∃ row, setVirtualKeys virtualKeys newLayer.virtualKeys = .ok row) :
    Ensures (parseLayer (env.state defcfg vars order virtualKeys) defcfg layer mappedKeys)
      (fun _ => True) (Outside env vars) := by
  have hkeys : Ensures (parseKeys (env.state defcfg vars order virtualKeys) defcfg layer
      mappedKeys) (fun _ => True) (Outside env vars) := by
    cases layer with
    | defsrcMapping exprs =>
      have hlen : 0 + (exprs.drop 2).length ≤ order.length := by
        change exprs.length = order.length + 2 at hshaped
        rw [List.length_drop]
        omega
      exact Ensures.bind ((placeActions_outside horder _ 0 _ hlen).mono (fun _ _ => trivial)
        fun _ h => h)
    | customMapping exprs =>
      unfold parseKeys
      dsimp only
      rw [if_neg (Nat.not_lt.mpr hshaped)]
      exact Ensures.bind ((mapPairs_outside hrows horder _ _).mono (fun _ _ => trivial)
        fun _ h => h)
  rcases hvirtual with ⟨row, hrow⟩
  refine Ensures.bind (hkeys.mono (fun r _ => ?_) fun _ h => h)
  change Ensures (liftRust (setVirtualKeys virtualKeys newLayer.virtualKeys) >>= _) _ _
  rw [hrow]
  trivial

/-- The layers one after the other. -/
theorem parseEach_outside (hrows : env.InRows) (horder : ∀ col ∈ order, col < keysInRow)
    (hvirtual : ∃ row, setVirtualKeys virtualKeys newLayer.virtualKeys = .ok row) :
    ∀ (layers : List LayerExprs) (mappedKeys : List OsCode),
      (∀ layer ∈ layers, Shaped order.length layer) →
      Ensures (parseEach (env.state defcfg vars order virtualKeys) defcfg layers mappedKeys)
        (fun _ => True) (Outside env vars)
  | [], _, _ => trivial
  | layer :: layers, mappedKeys, hshaped => by
    rcases List.forall_mem_cons.mp hshaped with ⟨hfirst, hrest⟩
    unfold parseEach
    refine Ensures.bind ((parseLayer_outside hrows horder hfirst hvirtual).mono (fun r _ => ?_)
      fun _ h => h)
    exact Ensures.bind ((parseEach_outside hrows horder hvirtual layers r.2 hrest).mono
      (fun _ _ => trivial) fun _ h => h)

end State

/-- A panic of the passes is one of `parse_action` or of following variables. -/
theorem parseTable_panics (hrows : env.InRows) {p : Panic}
    (h : parseTable env defcfg exprs = .error (.panic p)) :
    (∃ virtualKeys expr, env.parseAction virtualKeys expr = .error (.panic p)) ∨
      ∃ expr : SExpr, expr.atom (some exprs.vars) = .error p := by
  -- each pass leaves what the next ones index by
  suffices hall : Ensures (parseTable env defcfg exprs) (fun _ => True)
      (Outside env exprs.vars) from hall.of_error h
  unfold parseTable
  refine Ensures.bind ((parseDefsrc_outside hrows exprs.vars exprs.defsrc).mono_ok
    (fun r hdefsrc horder => ?_) fun _ h => h)
  refine Ensures.bind ((parseLayerIndexes_outside exprs.vars _ exprs.layers []).mono_ok
    (fun names hnames hshaped => ?_) fun _ h => h)
  refine Ensures.bind ((parseKeyDefs_outside _ exprs.vars exprs.fakeKeys []).mono_ok
    (fun fakeKeys hfake _ => ?_) fun _ h => h)
  refine Ensures.bind ((parseKeyDefs_outside _ exprs.vars exprs.virtualKeys fakeKeys).mono_ok
    (fun virtualKeys hvirtual _ => ?_) fun _ h => h)
  have hprepared : Prepared env defcfg exprs names r.1 r.2 virtualKeys :=
    ⟨hdefsrc, hnames, fakeKeys, hfake, hvirtual⟩
  have hfilled : ∃ row, setVirtualKeys virtualKeys newLayer.virtualKeys = .ok row :=
    ⟨_, hprepared.built.setVirtualKeys []⟩
  refine Ensures.bind (Ensures.mono (x := parseLayers _ _ _ _) (Q := fun _ => True) ?_
    (fun _ _ => trivial) fun _ h => h)
  unfold parseLayers
  split
  · trivial
  · exact parseEach_outside hrows horder hfilled _ _ hshaped

/-- A key that `deflocalkeys` calls by the last code has no cell: `(defsrc x)` and
`(deflayer base a)`. -/
example : parseTable { keysAB with strToOscode := fun _ => some ⟨keyCodeMax, Nat.le_refl _⟩ }
    noUnmapped { restAndA with
      defsrc := [.atomNode "defsrc" noSpan, .atomNode "x" noSpan]
      layers := [(.defsrcMapping [.atomNode "deflayer" noSpan, .atomNode "base" noSpan,
        .atomNode "a" noSpan], noSpan)] } = .error (.panic ⟨"index out of bounds"⟩) := rfl

theorem parseTable_panics_action : (∃ virtualKeys expr,
    ({ keysAB with parseAction := fun _ _ => .error (.panic ⟨"bug"⟩) } : Env Unit).parseAction
      virtualKeys expr = .error (.panic ⟨"bug"⟩)) ∨
      ∃ expr : SExpr, expr.atom (some restAndA.vars) = .error ⟨"bug"⟩ := by
  refine @parseTable_panics _ _ noUnmapped _ (fun name osc h => ?_) _ rfl
  dsimp only [keysAB] at h
  split at h
  · cases h
    decide
  · split at h
    · cases h
      decide
    · cases h

end Kanata.Layers
