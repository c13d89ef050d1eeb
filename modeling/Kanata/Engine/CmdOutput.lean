import Kanata.Engine.Output
import Kanata.Lexing.Trees
import Kanata.Parser.Macro

/-!
# Kanata.Engine.CmdOutput — the keys that a command prints

`cmd-output-keys` runs a command and performs the S-expression that it prints:
keys, delays, output chords, and lists that may stand under modifiers. The code is
that of `src/kanata/cmd.rs`; what it cannot read it skips with a warning, which is
left out here.

`readAll` keeps the lists as the text has them, and `markedAll` pairs each key
action with the modifiers of the lists around it.

Main result:
* `cmdOutput_scoped_iff` — whatever is printed, the keys are read without a panic
  and none of those pressed is down in the end; the modifiers of a list are down
  throughout it exactly if nothing inside names one of them again.
-/

namespace Kanata.CmdOutput

open Fallible Macro

inductive KeyAction where
  | press (osc : OsCode)
  | release (osc : OsCode)
  | delay (ms : Nat)
deriving DecidableEq, Repr

/-- `strToOscode` is the table of key names, and `quote` is how a string is shown with
`{:?}`. -/
structure Names where
  strToOscode : String → Option OsCode
  quote : String → String

/-! ## From S-expressions to key actions -/

/-- `&exprs[1..]`. -/
def fromSecond : List SExpr → Rust (List SExpr)
  | [] => panicWith "range start index 1 out of range for slice of length 0"
  | _ :: rest => pure rest

/-- `try_parse_chorded_key`. -/
def tryParseChordedKey (s : Names) (mods : List KeyCode) (osc : String) (items : List KeyAction) :
    List KeyAction :=
  if mods.isEmpty then items
  else
    match s.strToOscode osc with
    | some osc => items ++ mods.map .press ++ [.press osc] ++ mods.map .release ++ [.release osc]
    | none => items

/-- `try_parse_chorded_list`. `loop` reads a list to its end. -/
def tryParseChordedList (loop : List SExpr → List KeyAction → Rust (List KeyAction))
    (mods : List KeyCode) (exprs : List SExpr) (items : List KeyAction) :
    Rust (List KeyAction × List SExpr) :=
  match exprs with
  | [] => pure (items, exprs)
  -- the atom is not consumed
  | .atomNode _ _ :: _ => pure (items, exprs)
  | .listNode subexprs _ :: rest => do
    let items ← loop subexprs (items ++ mods.map .press)
    pure (items ++ mods.map .release, rest)

/-- `try_parse_chord`. -/
def tryParseChord (s : Names) (loop : List SExpr → List KeyAction → Rust (List KeyAction))
    (chord : String) (exprs : List SExpr) (items : List KeyAction) :
    Rust (List KeyAction × List SExpr) := do
  let rest ← fromSecond exprs
  match parseModPrefix s.quote chord with
  | .ok (mods, osc) =>
    if osc.isEmpty then tryParseChordedList loop mods rest items
    else pure (tryParseChordedKey s mods osc items, rest)
  | .error (.panic p) => .error p
  | .error (.error _) => pure (items, rest)

/-- The loop `while !remainder.is_empty()`. A turn takes at least one of the
expressions, so there are no more turns than expressions. -/
def whileItems (parseItems : List SExpr → List KeyAction → Rust (List KeyAction × List SExpr)) :
    Nat → List SExpr → List KeyAction → Rust (List KeyAction)
  | _, [], items => pure items
  | 0, _ :: _, _ => panicWith "the loop does not end"
  | n + 1, expr :: exprs, items => do
    let (items, remainder) ← parseItems (expr :: exprs) items
    whileItems parseItems n remainder items

/-- `parse_items`, with the depth of the call stack. -/
def parseItems (s : Names) :
    Nat → List SExpr → List KeyAction → Rust (List KeyAction × List SExpr)
  | 0, _, _ => panicWith "stack overflow"
  | _ + 1, [], _ => panicWith "index out of bounds: the len is 0 but the index is 0"
  | depth + 1, .atomNode t span :: rest, items =>
    match s.strToOscode t with
    | some osc => pure (items ++ [.press osc, .release osc], rest)
    | none =>
      match parseUInt u16Max t with
      | some delay => pure (items ++ [.delay delay], rest)
      | none =>
        tryParseChord s (fun exprs => whileItems (parseItems s depth) exprs.length exprs) t
          (.atomNode t span :: rest) items
  | depth + 1, .listNode exprs _ :: rest, items => do
    let items ← whileItems (parseItems s depth) exprs.length exprs items
    pure (items, rest)

mutual

/-- How deep lists are nested. -/
def nesting : SExpr → Nat
  | .atomNode _ _ => 0
  | .listNode exprs _ => nestingAll exprs + 1

def nestingAll : List SExpr → Nat
  | [] => 0
  | expr :: exprs => max (nesting expr) (nestingAll exprs)

end

theorem nestingAll_suffix {exprs exprs' : List SExpr} (h : exprs <:+ exprs') :
    nestingAll exprs ≤ nestingAll exprs' := by
  rcases h with ⟨front, rfl⟩
  induction front with
  | nil => exact Nat.le_refl _
  | cons expr front ih => exact Nat.le_trans ih (Nat.le_max_right _ _)

/-- `from_sexpr`, with a call stack that is as deep as the lists. -/
def fromSexpr (s : Names) (sexpr : List SExpr) : Rust (List KeyAction) :=
  whileItems (parseItems s (nestingAll sexpr + 1)) sexpr.length sexpr []

/-- `keys_for_cmd_output`, for what the command prints if it can be run. -/
def keysForCmdOutput (s : Names) (stdout : Option (List Char)) : Rust (List KeyAction) :=
  match stdout with
  | none => pure []
  | some stdout =>
    match Lexer.parse stdout true with
    | .ok ([list], _) => fromSexpr s list.1
    | .ok _ => pure []
    | .error (.panic p) => .error p
    | .error (.error _) => pure []

/-- What `handle_keystate_changes` does for a key action. -/
def perform : KeyAction → List KbdCall
  | .press osc => OutputLogic.pressKey osc
  | .release osc => OutputLogic.releaseKey osc
  | .delay _ => []

/-! ## The keys that are down -/

/-- The keys and buttons that are down after a call. The wheel is never down. -/
def KbdCall.downAfter (down : List OsCode) : KbdCall → List OsCode
  | .pressKey osc => down ++ [osc]
  | .clickBtn osc => down ++ [osc]
  | .releaseKey osc => down.filter fun osc' => osc' != osc
  | .releaseBtn osc => down.filter fun osc' => osc' != osc
  | .scroll _ => down

/-- The keys that are down after a key action. -/
def downAfter (down : List OsCode) (a : KeyAction) : List OsCode :=
  (perform a).foldl KbdCall.downAfter down

def downAfterAll (down : List OsCode) (actions : List KeyAction) : List OsCode :=
  actions.foldl downAfter down

/-- The code is that of a key or button: it goes down and comes up. -/
def isHeld (osc : OsCode) : Bool := !OsCode.isIgnored osc && !OsCode.isWheel osc

section Down

variable {down : List OsCode} {osc k : OsCode}

theorem isWheel_of_isButton (h : OsCode.isButton osc = true) : OsCode.isWheel osc = false := by
  simp only [OsCode.isButton, OsCode.isWheel, decide_eq_true_eq, decide_eq_false_iff_not] at h ⊢
  omega

theorem mem_downAfter_press :
    k ∈ downAfter down (.press osc) ↔ k ∈ down ∨ isHeld osc = true ∧ k = osc := by
  show k ∈ (OutputLogic.pressKey osc).foldl KbdCall.downAfter down ↔ _
  unfold OutputLogic.pressKey isHeld
  split_ifs with hignored hbutton hwheel
  · simp [hignored]
  · simp [hignored, isWheel_of_isButton hbutton, KbdCall.downAfter]
  · simp [hwheel, KbdCall.downAfter]
  · simp [hignored, hwheel, KbdCall.downAfter]

theorem mem_downAfter_release :
    k ∈ downAfter down (.release osc) ↔ k ∈ down ∧ (isHeld osc = true → k ≠ osc) := by
  show k ∈ (OutputLogic.releaseKey osc).foldl KbdCall.downAfter down ↔ _
  unfold OutputLogic.releaseKey isHeld
  split_ifs with hignored hbutton hwheel
  · simp [hignored]
  · simp [hignored, isWheel_of_isButton hbutton, KbdCall.downAfter]
  · simp [hwheel]
  · simp [hignored, hwheel, KbdCall.downAfter]

theorem downAfterAll_append (down : List OsCode) (as as' : List KeyAction) :
    downAfterAll down (as ++ as') = downAfterAll (downAfterAll down as) as' := List.foldl_append

theorem mem_downAfterAll_presses :
    ∀ {kcs down : List OsCode},
      k ∈ downAfterAll down (kcs.map .press) ↔ k ∈ down ∨ isHeld k = true ∧ k ∈ kcs
  | [], down => by simp [downAfterAll]
  | kc :: kcs, down => by
    show k ∈ downAfterAll (downAfter down (.press kc)) (kcs.map .press) ↔ _
    rw [mem_downAfterAll_presses, mem_downAfter_press, List.mem_cons]
    constructor
    · rintro ((h | ⟨h, rfl⟩) | ⟨h, hmem⟩)
      · exact .inl h
      · exact .inr ⟨h, .inl rfl⟩
      · exact .inr ⟨h, .inr hmem⟩
    · rintro (h | ⟨h, rfl | hmem⟩)
      · exact .inl (.inl h)
      · exact .inl (.inr ⟨h, rfl⟩)
      · exact .inr ⟨h, hmem⟩

theorem mem_downAfterAll_releases :
    ∀ {kcs down : List OsCode},
      k ∈ downAfterAll down (kcs.map .release) ↔ k ∈ down ∧ (isHeld k = true → k ∉ kcs)
  | [], down => by simp [downAfterAll]
  | kc :: kcs, down => by
    show k ∈ downAfterAll (downAfter down (.release kc)) (kcs.map .release) ↔ _
    rw [mem_downAfterAll_releases, mem_downAfter_release, List.mem_cons, and_assoc]
    constructor
    · rintro ⟨h, hne, hnot⟩
      refine ⟨h, fun hk => ?_⟩
      rintro (rfl | hmem)
      · exact hne hk rfl
      · exact hnot hk hmem
    · rintro ⟨h, hnot⟩
      refine ⟨h, ?_, fun hk hmem => hnot hk (.inr hmem)⟩
      rintro hk rfl
      exact hnot hk (.inl rfl)

end Down

/-! ## Modifiers -/

/-- A key that a prefix can name. -/
abbrev Modifier := {kc : KeyCode // isHeld kc = true}

theorem isHeld_of_keymodi : ∀ m ∈ keymodi, isHeld m.2.1 = true := by decide

/-- A prefix is read or refused, and the keys that it names go down and come up. -/
theorem parseModPrefix_held (quote : String → String) (mods : String) :
    Ensures (parseModPrefix quote mods) (fun r => ∀ kc ∈ r.1, isHeld kc = true) Refused :=
  parseModPrefix_ensures isHeld_of_keymodi

/-- The keys of a prefix. All of them are kept: `parseModPrefix_held`. -/
def asModifiers (kcs : List KeyCode) : List Modifier :=
  kcs.filterMap fun kc => if h : isHeld kc = true then some ⟨kc, h⟩ else none

theorem map_asModifiers : ∀ {kcs : List KeyCode}, (∀ kc ∈ kcs, isHeld kc = true) →
    (asModifiers kcs).map Subtype.val = kcs
  | [], _ => rfl
  | kc :: kcs, h => by
    have hkc : isHeld kc = true := h kc List.mem_cons_self
    have hkcs := map_asModifiers fun kc' hkc' => h kc' (List.mem_cons_of_mem _ hkc')
    unfold asModifiers at hkcs ⊢
    rw [List.filterMap_cons_some (dif_pos hkc), List.map_cons, hkcs]

/-! ## What the text says -/

/-- An item of the output. -/
inductive CmdItem where
  | key (osc : OsCode)
  | delay (ms : Nat)
  | chord (mods : List Modifier) (osc : OsCode)
  | list (items : List CmdItem)
  /-- A list that stands under modifiers. -/
  | group (mods : List Modifier) (items : List CmdItem)

/-- What an atom stands for. -/
inductive Meaning where
  | item (item : CmdItem)
  /-- The modifiers of the list that follows. -/
  | mods (mods : List Modifier)
  | nothing

def meaning (s : Names) (t : String) : Meaning :=
  match s.strToOscode t with
  | some osc => .item (.key osc)
  | none =>
    match parseUInt u16Max t with
    | some delay => .item (.delay delay)
    | none =>
      match parseModPrefix s.quote t with
      | .error _ => .nothing
      | .ok (mods, osc) =>
        if osc.isEmpty then .mods (asModifiers mods)
        else if mods.isEmpty then .nothing
        else
          match s.strToOscode osc with
          | some osc => .item (.chord (asModifiers mods) osc)
          | none => .nothing

mutual

/-- The items inside an expression. -/
def inside (s : Names) : SExpr → List CmdItem
  | .atomNode _ _ => []
  | .listNode exprs _ => readAll s exprs

/-- The items of a list. Modifiers with no list after them stand for nothing. -/
def readAll (s : Names) : List SExpr → List CmdItem
  | [] => []
  | .listNode exprs span :: rest => .list (inside s (.listNode exprs span)) :: readAll s rest
  | .atomNode t _ :: rest =>
    match meaning s t with
    | .item item => item :: readAll s rest
    | .nothing => readAll s rest
    | .mods mods =>
      match rest with
      | [] => []
      | .listNode exprs span :: rest =>
        .group mods (inside s (.listNode exprs span)) :: readAll s rest
      | .atomNode t span :: rest => readAll s (.atomNode t span :: rest)

end

/-- The items of what the command prints. -/
def printed (s : Names) (stdout : Option (List Char)) : List CmdItem :=
  match stdout with
  | none => []
  | some stdout =>
    match Lexer.parse stdout true with
    | .ok ([list], _) => readAll s list.1
    | _ => []

/-! ## What is performed inside which lists -/

/-- A key action, and the modifiers of the lists that enclose it. -/
abbrev Marked := KeyAction × List Modifier

def pressAll (ctx mods : List Modifier) : List Marked := mods.map fun m => (.press m.1, ctx)

def releaseAll (ctx mods : List Modifier) : List Marked := mods.map fun m => (.release m.1, ctx)

mutual

/-- The key actions of an item inside these modifiers. -/
def CmdItem.marked (ctx : List Modifier) : CmdItem → List Marked
  | .key osc => [(.press osc, ctx), (.release osc, ctx)]
  | .delay ms => [(.delay ms, ctx)]
  | .chord mods osc =>
    pressAll ctx mods ++ [(.press osc, ctx)] ++ releaseAll ctx mods ++ [(.release osc, ctx)]
  | .list items => markedAll ctx items
  | .group mods items =>
    pressAll ctx mods ++ markedAll (ctx ++ mods) items ++ releaseAll ctx mods

def markedAll (ctx : List Modifier) : List CmdItem → List Marked
  | [] => []
  | item :: items => item.marked ctx ++ markedAll ctx items

end

/-- The key actions without the lists around them. -/
def actionsOf (xs : List Marked) : List KeyAction := xs.map Prod.fst

theorem actionsOf_singleton (x : Marked) : actionsOf [x] = [x.1] := rfl

theorem actionsOf_append (xs ys : List Marked) :
    actionsOf (xs ++ ys) = actionsOf xs ++ actionsOf ys := List.map_append

theorem actionsOf_pressAll (ctx mods : List Modifier) :
    actionsOf (pressAll ctx mods) = (mods.map Subtype.val).map .press := by
  unfold actionsOf pressAll
  rw [List.map_map, List.map_map]
  rfl

theorem actionsOf_releaseAll (ctx mods : List Modifier) :
    actionsOf (releaseAll ctx mods) = (mods.map Subtype.val).map .release := by
  unfold actionsOf releaseAll
  rw [List.map_map, List.map_map]
  rfl

/-! ## The reading is what the code does -/

section Reading

variable {s : Names} {t : String} {span : Span} {rest : List SExpr} {items : List KeyAction}
  {depth : Nat}

/-- What `parse_items` does with an atom follows what the atom stands for. -/
theorem parseItems_atom (ctx : List Modifier) :
    parseItems s (depth + 1) (.atomNode t span :: rest) items =
      match meaning s t with
      | .item item => .ok (items ++ actionsOf (item.marked ctx), rest)
      | .mods mods =>
        tryParseChordedList (fun exprs => whileItems (parseItems s depth) exprs.length exprs)
          (mods.map Subtype.val) rest items
      | .nothing => .ok (items, rest) := by
  have hheld := parseModPrefix_held s.quote t
  rw [parseItems]
  unfold meaning tryParseChord
  cases s.strToOscode t with
  | some osc => rfl
  | none =>
    cases parseUInt u16Max t with
    | some delay => rfl
    | none =>
      cases hread : parseModPrefix s.quote t with
      | error e =>
        rw [hread] at hheld
        rcases hheld with ⟨e, rfl⟩
        rfl
      | ok r =>
        rcases r with ⟨mods, osc⟩
        rw [hread] at hheld
        have hmods : (asModifiers mods).map Subtype.val = mods := map_asModifiers hheld
        simp only [fromSecond, tryParseChordedKey]
        split_ifs with hempty hnone
        · -- the modifiers of a list
          dsimp only
          rw [hmods]
          rfl
        · rfl
        · cases s.strToOscode osc with
          | some osc =>
            simp only [CmdItem.marked, actionsOf_append, actionsOf_pressAll, actionsOf_releaseAll,
              hmods, List.append_assoc]
            rfl
          | none => rfl

/-- The loop reads these items, whatever is around them. -/
def ReadsTo (s : Names) (exprs : List SExpr) (read : List CmdItem) : Prop :=
  ∀ (ctx : List Modifier) (depth n : Nat) (items : List KeyAction), nestingAll exprs ≤ depth →
    exprs.length ≤ n →
    whileItems (parseItems s (depth + 1)) n exprs items =
      .ok (items ++ actionsOf (markedAll ctx read))

variable {exprs : List SExpr} {expr : SExpr} {read read' : List CmdItem}

theorem ReadsTo.nil : ReadsTo s [] [] := by
  intro ctx depth n items _ _
  rw [whileItems, markedAll]
  exact congrArg _ (List.append_nil items).symm

/-- A turn of the loop that leaves a part of the expressions. -/
theorem ReadsTo.turn {left : List SExpr} (h : ReadsTo s left read') (hsuffix : left <:+ rest)
    (hturn : ∀ (ctx : List Modifier) (depth : Nat) (items : List KeyAction),
      nestingAll (expr :: rest) ≤ depth → ∃ items',
        parseItems s (depth + 1) (expr :: rest) items = .ok (items', left) ∧
          items' ++ actionsOf (markedAll ctx read') = items ++ actionsOf (markedAll ctx read)) :
    ReadsTo s (expr :: rest) read := by
  intro ctx depth n items hdepth hlen
  cases n with
  | zero => cases hlen
  | succ n =>
    rcases hturn ctx depth items hdepth with ⟨items', hitems, hsame⟩
    have hnesting : nestingAll left ≤ nestingAll (expr :: rest) :=
      nestingAll_suffix (hsuffix.trans (List.suffix_cons expr rest))
    have hleft : left.length ≤ n :=
      Nat.le_trans hsuffix.length_le (Nat.le_of_succ_le_succ hlen)
    rw [whileItems, hitems, ok_bind]
    dsimp only
    rw [h ctx depth n items' (Nat.le_trans hnesting hdepth) hleft, hsame]

/-- The loop over the inside of a list. -/
theorem ReadsTo.inner (h : ReadsTo s exprs read) (ctx : List Modifier)
    (hdepth : nestingAll (.listNode exprs span :: rest) ≤ depth) (items : List KeyAction) :
    whileItems (parseItems s depth) exprs.length exprs items =
      .ok (items ++ actionsOf (markedAll ctx read)) := by
  have hinner : nestingAll exprs + 1 ≤ depth := Nat.le_trans (Nat.le_max_left _ _) hdepth
  cases depth with
  | zero => cases hinner
  | succ depth => exact h ctx depth _ items (Nat.le_of_succ_le_succ hinner) (Nat.le_refl _)

/-- By induction on the text. -/
theorem readsTo (exprs : List SExpr) : ReadsTo s exprs (readAll s exprs) := by
  refine readAll.induct s (fun expr => ∀ exprs span, expr = .listNode exprs span →
    ReadsTo s exprs (inside s expr)) (fun exprs => ReadsTo s exprs (readAll s exprs))
    ?_ ?_ ?_ ?_ ?_ ?_ ?_ ?_ ?_ exprs
  · intro t span exprs span' heq
    cases heq
  · intro exprs span ih exprs' span' heq
    cases heq
    rw [inside]
    exact ih
  · rw [readAll]
    exact ReadsTo.nil
  · -- a list
    intro exprs span rest ihlist ihrest
    refine ihrest.turn (List.suffix_refl rest) ?_
    intro ctx depth items hdepth
    refine ⟨items ++ actionsOf (markedAll ctx (inside s (.listNode exprs span))), ?_, ?_⟩
    · rw [parseItems, (ihlist exprs span rfl).inner ctx hdepth items, ok_bind]
      rfl
    · rw [readAll, markedAll, CmdItem.marked, actionsOf_append, List.append_assoc]
  · intro t span rest item hmeaning ih
    refine ih.turn (List.suffix_refl rest) ?_
    intro ctx depth items hdepth
    refine ⟨items ++ actionsOf (item.marked ctx), ?_, ?_⟩
    · rw [parseItems_atom ctx, hmeaning]
    · rw [readAll, hmeaning, markedAll, actionsOf_append, List.append_assoc]
  · intro t span rest hmeaning ih
    refine ih.turn (List.suffix_refl rest) ?_
    intro ctx depth items hdepth
    refine ⟨items, ?_, ?_⟩
    · rw [parseItems_atom ctx, hmeaning]
    · rw [readAll, hmeaning]
  · -- modifiers and nothing else
    intro t span mods hmeaning
    refine ReadsTo.nil.turn (List.suffix_refl _) ?_
    intro ctx depth items hdepth
    refine ⟨items, ?_, ?_⟩
    · rw [parseItems_atom ctx, hmeaning]
      rfl
    · rw [readAll, hmeaning]
  · -- the modifiers take the list with them
    intro t span mods hmeaning exprs span' rest ihlist ihrest
    refine ihrest.turn (List.suffix_cons _ rest) ?_
    intro ctx depth items hdepth
    have hlist : nestingAll (.listNode exprs span' :: rest) ≤ depth :=
      Nat.le_trans (Nat.le_max_right _ _) hdepth
    refine ⟨items ++ actionsOf ((CmdItem.group mods (inside s (.listNode exprs span'))).marked ctx),
      ?_, ?_⟩
    · rw [parseItems_atom ctx, hmeaning]
      dsimp only
      rw [tryParseChordedList, (ihlist exprs span' rfl).inner (ctx ++ mods) hlist, ok_bind,
        CmdItem.marked]
      simp only [actionsOf_append, actionsOf_pressAll, actionsOf_releaseAll, List.append_assoc]
      rfl
    · rw [readAll, hmeaning, markedAll, actionsOf_append, List.append_assoc]
  · -- the atom after the modifiers is not taken
    intro t span mods hmeaning t' span' rest ih
    refine ih.turn (List.suffix_refl _) ?_
    intro ctx depth items hdepth
    refine ⟨items, ?_, ?_⟩
    · rw [parseItems_atom ctx, hmeaning]
      rfl
    · conv_rhs => rw [readAll, hmeaning]

end Reading

/-- The code performs the items that are printed, and does not panic. -/
theorem keysForCmdOutput_eq (s : Names) (stdout : Option (List Char)) :
    keysForCmdOutput s stdout = .ok (actionsOf (markedAll [] (printed s stdout))) := by
  unfold keysForCmdOutput printed
  cases stdout with
  | none => rfl
  | some stdout =>
    dsimp only
    cases hparse : Lexer.parse stdout true with
    | error e =>
      rcases (Lexer.parse_refused stdout true).of_error hparse with ⟨e, rfl⟩
      rfl
    | ok r =>
      rcases r with ⟨lists, metadata⟩
      rcases lists with _ | ⟨list, _ | ⟨list', lists⟩⟩
      · rfl
      · exact readsTo list.1 [] _ _ [] (Nat.le_refl _) (Nat.le_refl _)
      · rfl

/-! ## What is down in the end -/

/-- Of the keys that were down those are left that no action presses. -/
def Settled (actions : List KeyAction) : Prop :=
  ∀ (k : OsCode), isHeld k = true → ∀ down : List OsCode,
    k ∈ downAfterAll down actions ↔ k ∈ down ∧ .press k ∉ actions

section Settled

variable {as as' : List KeyAction}

theorem Settled.nil : Settled [] := by
  intro k _ down
  exact (and_iff_left List.not_mem_nil).symm

theorem Settled.delay (ms : Nat) : Settled [.delay ms] := by
  intro k _ down
  show k ∈ down ↔ _
  simp

theorem Settled.append (h : Settled as) (h' : Settled as') : Settled (as ++ as') := by
  intro k hk down
  rw [downAfterAll_append, h' k hk, h k hk, List.mem_append, not_or, and_assoc]

/-- Keys that are held around the actions. -/
theorem Settled.wrap (h : Settled as) (kcs : List OsCode) :
    Settled (kcs.map .press ++ as ++ kcs.map .release) := by
  intro k hk down
  rw [downAfterAll_append, downAfterAll_append, mem_downAfterAll_releases, h k hk,
    mem_downAfterAll_presses]
  simp only [List.mem_append, List.mem_map, KeyAction.press.injEq, exists_eq_right, reduceCtorEq,
    and_false, exists_false, or_false, not_or, hk, true_and, true_implies]
  tauto

end Settled

mutual

theorem CmdItem.settled (ctx : List Modifier) :
    ∀ item : CmdItem, Settled (actionsOf (item.marked ctx))
  | .key osc => by
    rw [CmdItem.marked]
    exact Settled.nil.wrap [osc]
  | .delay ms => by
    rw [CmdItem.marked]
    exact Settled.delay ms
  | .chord mods osc => by
    have h := Settled.nil.wrap (mods.map Subtype.val ++ [osc])
    simp only [CmdItem.marked, actionsOf_append, actionsOf_pressAll, actionsOf_releaseAll,
      actionsOf_singleton]
    simpa using h
  | .list items => by
    rw [CmdItem.marked]
    exact markedAll_settled ctx items
  | .group mods items => by
    simp only [CmdItem.marked, actionsOf_append, actionsOf_pressAll, actionsOf_releaseAll]
    exact (markedAll_settled (ctx ++ mods) items).wrap _

theorem markedAll_settled (ctx : List Modifier) :
    ∀ items : List CmdItem, Settled (actionsOf (markedAll ctx items))
  | [] => by
    rw [markedAll]
    exact Settled.nil
  | item :: items => by
    rw [markedAll, actionsOf_append]
    exact (item.settled ctx).append (markedAll_settled ctx items)

end

/-! ## Modifiers that are held -/

/-- These modifiers are down. -/
def Holds (down : List OsCode) (ctx : List Modifier) : Prop := ∀ m ∈ ctx, m.1 ∈ down

/-- Before and after each action the modifiers of all lists around it are down. -/
def Scoped : List OsCode → List Marked → Prop
  | _, [] => True
  | down, x :: xs =>
    Holds down x.2 ∧ Holds (downAfter down x.1) x.2 ∧ Scoped (downAfter down x.1) xs

instance (down : List OsCode) (ctx : List Modifier) : Decidable (Holds down ctx) :=
  inferInstanceAs (Decidable (∀ m ∈ ctx, m.1 ∈ down))

instance decidableScoped : ∀ (down : List OsCode) (xs : List Marked), Decidable (Scoped down xs)
  | _, [] => inferInstanceAs (Decidable True)
  | down, x :: xs =>
    have := decidableScoped (downAfter down x.1) xs
    inferInstanceAs (Decidable (Holds down x.2 ∧ Holds (downAfter down x.1) x.2 ∧
      Scoped (downAfter down x.1) xs))

mutual

/-- Nothing in the item names a modifier of a list around it again. -/
def CmdItem.fresh (ctx : List Modifier) : CmdItem → Prop
  | .key osc => ∀ m ∈ ctx, m.1 ≠ osc
  | .delay _ => True
  | .chord mods osc => (∀ m ∈ ctx, m ∉ mods) ∧ ∀ m ∈ ctx, m.1 ≠ osc
  | .list items => freshAll ctx items
  | .group mods items => (∀ m ∈ ctx, m ∉ mods) ∧ freshAll (ctx ++ mods) items

def freshAll (ctx : List Modifier) : List CmdItem → Prop
  | [] => True
  | item :: items => item.fresh ctx ∧ freshAll ctx items

end

section Scoped

variable {ctx mods : List Modifier} {down : List OsCode} {xs ys : List Marked} {osc : OsCode}

theorem scoped_append : ∀ {xs : List Marked} {down : List OsCode}, Scoped down (xs ++ ys) ↔
    Scoped down xs ∧ Scoped (downAfterAll down (actionsOf xs)) ys
  | [], down => (true_and _).symm.to_iff
  | x :: xs, down => by
    have ih : Scoped (downAfter down x.1) (xs ++ ys) ↔ _ := scoped_append
    show _ ∧ _ ∧ Scoped _ (xs ++ ys) ↔ (_ ∧ _ ∧ Scoped _ xs) ∧ _
    rw [ih, and_assoc, and_assoc]
    rfl

/-- Modifiers that are down stay down, unless one is released. -/
theorem holds_downAfter (h : Holds down ctx) (a : KeyAction) :
    Holds (downAfter down a) ctx ↔ ∀ m ∈ ctx, a ≠ .release m.1 := by
  cases a with
  | press osc =>
    refine iff_of_true ?_ (by simp)
    intro m hm
    exact mem_downAfter_press.mpr (.inl (h m hm))
  | release osc =>
    constructor
    · intro hafter m hm heq
      have hmem := hafter m hm
      rw [heq] at hmem
      exact (mem_downAfter_release.mp hmem).2 m.2 rfl
    · intro hkeep m hm
      refine mem_downAfter_release.mpr ⟨h m hm, ?_⟩
      rintro _ rfl
      exact hkeep m hm rfl
  | delay ms => exact iff_of_true h (by simp)

/-- Inside these modifiers the actions are scoped exactly if `P`, and keep them then. -/
def Keeps (ctx : List Modifier) (xs : List Marked) (P : Prop) : Prop :=
  ∀ down, Holds down ctx →
    (Scoped down xs ↔ P) ∧ (P → Holds (downAfterAll down (actionsOf xs)) ctx)

theorem Keeps.congr {P Q : Prop} (h : Keeps ctx xs P) (hiff : P ↔ Q) : Keeps ctx xs Q := by
  rw [← propext hiff]
  exact h

theorem Keeps.nil : Keeps ctx [] True := fun _ h => ⟨Iff.rfl, fun _ => h⟩

theorem Keeps.append {P Q : Prop} (h : Keeps ctx xs P) (h' : Keeps ctx ys Q) :
    Keeps ctx (xs ++ ys) (P ∧ Q) := by
  intro down hdown
  rcases h down hdown with ⟨hscoped, hafter⟩
  rw [scoped_append, actionsOf_append, downAfterAll_append, hscoped]
  refine ⟨and_congr_right fun hP => (h' _ (hafter hP)).1, ?_⟩
  rintro ⟨hP, hQ⟩
  exact (h' _ (hafter hP)).2 hQ

/-- One action. -/
theorem Keeps.single (a : KeyAction) : Keeps ctx [(a, ctx)] (∀ m ∈ ctx, a ≠ .release m.1) := by
  intro down hdown
  have hiff := holds_downAfter hdown a
  refine ⟨?_, hiff.mpr⟩
  show Holds down ctx ∧ Holds (downAfter down a) ctx ∧ True ↔ _
  rw [and_true, hiff]
  exact and_iff_right hdown

theorem Keeps.press (osc : OsCode) : Keeps ctx [(.press osc, ctx)] True :=
  (Keeps.single (.press osc)).congr (iff_of_true (by simp) trivial)

theorem Keeps.release (osc : OsCode) : Keeps ctx [(.release osc, ctx)] (∀ m ∈ ctx, m.1 ≠ osc) := by
  refine (Keeps.single (.release osc)).congr (forall₂_congr fun m _ => ?_)
  rw [ne_eq, KeyAction.release.injEq, eq_comm]

theorem Keeps.pressAll : ∀ mods : List Modifier, Keeps ctx (pressAll ctx mods) True
  | [] => Keeps.nil
  | m :: mods => ((Keeps.press m.1).append (Keeps.pressAll mods)).congr (true_and _).to_iff

theorem Keeps.releaseAll :
    ∀ mods : List Modifier, Keeps ctx (releaseAll ctx mods) (∀ m ∈ ctx, m ∉ mods)
  | [] => Keeps.nil.congr (iff_of_true trivial fun _ _ => List.not_mem_nil)
  | m :: mods => by
    refine ((Keeps.release m.1).append (Keeps.releaseAll mods)).congr ?_
    rw [← forall₂_and]
    refine forall₂_congr fun m' _ => ?_
    rw [List.mem_cons, not_or, ne_eq, Subtype.val_inj]

/-- Actions around which modifiers are held. -/
theorem Keeps.group {P : Prop} (h : Keeps (ctx ++ mods) xs P) :
    Keeps ctx (CmdOutput.pressAll ctx mods ++ xs ++ CmdOutput.releaseAll ctx mods)
      ((∀ m ∈ ctx, m ∉ mods) ∧ P) := by
  intro down hdown
  rcases Keeps.pressAll mods down hdown with ⟨hpresses, hctx⟩
  have hinside :
      Holds (downAfterAll down (actionsOf (CmdOutput.pressAll ctx mods))) (ctx ++ mods) := by
    intro m hm
    rcases List.mem_append.mp hm with hm | hm
    · exact hctx trivial m hm
    · rw [actionsOf_pressAll]
      exact mem_downAfterAll_presses.mpr (.inr ⟨m.2, List.mem_map_of_mem hm⟩)
  rcases h _ hinside with ⟨hinner, hafter⟩
  -- the modifiers around the group are down when its own are released
  have hrelease := fun hP : P => Keeps.releaseAll mods _
    fun m hm => hafter hP m (List.mem_append_left _ hm)
  simp only [scoped_append, actionsOf_append, downAfterAll_append, hinner]
  constructor
  · constructor
    · rintro ⟨⟨_, hP⟩, hreleases⟩
      exact ⟨(hrelease hP).1.mp hreleases, hP⟩
    · rintro ⟨hnew, hP⟩
      exact ⟨⟨hpresses.mpr trivial, hP⟩, (hrelease hP).1.mpr hnew⟩
  · rintro ⟨hnew, hP⟩
    exact (hrelease hP).2 hnew

end Scoped

mutual

/-- Inside held modifiers an item is scoped exactly if it names none of them again. -/
theorem CmdItem.keeps (ctx : List Modifier) :
    ∀ item : CmdItem, Keeps ctx (item.marked ctx) (item.fresh ctx)
  | .key osc => by
    rw [CmdItem.marked, CmdItem.fresh]
    exact ((Keeps.press osc).append (Keeps.release osc)).congr (true_and _).to_iff
  | .delay ms => by
    rw [CmdItem.marked, CmdItem.fresh]
    exact (Keeps.single (.delay ms)).congr (by simp)
  | .chord mods osc => by
    rw [CmdItem.marked, CmdItem.fresh]
    refine ((((Keeps.pressAll mods).append (Keeps.press osc)).append
      (Keeps.releaseAll mods)).append (Keeps.release osc)).congr ?_
    rw [true_and, true_and]
  | .list items => by
    rw [CmdItem.marked, CmdItem.fresh]
    exact markedAll_keeps ctx items
  | .group mods items => by
    rw [CmdItem.marked, CmdItem.fresh]
    exact (markedAll_keeps (ctx ++ mods) items).group

theorem markedAll_keeps (ctx : List Modifier) :
    ∀ items : List CmdItem, Keeps ctx (markedAll ctx items) (freshAll ctx items)
  | [] => by
    rw [markedAll, freshAll]
    exact Keeps.nil
  | item :: items => by
    rw [markedAll, freshAll]
    exact (item.keeps ctx).append (markedAll_keeps ctx items)

end

/-- Whatever the command prints, the keys are read without a panic and are those of the
items printed, and no key that is pressed is down in the end. The modifiers of all lists
around an item are down throughout it, for every item, exactly if nothing inside a list
names a modifier of a list around it again. -/
theorem cmdOutput_scoped_iff (s : Names) (stdout : Option (List Char)) (down : List OsCode) :
    ∃ actions, keysForCmdOutput s stdout = .ok actions ∧
      actions = actionsOf (markedAll [] (printed s stdout)) ∧
      (∀ k, isHeld k = true →
        (k ∈ downAfterAll down actions ↔ k ∈ down ∧ .press k ∉ actions)) ∧
      (Scoped down (markedAll [] (printed s stdout)) ↔ freshAll [] (printed s stdout)) := by
  refine ⟨_, keysForCmdOutput_eq s stdout, rfl, ?_, ?_⟩
  · intro k hk
    exact markedAll_settled [] (printed s stdout) k hk down
  · refine (markedAll_keeps [] (printed s stdout) down ?_).1
    intro m hm
    cases hm

/-! ## A modifier that is named again -/

/-- The names of two letters. -/
def letters : Names where
  strToOscode t := if t = "a" then some keyA else if t = "b" then some keyB else none
  quote t := t

/-- `(C-(C-a b))`. -/
def nestedControl : List Char := ['(', 'C', '-', '(', 'C', '-', 'a', ' ', 'b', ')', ')']

/-- The chord releases the modifier of the list, and `b` is pressed without it. -/
theorem cmdOutput_scoped_fails :
    keysForCmdOutput letters (some nestedControl) =
        .ok [.press lCtrl, .press lCtrl, .press keyA, .release lCtrl, .release keyA,
          .press keyB, .release keyB, .release lCtrl] ∧
      lCtrl ∉ downAfterAll [] [.press lCtrl, .press lCtrl, .press keyA, .release lCtrl,
        .release keyA, .press keyB] ∧
      ¬ Scoped [] (markedAll [] (printed letters (some nestedControl))) := by
  refine ⟨?_, ?_, ?_⟩
  · decide +kernel
  · decide +kernel
  · decide +kernel

end Kanata.CmdOutput
