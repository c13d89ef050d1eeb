import Kanata.Lib.Fallible
import Kanata.Switch.Machine

/-!
# Kanata.Switch.Compile — the parser emits the code of what it reads

Whenever `parse_switch_case_bool` accepts a text, the text denotes an expression
(`Reads`) and the opcodes appended are that expression's code at the index where
they were appended. With the evaluator's correctness this is the agreement of
the compiled switch with the meaning of its text, `keyMatch_evaluates`.
-/

namespace Kanata.Switch

open Fallible

variable {s : ParserState}

/-! ## Arguments -/

/-- A recency is between 1 and 8, and is stored less one. -/
theorem parseU8WithRange_recency {text : SExpr} {label : String} {n : Nat}
    (h : parseU8WithRange text s label 1 8 = .ok n) :
    ∃ r : Fin 8, IsRecency s text r ∧ n - 1 = r.val := by
  simp only [parseU8WithRange, bind_eq_ok, okOrExpr_eq_ok, Option.filter_eq_some_iff] at h
  obtain ⟨o, ho, hn, hrange⟩ := h
  -- the range check of the source
  have hr : 1 ≤ n ∧ n ≤ 8 := by simpa using hrange
  obtain ⟨a, rfl, ha⟩ := Option.bind_eq_some_iff.mp hn
  refine ⟨⟨n - 1, by omega⟩, ⟨a, liftRust_eq_ok.mp ho, ?_⟩, rfl⟩
  rw [ha, show n - 1 + 1 = n by omega]

/-- A number of ticks fits in `u16`. -/
theorem parseU16_ticks {text : SExpr} {label : String} {n : Nat}
    (h : parseU16 text s label = .ok n) : ∃ t : Fin 65536, IsTicks s text t ∧ n = t.val := by
  simp only [parseU16, bind_eq_ok, okOrExpr_eq_ok] at h
  obtain ⟨o, ho, hn⟩ := h
  obtain ⟨a, rfl, ha⟩ := Option.bind_eq_some_iff.mp hn
  have hle := parseUInt_le ha
  simp only [u16Max] at hle
  exact ⟨⟨n, by omega⟩, ⟨a, liftRust_eq_ok.mp ho, ha⟩, rfl⟩

/-- The coordinate of an input item; its position is below the bound that the
opcode constructor asserts. -/
theorem parseInputKey_coord {keyType key errExpr : SExpr} {ty : InputType} {y : Nat}
    (hty : parseInputType keyType errExpr s = .ok ty) (hy : parseInputKey ty key s = .ok y)
    (hlt : y < 1024) :
    ∃ row : Fin 4, NamesCoord s keyType key row ⟨y, hlt⟩ ∧ ty.toRow = row.val := by
  simp only [parseInputType, bind_eq_ok, okOrExpr_eq_ok] at hty
  obtain ⟨o, ho, word, rfl, hword⟩ := hty
  have hatom : IsAtom s keyType word := liftRust_eq_ok.mp ho
  cases ty with
  | real =>
    simp only [parseInputKey, bind_eq_ok, okOrExpr_eq_ok, pure_eq_ok] at hy
    obtain ⟨o, ho, name, rfl, kc, hkc, rfl⟩ := hy
    exact ⟨0, ⟨word, hatom, Or.inl ⟨hword, rfl, kc, ⟨name, liftRust_eq_ok.mp ho, hkc⟩, rfl⟩⟩, rfl⟩
  | virtual =>
    simp only [parseInputKey, parseVkeyCoord, bind_eq_ok, okOrExpr_eq_ok] at hy
    obtain ⟨o, ho, name, rfl, hy⟩ := hy
    split at hy
    · rename_i idx hidx
      rw [pure_eq_ok] at hy
      exact ⟨1, ⟨word, hatom, Or.inr ⟨hword, rfl, name, idx, liftRust_eq_ok.mp ho, hidx, hy⟩⟩, rfl⟩
    · simp [bailExpr] at hy

/-! ## Leaves -/

/-- The parser went from `st` to `st'` by emitting the code of `e`, and the
callbacks it added are linked. -/
structure Emits (e : BoolExpr) (st st' : SwitchParse) : Prop where
  ops : st'.ops = st.ops ++ e.code st.ops.length
  callbacks : ∃ more, st'.callbacks = st.callbacks ++ more
  linked : e.Linked st'.callbacks

/-- One opcode. -/
theorem Emits.push {l : Leaf} {st : SwitchParse} {w : OpCode} (hcode : l.code = [w])
    (hlink : (BoolExpr.leaf l).Linked st.callbacks) : Emits (.leaf l) st (st.push w) :=
  ⟨by simp [SwitchParse.push, BoolExpr.code, hcode], ⟨[], by simp [SwitchParse.push]⟩, hlink⟩

/-- Two opcodes. -/
theorem Emits.extend {l : Leaf} {st : SwitchParse} {w : OpCode × OpCode}
    (hcode : l.code = [w.1, w.2]) (hlink : (BoolExpr.leaf l).Linked st.callbacks) :
    Emits (.leaf l) st (st.extend w) :=
  ⟨by simp [SwitchParse.extend, BoolExpr.code, hcode], ⟨[], by simp [SwitchParse.extend]⟩, hlink⟩

/-- An arm of the parser that emits one leaf of the list it was given. -/
def ArmEmits (s : ParserState) (op : AllowedListOps)
    (arm : ParserState → SExpr → List SExpr → SwitchParse → Parse SwitchParse) : Prop :=
  ∀ {opExpr head args st st'}, arm s opExpr (head :: args) st = .ok st' →
    ∃ l, ReadsLeaf s op args l ∧ Emits (.leaf l) st st'

/-- `(key-history key recency)`. -/
theorem parseKeyHistory_emits : ArmEmits s .keyHistory parseKeyHistory := by
  intro opExpr head args st st' h
  simp only [parseKeyHistory] at h
  split at h
  · rename_i key recency heq
    obtain ⟨rfl, rfl⟩ := List.cons.inj heq
    simp only [bind_eq_ok, okOrExpr_eq_ok, pure_eq_ok, liftRust_eq_ok] at h
    obtain ⟨o, ho, kc, hkc, n, hn, w, hw, rfl⟩ := h
    obtain ⟨a, rfl, ha⟩ := Option.bind_eq_some_iff.mp hkc
    obtain ⟨r, hr, hval⟩ := parseU8WithRange_recency hn
    rw [hval, newKeyHistory_eq, Except.ok.injEq] at hw
    exact ⟨.keyHistory kc r, .keyHistory ⟨a, liftRust_eq_ok.mp ho, ha⟩ hr,
      .push (by rw [← hw]; rfl) trivial⟩
  · simp [bailExpr] at h

/-- `(input type key)`. -/
theorem parseInput_emits : ArmEmits s .input parseInput := by
  intro opExpr head args st st' h
  simp only [parseInput] at h
  split at h
  · rename_i keyType key heq
    obtain ⟨rfl, rfl⟩ := List.cons.inj heq
    simp only [bind_eq_ok, pure_eq_ok, liftRust_eq_ok] at h
    obtain ⟨ty, hty, y, hy, w, hw, rfl⟩ := h
    -- the constructor asserts the bound on the position
    have hlt := newActiveInput_lt hw
    obtain ⟨row, hc, hrow⟩ := parseInputKey_coord hty hy hlt
    rw [hrow, newActiveInput_eq row ⟨y, hlt⟩, Except.ok.injEq] at hw
    exact ⟨.input row ⟨y, hlt⟩, .input hc, .extend (by rw [← hw]; rfl) trivial⟩
  · simp [bailExpr] at h

/-- `(input-history type key recency)`. -/
theorem parseInputHistory_emits : ArmEmits s .inputHistory parseInputHistory := by
  intro opExpr head args st st' h
  simp only [parseInputHistory] at h
  split at h
  · rename_i keyType key recency heq
    obtain ⟨rfl, rfl⟩ := List.cons.inj heq
    simp only [bind_eq_ok, pure_eq_ok, liftRust_eq_ok] at h
    obtain ⟨ty, hty, y, hy, n, hn, w, hw, rfl⟩ := h
    -- here, too, the constructor asserts the bound
    have hlt := newHistoricalInput_lt hw
    obtain ⟨row, hc, hrow⟩ := parseInputKey_coord hty hy hlt
    obtain ⟨r, hr, hval⟩ := parseU8WithRange_recency hn
    rw [hrow, hval, newHistoricalInput_eq row ⟨y, hlt⟩ r, Except.ok.injEq] at hw
    exact ⟨.inputHistory row ⟨y, hlt⟩ r, .inputHistory hc hr,
      .extend (by rw [← hw]; rfl) trivial⟩
  · simp [bailExpr] at h

/-- `(key-timing recency comparator ticks)`. -/
theorem parseKeyTiming_emits : ArmEmits s .keyTiming parseKeyTiming := by
  intro opExpr head args st st' h
  simp only [parseKeyTiming] at h
  split at h
  · rename_i recency cmp millis heq
    obtain ⟨rfl, rfl⟩ := List.cons.inj heq
    simp only [bind_eq_ok, okOrExpr_eq_ok] at h
    obtain ⟨n, hn, ticks, hticks, o, ho, word, rfl, h⟩ := h
    obtain ⟨r, hr, hval⟩ := parseU8WithRange_recency hn
    obtain ⟨t, ht, rfl⟩ := parseU16_ticks hticks
    have hcmp : IsAtom s cmp word := liftRust_eq_ok.mp ho
    split at h
    · rename_i hword
      simp only [bind_eq_ok, pure_eq_ok, liftRust_eq_ok] at h
      obtain ⟨w, hw, rfl⟩ := h
      rw [hval, OpCode.newTicksSinceLt, newTicksSince_eq ticksSinceValLt 3 rfl,
        Except.ok.injEq] at hw
      have hemit : Emits (.leaf (.ticksSinceLt r t)) st (st.push w) :=
        .push (by rw [← hw]; rfl) trivial
      exact ⟨.ticksSinceLt r t, .ticksSinceLt hr hcmp hword ht,
        ⟨hemit.ops, hemit.callbacks, trivial⟩⟩
    · split at h
      · rename_i hword
        simp only [bind_eq_ok, pure_eq_ok, liftRust_eq_ok] at h
        obtain ⟨w, hw, rfl⟩ := h
        rw [hval, OpCode.newTicksSinceGt, newTicksSince_eq ticksSinceValGt 2 rfl,
          Except.ok.injEq] at hw
        have hemit : Emits (.leaf (.ticksSinceGt r t)) st (st.push w) :=
          .push (by rw [← hw]; rfl) trivial
        exact ⟨.ticksSinceGt r t, .ticksSinceGt hr hcmp hword ht,
          ⟨hemit.ops, hemit.callbacks, trivial⟩⟩
      · simp [bailExpr] at h
  · simp [bailExpr] at h

/-- Both layer checks look a layer name up and emit its index. -/
theorem parseLayerCheck_emits {name : String} {newOp : Nat → Rust (OpCode × OpCode)}
    {opExpr : SExpr} {head : SExpr} {args : List SExpr} {st st' : SwitchParse}
    (h : parseLayerCheck name newOp s opExpr (head :: args) st = .ok st') :
    ∃ layerName, ∃ l : Fin maxLayers, args = [layerName] ∧ NamesLayer s layerName l ∧
      ∃ w, newOp l.val = .ok w ∧ st' = st.extend w := by
  simp only [parseLayerCheck] at h
  split at h
  · rename_i layerName heq
    obtain ⟨rfl, rfl⟩ := List.cons.inj heq
    simp only [bind_eq_ok] at h
    obtain ⟨o, ho, h⟩ := h
    split at h
    · rename_i idx hidx
      simp only [bind_eq_ok, pure_eq_ok, liftRust_eq_ok] at h
      obtain ⟨_, hassert, _, rfl, w, hw, rfl⟩ := h
      have hlt : idx < maxLayers := by simpa using assertThat_eq_ok.mp hassert
      obtain ⟨a, rfl, ha⟩ := Option.bind_eq_some_iff.mp hidx
      exact ⟨layerName, ⟨idx, hlt⟩, rfl, ⟨a, liftRust_eq_ok.mp ho, ha⟩, w, hw, rfl⟩
    · simp [bailExpr] at h
  · simp [bailExpr] at h

/-- `(layer name)`. -/
theorem parseLayer_emits : ArmEmits s .layer parseLayer := by
  intro opExpr head args st st' h
  obtain ⟨layerName, l, rfl, hl, w, hw, rfl⟩ := parseLayerCheck_emits h
  have hassert : OpCode.newLayer l.val = .ok (layerVal, l.val) := by
    simp [OpCode.newLayer, assertThat, l.isLt, pure, Except.pure]
  rw [hassert, Except.ok.injEq] at hw
  exact ⟨.layer l, .layer hl, .extend (by rw [← hw]; rfl) trivial⟩

/-- `(base-layer name)`. -/
theorem parseBaseLayer_emits : ArmEmits s .baseLayer parseBaseLayer := by
  intro opExpr head args st st' h
  obtain ⟨layerName, l, rfl, hl, w, hw, rfl⟩ := parseLayerCheck_emits h
  have hassert : OpCode.newBaseLayer l.val = .ok (baseLayerVal, l.val) := by
    simp [OpCode.newBaseLayer, assertThat, l.isLt, pure, Except.pure]
  rw [hassert, Except.ok.injEq] at hw
  exact ⟨.baseLayer l, .baseLayer hl, .extend (by rw [← hw]; rfl) trivial⟩

/-- `(device-history id recency)`. -/
theorem parseDeviceHistory_emits : ArmEmits s .deviceHistory parseDeviceHistory := by
  intro opExpr head args st st' h
  simp only [parseDeviceHistory] at h
  split at h
  · rename_i device recency heq
    obtain ⟨rfl, rfl⟩ := List.cons.inj heq
    simp only [bind_eq_ok, okOrExpr_eq_ok] at h
    obtain ⟨o, ho, a, rfl, id, hid, id', hne, h⟩ := h
    -- zero is no device
    obtain ⟨hpos, rfl⟩ : id ≠ 0 ∧ id = id' := by
      split at hne <;> simp_all
    split at h
    · split at h
      · simp [bailExpr] at h
      · simp only [bind_eq_ok, pure_eq_ok, liftRust_eq_ok] at h
        obtain ⟨n, hn, w, hw, rfl⟩ := h
        obtain ⟨r, hr, hval⟩ := parseU8WithRange_recency hn
        have hlt : id < 256 := Nat.lt_succ_of_le (parseUInt_le hid)
        have hne' : (⟨id, hlt⟩ : Fin 256) ≠ 0 := fun heq => hpos (congrArg Fin.val heq)
        rw [hval, newDeviceHistory_eq ⟨id, hlt⟩ r, Except.ok.injEq] at hw
        exact ⟨.deviceHistory ⟨id, hlt⟩ hne' r,
          .deviceHistory hne' (liftRust_eq_ok.mp ho) hid hr,
          .extend (by rw [← hw]; rfl) trivial⟩
    · simp [bailExpr] at h
  · simp [bailExpr] at h

/-- The exit code of a command: its callback is added at the end. -/
theorem parseCmdExit_emits : ArmEmits s .cmdExit parseCmdExit := by
  intro opExpr head args st st' h
  simp only [parseCmdExit] at h
  split at h
  · simp [bailExpr] at h
  · split at h
    · simp [bailExpr] at h
    · split at h
      · rename_i code heq
        obtain ⟨rfl, rfl⟩ := List.cons.inj heq
        simp only [bind_eq_ok, okOrExpr_eq_ok] at h
        obtain ⟨o, ho, a, rfl, i, hi, h⟩ := h
        split at h
        · simp [bailExpr] at h
        · rw [pure_eq_ok] at h
          subst h
          refine ⟨.cmdExit ⟨i⟩ st.callbacks.length, .cmdExit (liftRust_eq_ok.mp ho) hi, ?_⟩
          exact ⟨rfl, ⟨_, rfl⟩, by simp [BoolExpr.Linked]⟩
      · simp [bailExpr] at h

/-! ## Operand lists -/

/-- One more operand. -/
theorem ReadsAll.append {text : SExpr} {e : BoolExpr} (h : Reads s text e) :
    ∀ {texts : List SExpr} {es : List BoolExpr}, ReadsAll s texts es →
      ReadsAll s (texts ++ [text]) (es ++ [e])
  | _, _, .nil => .cons h .nil
  | _, _, .cons h' hs => .cons h' (hs.append h)

/-- Its code comes behind that of the others. -/
theorem BoolExpr.codes_append (off : Nat) (es : List BoolExpr) (e : BoolExpr) :
    BoolExpr.codes off (es ++ [e]) =
      BoolExpr.codes off es ++ e.code (off + (BoolExpr.codes off es).length) := by
  induction es generalizing off with
  | nil => simp [BoolExpr.codes]
  | cons x es ih => simp [BoolExpr.codes, ih, Nat.add_assoc]

/-- It fits there. -/
theorem BoolExpr.AllFit.append {off : Nat} {es : List BoolExpr} {e : BoolExpr}
    (hes : BoolExpr.AllFit off es) (he : e.Fits (off + (BoolExpr.codes off es).length)) :
    BoolExpr.AllFit off (es ++ [e]) := by
  induction es generalizing off with
  | nil => exact ⟨by simpa [BoolExpr.codes] using he, trivial⟩
  | cons x es ih =>
    refine ⟨hes.1, ih hes.2 ?_⟩
    simpa [BoolExpr.codes, Nat.add_assoc] using he

/-- The nesting is that of the deepest operand. -/
theorem BoolExpr.nestings_append (es : List BoolExpr) (e : BoolExpr) :
    BoolExpr.nestings (es ++ [e]) = max (BoolExpr.nestings es) (e.nesting + 1) := by
  induction es with
  | nil => simp [BoolExpr.nestings]
  | cons x es ih =>
    simp only [List.cons_append, BoolExpr.nestings, ih]
    omega

mutual

/-- Callbacks are only ever appended, which keeps every link. -/
theorem BoolExpr.Linked.append {callbacks : List CallbackFn} (more : List CallbackFn) :
    ∀ {e : BoolExpr}, e.Linked callbacks → e.Linked (callbacks ++ more)
  | .leaf l, h => by
    cases l with
    | cmdExit f index =>
      simp only [BoolExpr.Linked] at h ⊢
      have hlt : index < callbacks.length := (List.getElem?_eq_some_iff.mp h).1
      rw [List.getElem?_append_left hlt, h]
    | _ => trivial
  | .op _ es, h => by
    simp only [BoolExpr.Linked] at h ⊢
    exact BoolExpr.AllLinked.append more h

theorem BoolExpr.AllLinked.append {callbacks : List CallbackFn} (more : List CallbackFn) :
    ∀ {es : List BoolExpr}, BoolExpr.AllLinked callbacks es →
      BoolExpr.AllLinked (callbacks ++ more) es
  | [], _ => trivial
  | _ :: _, h => ⟨h.1.append more, BoolExpr.AllLinked.append more h.2⟩

end

/-- Its callbacks are linked. -/
theorem BoolExpr.AllLinked.snoc {callbacks : List CallbackFn} {es : List BoolExpr}
    {e : BoolExpr} (hes : BoolExpr.AllLinked callbacks es) (he : e.Linked callbacks) :
    BoolExpr.AllLinked callbacks (es ++ [e]) := by
  induction es with
  | nil => exact ⟨he, trivial⟩
  | cons x es ih => exact ⟨hes.1, ih hes.2⟩

/-! ## The recursion -/

/-- A text was accepted with `levels` depths left: it denotes `e`, whose code
was emitted and obeys the limits of the evaluator. -/
structure Compiles (s : ParserState) (levels : Nat) (text : SExpr) (e : BoolExpr)
    (st st' : SwitchParse) : Prop extends Emits e st st' where
  reads : Reads s text e
  fits : e.Fits st.ops.length
  nesting : e.nesting + 1 ≤ levels

/-- The same for operands in a row. -/
structure CompilesAll (s : ParserState) (levels : Nat) (texts : List SExpr)
    (es : List BoolExpr) (st st' : SwitchParse) : Prop where
  ops : st'.ops = st.ops ++ BoolExpr.codes st.ops.length es
  callbacks : ∃ more, st'.callbacks = st.callbacks ++ more
  linked : BoolExpr.AllLinked st'.callbacks es
  reads : ReadsAll s texts es
  fits : BoolExpr.AllFit st.ops.length es
  nestings : BoolExpr.nestings es ≤ levels

/-- No operands. -/
theorem CompilesAll.nil (levels : Nat) (st : SwitchParse) : CompilesAll s levels [] [] st st :=
  ⟨by simp [BoolExpr.codes], ⟨[], by simp⟩, trivial, .nil, trivial, Nat.zero_le _⟩

/-- One more operand. -/
theorem CompilesAll.snoc {levels : Nat} {texts : List SExpr} {text : SExpr}
    {es : List BoolExpr} {e : BoolExpr} {st st₁ st₂ : SwitchParse}
    (hs : CompilesAll s levels texts es st st₁) (h : Compiles s levels text e st₁ st₂) :
    CompilesAll s levels (texts ++ [text]) (es ++ [e]) st st₂ := by
  obtain ⟨more₁, h₁⟩ := hs.callbacks
  obtain ⟨more₂, h₂⟩ := h.callbacks
  -- the code of the new operand starts behind that of the others
  have hlen : st₁.ops.length = st.ops.length + (BoolExpr.codes st.ops.length es).length := by
    rw [hs.ops, List.length_append]
  refine ⟨?_, ⟨more₁ ++ more₂, by rw [h₂, h₁, List.append_assoc]⟩, ?_, hs.reads.append h.reads,
    hs.fits.append ?_, ?_⟩
  · rw [h.ops, hs.ops, BoolExpr.codes_append, List.append_assoc, ← List.length_append]
  · have := hs.linked.append more₂
    rw [← h₂] at this
    exact this.snoc h.linked
  · rw [← hlen]
    exact h.fits
  · rw [BoolExpr.nestings_append]
    exact Nat.max_le.mpr ⟨hs.nestings, h.nesting⟩

/-- A loop over operands, when each operand compiles. -/
theorem compilesAll_of_foldlM {levels : Nat} {texts : List SExpr} {st st' : SwitchParse}
    (ih : ∀ {text st st'}, parseSwitchCaseBool s levels text st = .ok st' →
      ∃ e, Compiles s levels text e st st')
    (h : texts.foldlM (fun st e => parseSwitchCaseBool s levels e st) st = .ok st') :
    ∃ es, CompilesAll s levels texts es st st' := by
  refine foldlM_invariant (fun done st₁ => ∃ es, CompilesAll s levels done es st st₁)
    ⟨[], .nil levels st⟩ ?_ h
  rintro text done st₁ st₂ ⟨es, hes⟩ hstep
  obtain ⟨e, he⟩ := ih hstep
  exact ⟨es ++ [e], hes.snoc he⟩

/-- The placeholder of an operator is overwritten with the end of its operands. -/
theorem parseOperator_compiles {levels : Nat} {o : BooleanOperator} {opExpr : SExpr}
    {operands : List SExpr} {st st' : SwitchParse}
    (ih : ∀ {text st st'}, parseSwitchCaseBool s levels text st = .ok st' →
      ∃ e, Compiles s levels text e st st')
    (hop : ListOp s opExpr o.word operands)
    (h : parseOperator (parseSwitchCaseBool s levels) o opExpr operands st = .ok st') :
    ∃ e, Compiles s (levels + 1) opExpr e st st' := by
  simp only [parseOperator, bind_eq_ok, liftRust_eq_ok] at h
  obtain ⟨placeholder, -, st₁, hfold, h⟩ := h
  obtain ⟨es, hes⟩ := compilesAll_of_foldlM ih hfold
  have hpush : (st.push placeholder).ops = st.ops ++ [placeholder] := rfl
  have hlen : (st.push placeholder).ops.length = st.ops.length + 1 := by simp [hpush]
  -- the operands follow the placeholder
  have hops : st₁.ops = st.ops ++ placeholder :: BoolExpr.codes (st.ops.length + 1) es := by
    rw [hes.ops, hlen, hpush]
    simp
  have hfits := hes.fits
  rw [hlen] at hfits
  have hend : st₁.ops.length =
      st.ops.length + 1 + (BoolExpr.codes (st.ops.length + 1) es).length := by
    rw [hops]
    simp only [List.length_append, List.length_cons]
    omega
  split at h
  · simp [bailExpr] at h
  · rename_i hle
    simp only [bind_eq_ok, liftRust_eq_ok, pure_eq_ok] at h
    obtain ⟨w, hw, rfl⟩ := h
    have hmax := Nat.not_lt.mp hle
    rw [newBool_eq hmax, Except.ok.injEq] at hw
    refine ⟨.op o es, ⟨⟨?_, hes.callbacks, ?_⟩, .op hop hes.reads, ⟨hend ▸ hmax, hfits⟩, ?_⟩⟩
    · rw [hend] at hw
      simp only [hops, BoolExpr.code, ← hw, List.set_append_right _ _ (Nat.le_refl _),
        Nat.sub_self, List.set_cons_zero]
    · simpa [BoolExpr.Linked] using hes.linked
    · exact Nat.succ_le_succ hes.nestings

/-- A leaf needs one level. -/
theorem Emits.compiles_leaf {levels : Nat} {text : SExpr} {l : Leaf} {st st' : SwitchParse}
    (h : Emits (.leaf l) st st') (hr : Reads s text (.leaf l)) :
    Compiles s (levels + 1) text (.leaf l) st st' :=
  ⟨h, hr, trivial, Nat.succ_le_succ (Nat.zero_le _)⟩

/-- What `parse_switch_case_bool` accepts, it compiles. By induction on the
depths left: operands are parsed with one less. -/
theorem parseSwitchCaseBool_compiles {levels : Nat} {text : SExpr} {st st' : SwitchParse}
    (h : parseSwitchCaseBool s levels text st = .ok st') :
    ∃ e, Compiles s levels text e st st' := by
  induction levels generalizing text st st' with
  | zero =>
    unfold parseSwitchCaseBool at h
    split at h <;> simp [bailExpr] at h
  | succ levels ih =>
    unfold parseSwitchCaseBool at h
    split at h
    · simp [bailExpr] at h
    · simp only [bind_eq_ok] at h
      obtain ⟨oa, ha, h⟩ := h
      have hatom : text.atom s.vars = .ok oa := liftRust_eq_ok.mp ha
      cases oa with
      | some a =>
        simp only [bind_eq_ok, okOrExpr_eq_ok, liftRust_eq_ok, pure_eq_ok] at h
        obtain ⟨kc, hkc, w, hw, rfl⟩ := h
        rw [newKey_eq, Except.ok.injEq] at hw
        exact ⟨_, (Emits.push (l := .key kc) (by rw [← hw]; rfl) trivial).compiles_leaf
          (.key ⟨a, hatom, hkc⟩)⟩
      | none =>
        simp only [bind_eq_ok] at h
        obtain ⟨ol, hl, h⟩ := h
        have hlist : text.list s.vars = .ok ol := liftRust_eq_ok.mp hl
        rcases ol with _ | _ | ⟨head, operands⟩
        · simp [liftRust, panicWith] at h
        · simp [bailExpr] at h
        · simp only [bind_eq_ok, okOrExpr_eq_ok] at h
          obtain ⟨oword, hword, op, hop, h⟩ := h
          obtain ⟨word, rfl, hof⟩ := Option.bind_eq_some_iff.mp hop
          -- the text is a list with a known operator
          have hlistop : ListOp s text op operands :=
            ⟨head, word, hatom, hlist, liftRust_eq_ok.mp hword, hof⟩
          have leaf : ∀ {arm}, ArmEmits s op arm → arm s text (head :: operands) st = .ok st' →
              ∃ e, Compiles s (levels + 1) text e st st' := fun harm hst => by
            obtain ⟨l, hread, hemit⟩ := harm hst
            exact ⟨_, hemit.compiles_leaf (.leaf hlistop hread)⟩
          cases op with
          | keyHistory => exact leaf parseKeyHistory_emits h
          | keyTiming => exact leaf parseKeyTiming_emits h
          | input => exact leaf parseInput_emits h
          | inputHistory => exact leaf parseInputHistory_emits h
          | layer => exact leaf parseLayer_emits h
          | baseLayer => exact leaf parseBaseLayer_emits h
          | deviceHistory => exact leaf parseDeviceHistory_emits h
          | cmdExit => exact leaf parseCmdExit_emits h
          | or => exact parseOperator_compiles (o := .or) ih hlistop h
          | and => exact parseOperator_compiles (o := .and) ih hlistop h
          | not => exact parseOperator_compiles (o := .not) ih hlistop h

/-- A key match that the parser accepts compiles to the code, placed at 0, of
the expressions its items denote. -/
theorem parseKeyMatch_compiles {keyMatch : List SExpr} {callbacks : List CallbackFn}
    {timing : Nat} {st : SwitchParse}
    (h : parseKeyMatch s keyMatch callbacks timing = .ok st) :
    ∃ es, CompilesAll s maxBoolExprDepth keyMatch es ⟨[], callbacks, timing⟩ st :=
  compilesAll_of_foldlM parseSwitchCaseBool_compiles h

/-- Agreement of the compiled switch with its text: every accepted key match
denotes a list of expressions, and when their operators all have operands the
evaluator returns, without panic and in every environment, their disjunction. The
switch may hold the callbacks of later cases as well. An empty key match, the
usual last case, is always true. -/
theorem keyMatch_evaluates {keyMatch : List SExpr} {callbacks later : List CallbackFn}
    {timing : Nat} {st : SwitchParse}
    (h : parseKeyMatch s keyMatch callbacks timing = .ok st) :
    ∃ es, ReadsAll s keyMatch es ∧ (BoolExpr.AllHaveOperands es →
      ∀ (env : SwitchEnv) (run : CallbackFn → Bool),
        env.callbacks = (st.callbacks ++ later).map run →
        evaluateBoolean st.ops env =
          .ok (keyMatch.isEmpty || es.any (BoolExpr.meaning env run))) := by
  obtain ⟨es, hes⟩ := parseKeyMatch_compiles h
  refine ⟨es, hes.reads, fun hops env run hcb => ?_⟩
  -- the code of a key match starts at zero
  have hcode : st.ops = BoolExpr.codes 0 es := by simpa using hes.ops
  rw [hcode]
  cases hes.reads with
  | nil => exact evaluateBoolean_nil
  | cons hread hreads =>
    rw [evaluateBoolean_codes hcb (by simp) hops hes.fits (hes.linked.append later) hes.nestings]
    rfl

/-- A keyboard with the keys `a` and `b`. -/
def twoKeys : ParserState where
  vars := none
  virtualKeys := []
  layerIdxs := []
  inputDevices := none
  isCmdEnabled := false
  cmdFeature := false
  strToOscode a := if a = "a" then some keyA else if a = "b" then some keyB
    else none

/-- The key match `(and a (not b))`. -/
def andNot : List SExpr :=
  let atom t := SExpr.atomNode t default
  let list t := SExpr.listNode t default
  [list [atom "and", atom "a", list [atom "not", atom "b"]]]

/-- An atom that names a key denotes just this key. -/
theorem twoKeys_reads_atom {a : String} {kc : KeyCode} {e : BoolExpr}
    (hatom : (SExpr.atomNode a default).atom twoKeys.vars = .ok (some a))
    (hkey : twoKeys.strToOscode a = some kc) (h : Reads twoKeys (.atomNode a default) e) :
    e = .leaf (.key kc) := by
  have hlist : ∀ {op args}, ¬ ListOp twoKeys (.atomNode a default) op args := by
    rintro op args ⟨_, _, hnone, _⟩
    rw [hatom] at hnone
    cases hnone
  cases h with
  | key h =>
    rcases h with ⟨a', ha', hkc⟩
    obtain rfl : a = a' := Option.some.inj (Except.ok.inj (hatom.symm.trans ha'))
    rw [hkey] at hkc
    cases hkc
    rfl
  | leaf hop _ => exact absurd hop hlist
  | op hop _ => exact absurd hop hlist

/-- A list with an operator denotes this operator, applied to what the rest denotes. -/
theorem twoKeys_reads_list {word : String} {args : List SExpr} {o : BooleanOperator} {e : BoolExpr}
    (hword : (SExpr.atomNode word default).atom twoKeys.vars = .ok (some word))
    (hlist : (SExpr.listNode (.atomNode word default :: args) default).list twoKeys.vars =
      .ok (some (.atomNode word default :: args)))
    (hop : AllowedListOps.ofString word = some o.word)
    (hatom : (SExpr.listNode (.atomNode word default :: args) default).atom twoKeys.vars = .ok none)
    (h : Reads twoKeys (.listNode (.atomNode word default :: args) default) e) :
    ∃ es, e = .op o es ∧ ReadsAll twoKeys args es := by
  have hsame : ∀ {op args'},
      ListOp twoKeys (.listNode (.atomNode word default :: args) default) op args' →
        op = o.word ∧ args' = args := by
    rintro op args' ⟨head, w, _, hlist', hword', hop'⟩
    rw [hlist] at hlist'
    cases hlist'
    rw [hword] at hword'
    cases hword'
    rw [hop] at hop'
    cases hop'
    exact ⟨rfl, rfl⟩
  cases h with
  | key h =>
    rcases h with ⟨a, ha, _⟩
    rw [IsAtom, hatom] at ha
    cases ha
  | leaf hop' hl =>
    rcases hsame hop' with ⟨rfl, rfl⟩
    cases o <;> cases hl
  | op hop' hes =>
    rename_i o' args' es
    rcases hsame hop' with ⟨heq, rfl⟩
    have ho : o' = o := by
      cases o <;> cases o' <;> first | rfl | cases heq
    exact ⟨es, by rw [ho], hes⟩

/-- The key match denotes one expression. -/
theorem andNot_reads {es : List BoolExpr} (h : ReadsAll twoKeys andNot es) :
    es = [.op .and [.leaf (.key keyA), .op .not [.leaf (.key keyB)]]] := by
  cases h with
  | cons hand hnil =>
    cases hnil
    rcases twoKeys_reads_list (o := .and) rfl rfl rfl rfl hand with ⟨_, rfl, hargs⟩
    cases hargs with
    | cons ha hrest =>
      cases hrest with
      | cons hnot hnil =>
        cases hnil
        rcases twoKeys_reads_list (o := .not) rfl rfl rfl rfl hnot with ⟨_, rfl, hargs⟩
        cases hargs with
        | cons hb hnil =>
          cases hnil
          rw [twoKeys_reads_atom rfl rfl ha, twoKeys_reads_atom rfl rfl hb]

/-- Only `a` is held. -/
def aHeld : SwitchEnv := ⟨[keyA], [], [], [], [], 0, [], []⟩

/-- With `a` held alone the key match is true. -/
theorem keyMatch_evaluates_andNot : evaluateBoolean [0x2004, 30, 0x3004, 48] aHeld = .ok true := by
  have hparse : parseKeyMatch twoKeys andNot [] 0 = .ok ⟨[0x2004, 30, 0x3004, 48], [], 0⟩ := by
    decide
  rcases @keyMatch_evaluates twoKeys andNot [] [] 0 _ hparse with ⟨es, hreads, hevaluates⟩
  obtain rfl := andNot_reads hreads
  have hoperands : BoolExpr.AllHaveOperands
      [.op .and [.leaf (.key keyA), .op .not [.leaf (.key keyB)]]] := by
    simp [BoolExpr.AllHaveOperands, BoolExpr.HasOperands]
  exact hevaluates hoperands aHeld (fun _ => false) rfl

end Kanata.Switch
