import Kanata.Switch.Encode

/-!
# Kanata.Switch.Machine — the evaluator computes the meaning

`evaluate_boolean` run on the opcodes of an expression ends with the expression's
truth value. The argument follows the expression:

* `run_operand`: one operand, evaluated inside an operator frame, brings the
  machine to the end of the frame with the frame's value, or to the next operand;
* `run_operands`: hence all operands bring it to the end of the frame with the
  value of the operator.

The machine leaves a frame that ends with the whole array without popping it;
the final unwinding then has the effect of the pops (`evalLoop_pop_end`).
-/

namespace Kanata.Switch

open BooleanOperator

variable {ops : List OpCode} {env : SwitchEnv}

/-! ## One iteration -/

theorem evalLoop_done {s : EvalState} (h : ops.length ≤ s.currentIndex) (n : Nat) :
    evalLoop ops env n s = .ok (unwindStack s.ret s.stack) := by
  rw [evalLoop.eq_def]
  simp [Nat.not_lt.mpr h, pure, Except.pure]

theorem evalLoop_step {s : EvalState} (h : s.currentIndex < ops.length)
    (hend : s.currentIndex < s.currentEndIndex) (n : Nat) :
    evalLoop ops env (n + 1) s = (evalOpCode ops env s >>= evalLoop ops env n) := by
  rw [evalLoop]
  simp only [h, if_true, ge_iff_le, Nat.not_le.mpr hend, if_false]

/-- Whether a value decides the frame of an operator. -/
def BooleanOperator.decides : BooleanOperator → Bool → Bool
  | .or, v => v
  | .and, v => !v
  | .not, v => v

/-- A deciding operand, or the last one, gives the value of the operator. -/
theorem apply_cons_last {op : BooleanOperator} {v : Bool} {vs : List Bool}
    (h : op.decides v ∨ vs = []) : op.apply (v :: vs) = op.apply [v] := by
  cases op <;> cases v <;> cases vs <;> simp_all [apply, decides]

theorem apply_cons_next {op : BooleanOperator} {v : Bool} {vs : List Bool}
    (h : ¬ op.decides v) (hvs : vs ≠ []) : op.apply (v :: vs) = op.apply vs := by
  cases op <;> cases v <;> cases vs <;> simp_all [apply, decides]

/-- A leaf either ends its frame or goes to the next operand. -/
theorem finishLeaf_eq (ret : Bool) (i e : Nat) (op : BooleanOperator)
    (stk : List OperatorAndEndIndex) (extra : Nat) (v : Bool) :
    finishLeaf ⟨ret, i, e, op, stk⟩ extra v =
      if op.decides v then ⟨op.apply [v], e, e, op, stk⟩
      else ⟨op.apply [v], i + extra + 1, e, op, stk⟩ := by
  cases op <;> cases v <;> simp [finishLeaf, decides, apply]

/-- The iteration that pops the enclosing operator, when the array goes on. -/
theorem evalLoop_pop {v : Bool} {b e : Nat} {o op : BooleanOperator}
    {stk : List OperatorAndEndIndex} (hb : b < ops.length) (hend : op.decides v ∨ e ≤ b) (n : Nat) :
    evalLoop ops env (n + 1) ⟨v, b, b, o, ⟨op, e⟩ :: stk⟩ =
      evalLoop ops env n ⟨op.apply [v], e, e, op, stk⟩ := by
  rw [evalLoop]
  simp only [hb, if_true, ge_iff_le, Nat.le_refl]
  have hcond : (v = true ∧ (op = .or ∨ op = .not)) ∨ (v = false ∧ op = .and) ∨ e ≤ b := by
    rcases hend with h | h
    · cases op <;> cases v <;> simp_all [decides]
    · exact Or.inr (Or.inr h)
  simp only [hcond, if_true]
  congr 2
  cases op <;> cases v <;> rfl

/-- The same pop when neither side decides: the next operand is evaluated in
the same iteration, as if the machine had started there. -/
theorem evalLoop_pop_next {v : Bool} {b e : Nat} {o op : BooleanOperator}
    {stk : List OperatorAndEndIndex} (hb : b < ops.length) (hv : op.decides v = false)
    (he : b < e) (n : Nat) :
    evalLoop ops env n ⟨v, b, b, o, ⟨op, e⟩ :: stk⟩ = evalLoop ops env n ⟨v, b, e, op, stk⟩ := by
  cases n with
  | zero =>
    rw [evalLoop, evalLoop]
    simp only [hb, if_true]
  | succ n =>
    rw [evalLoop_step (s := ⟨v, b, e, op, stk⟩) hb he, evalLoop]
    simp only [hb, if_true, ge_iff_le, Nat.le_refl, Nat.not_le.mpr he, or_false]
    have hcond : ¬ ((v = true ∧ (op = .or ∨ op = .not)) ∨ (v = false ∧ op = .and)) := by
      cases op <;> cases v <;> simp_all [decides]
    simp only [hcond, if_false]

/-- At the end of the array the frame is left on the stack, and the unwinding
gives what the pop would have given. -/
theorem evalLoop_pop_end {v : Bool} {b e : Nat} {o op : BooleanOperator}
    {stk : List OperatorAndEndIndex} (hb : ops.length ≤ b) (he : ops.length ≤ e) (n : Nat) :
    evalLoop ops env n ⟨v, b, b, o, ⟨op, e⟩ :: stk⟩ =
      evalLoop ops env n ⟨op.apply [v], e, e, op, stk⟩ := by
  rw [evalLoop_done hb, evalLoop_done he]
  cases op <;> simp [unwindStack, apply]

/-! ## Leaves -/

theorem leafValue_decoded {run : CallbackFn → Bool} {callbacks : List CallbackFn}
    (hcb : env.callbacks = callbacks.map run) {l : Leaf}
    (hl : (BoolExpr.leaf l).Linked callbacks) :
    leafValue env l.decoded = .ok (l.code.length - 1, l.meaning env run) := by
  cases l with
  | key kc =>
    have hany : ∀ k : KeyCode, (k.code == kc.code) = (k == kc) := fun k => by
      rw [Bool.eq_iff_iff, beq_iff_eq, beq_iff_eq]
      exact ⟨KeyCode.ext_code, fun h => h ▸ rfl⟩
    simp [Leaf.decoded, leafValue, Leaf.code, Leaf.meaning, hany, pure, Except.pure]
  | keyHistory kc r =>
    have hany : ∀ k : KeyCode, (k.code == kc.code) = (k == kc) := fun k => by
      rw [Bool.eq_iff_iff, beq_iff_eq, beq_iff_eq]
      exact ⟨KeyCode.ext_code, fun h => h ▸ rfl⟩
    simp only [Leaf.decoded, leafValue, Leaf.code, Leaf.meaning, hany]
    rfl
  | cmdExit f i =>
    simp only [BoolExpr.Linked] at hl
    have hget : env.callbacks[i]? = some (run f) := by simp [hcb, hl]
    simp [Leaf.decoded, leafValue, Leaf.code, Leaf.meaning, hget, pure, Except.pure]
  | ticksSinceLt n t => rfl
  | ticksSinceGt n t => rfl
  | input row y => rfl
  | inputHistory row y r => rfl
  | layer l => rfl
  | baseLayer l => rfl
  | deviceHistory id hne r => rfl

/-- Evaluating the opcode at the start of a leaf finishes that leaf. -/
theorem evalOpCode_leaf {run : CallbackFn → Bool} {callbacks : List CallbackFn}
    (hcb : env.callbacks = callbacks.map run) {l : Leaf}
    (hl : (BoolExpr.leaf l).Linked callbacks) {pre post : List OpCode}
    (hops : ops = pre ++ (l.code ++ post)) {s : EvalState} (hi : s.currentIndex = pre.length) :
    evalOpCode ops env s = .ok (finishLeaf s (l.code.length - 1) (l.meaning env run)) := by
  obtain ⟨c, tail, hcons, htype⟩ := opcodeType_leaf l post
  have hget : ops[s.currentIndex]? = some c := by
    rw [hops, hi, hcons, List.getElem?_append_right (Nat.le_refl _)]
    simp
  have hnext : ops[s.currentIndex + 1]? = tail.head? := by
    rw [hops, hi, hcons, List.getElem?_append_right (by omega)]
    simp [List.head?_eq_getElem?]
  have hleaf := leafValue_decoded hcb hl
  simp only [evalOpCode, hget, hnext, htype, bind, Except.bind]
  cases hd : l.decoded with
  | booleanOp o => cases l <;> simp [Leaf.decoded] at hd
  | _ =>
    rw [hd] at hleaf
    simp [hleaf, pure, Except.pure]

/-- Evaluating an operator opcode opens its frame. -/
theorem evalOpCode_bool {o : BooleanOperator} {b : Nat} (hb : b ≤ maxOpcodeLen)
    {pre post : List OpCode} (hops : ops = pre ++ ((b + o.toU16) :: post)) {ret : Bool} {e : Nat}
    {op : BooleanOperator} {stk : List OperatorAndEndIndex}
    (hstk : stk.length < maxBoolExprDepth) :
    evalOpCode ops env ⟨ret, pre.length, e, op, stk⟩ =
      .ok ⟨ret, pre.length + 1, b, o, ⟨op, e⟩ :: stk⟩ := by
  have hget : ops[pre.length]? = some (b + o.toU16) := by
    rw [hops, List.getElem?_append_right (Nat.le_refl _)]
    simp
  simp [evalOpCode, hget, opcodeType_bool hb, assertThat, hstk, bind, Except.bind, pure,
    Except.pure]

/-! ## Frames -/

section Frames

variable {run : CallbackFn → Bool} {callbacks : List CallbackFn}

mutual

/-- One operand `x`, at `[pre.length, b)` in the frame of `op` that ends at `e`:
the machine ends the frame if the operand decides it or is its last one, and
goes on to the next operand otherwise. The fuel it takes does not depend on the
fuel there is. -/
theorem run_operand (hcb : env.callbacks = callbacks.map run) (x : BoolExpr)
    (pre post : List OpCode) (e : Nat) (op : BooleanOperator) (stk : List OperatorAndEndIndex)
    (hops : ops = pre ++ (x.code pre.length ++ post))
    (he : pre.length + (x.code pre.length).length ≤ e) (hlen : e ≤ ops.length)
    (hx : x.HasOperands) (hfit : x.Fits pre.length) (hlink : x.Linked callbacks)
    (hdepth : x.nesting + stk.length ≤ maxBoolExprDepth) :
    ∃ c, c ≤ 2 * (x.code pre.length).length ∧ ∃ ret', ∀ n ret,
      evalLoop ops env (n + c) ⟨ret, pre.length, e, op, stk⟩ =
        evalLoop ops env n
          (if op.decides (x.meaning env run) ∨ pre.length + (x.code pre.length).length = e then
            ⟨op.apply [x.meaning env run], e, e, op, stk⟩
          else ⟨ret', pre.length + (x.code pre.length).length, e, op, stk⟩) := by
  match x with
  | .leaf l =>
    have hpos := l.code_length_pos
    simp only [BoolExpr.code] at hops he ⊢
    have hi : pre.length < ops.length := by omega
    refine ⟨1, by omega, op.apply [l.meaning env run], fun n ret => ?_⟩
    rw [evalLoop_step hi (show pre.length < e by omega), evalOpCode_leaf hcb hlink hops rfl]
    have hidx : pre.length + (l.code.length - 1) + 1 = pre.length + l.code.length := by omega
    simp only [bind, Except.bind, finishLeaf_eq, BoolExpr.meaning, hidx]
    by_cases hd : op.decides (l.meaning env run) = true
    · simp [hd]
    · by_cases hend : pre.length + l.code.length = e <;> simp [hd, hend]
  | .op o es =>
    obtain ⟨hne, hes⟩ := hx
    obtain ⟨hend, hfits⟩ := hfit
    simp only [BoolExpr.Linked] at hlink
    obtain ⟨body, hbody⟩ : ∃ body, BoolExpr.codes (pre.length + 1) es = body := ⟨_, rfl⟩
    rw [hbody] at hend
    have hb : pre.length + (body.length + 1) = pre.length + 1 + body.length := by omega
    simp only [BoolExpr.code, hbody, List.length_cons, BoolExpr.meaning, hb] at hops he ⊢
    have hpre : (pre ++ [pre.length + 1 + body.length + o.toU16]).length = pre.length + 1 := by simp
    have hops' : ops = (pre ++ [pre.length + 1 + body.length + o.toU16]) ++
        (BoolExpr.codes (pre ++ [pre.length + 1 + body.length + o.toU16]).length es ++ post) := by
      rw [hpre, hbody, hops]
      simp
    have hnest : 1 ≤ BoolExpr.nestings es := by
      cases es with
      | nil => exact absurd rfl hne
      | cons e' es' =>
        simp only [BoolExpr.nestings]
        omega
    simp only [BoolExpr.nesting] at hdepth
    -- the operands run in a frame of their own, with this one on the stack
    obtain ⟨c, hc, hrun⟩ := run_operands hcb es _ post (pre.length + 1 + body.length) o
      (⟨op, e⟩ :: stk) hops' (by rw [hpre, hbody]) (by omega) hne hes
      (by rw [hpre]; exact hfits) hlink (by simp only [List.length_cons]; omega)
    rw [hpre, hbody] at hc
    rw [hpre] at hrun
    have hopen : ∀ n ret, evalLoop ops env (n + 1) ⟨ret, pre.length, e, op, stk⟩ =
        evalLoop ops env n ⟨ret, pre.length + 1, pre.length + 1 + body.length, o,
          ⟨op, e⟩ :: stk⟩ := by
      intro n ret
      rw [evalLoop_step (show pre.length < ops.length by omega) (show pre.length < e by omega),
        evalOpCode_bool hend hops (by simp only [maxBoolExprDepth] at *; omega)]
      rfl
    generalize o.apply (BoolExpr.meanings env run es) = v at hrun ⊢
    by_cases hlast : ops.length ≤ pre.length + 1 + body.length
    · -- the array ends with this frame
      refine ⟨c + 1, by omega, v, fun n ret => ?_⟩
      rw [← Nat.add_assoc, hopen, hrun, evalLoop_pop_end hlast (by omega), if_pos]
      exact Or.inr (by omega)
    · by_cases hd : op.decides v = true ∨ pre.length + 1 + body.length = e
      · -- the enclosing frame is decided, or ends here as well
        refine ⟨1 + c + 1, by omega, v, fun n ret => ?_⟩
        have hpop : op.decides v = true ∨ e ≤ pre.length + 1 + body.length := by
          rcases hd with h | h
          · exact Or.inl h
          · exact Or.inr (by omega)
        rw [← Nat.add_assoc, hopen, ← Nat.add_assoc, hrun, evalLoop_pop (by omega) hpop,
          if_pos hd]
      · refine ⟨c + 1, by omega, v, fun n ret => ?_⟩
        have hdv : op.decides v = false := by
          simpa using (not_or.mp hd).1
        have hlt : pre.length + 1 + body.length < e := by
          have := (not_or.mp hd).2
          omega
        rw [← Nat.add_assoc, hopen, hrun, evalLoop_pop_next (by omega) hdv hlt, if_neg hd]

/-- All operands of a frame bring the machine to its end with its value. -/
theorem run_operands (hcb : env.callbacks = callbacks.map run) (es : List BoolExpr)
    (pre post : List OpCode) (e : Nat) (op : BooleanOperator) (stk : List OperatorAndEndIndex)
    (hops : ops = pre ++ (BoolExpr.codes pre.length es ++ post))
    (he : e = pre.length + (BoolExpr.codes pre.length es).length) (hlen : e ≤ ops.length)
    (hne : es ≠ []) (hes : BoolExpr.AllHaveOperands es) (hfit : BoolExpr.AllFit pre.length es)
    (hlink : BoolExpr.AllLinked callbacks es)
    (hdepth : BoolExpr.nestings es + stk.length ≤ maxBoolExprDepth + 1) :
    ∃ c, c ≤ 2 * (BoolExpr.codes pre.length es).length ∧ ∀ n ret,
      evalLoop ops env (n + c) ⟨ret, pre.length, e, op, stk⟩ =
        evalLoop ops env n
          ⟨op.apply (BoolExpr.meanings env run es), e, e, op, stk⟩ := by
  match es with
  | [] => exact absurd rfl hne
  | x :: es =>
    obtain ⟨hx, hes⟩ := hes
    obtain ⟨hfx, hfes⟩ := hfit
    obtain ⟨hlx, hles⟩ := hlink
    simp only [BoolExpr.nestings] at hdepth
    simp only [BoolExpr.codes, List.append_assoc, List.length_append] at hops he ⊢
    obtain ⟨c₁, hc₁, ret', hrun₁⟩ := run_operand hcb x pre _ e op stk hops
      (by omega) hlen hx hfx hlx (by omega)
    by_cases hd : op.decides (x.meaning env run) = true ∨
        pre.length + (x.code pre.length).length = e
    · -- the operand ends the frame
      refine ⟨c₁, by omega, fun n ret => ?_⟩
      have hlast : op.decides (x.meaning env run) = true ∨ BoolExpr.meanings env run es = [] := by
        rcases hd with h | h
        · exact Or.inl h
        · cases es with
          | nil => exact Or.inr rfl
          | cons y ys =>
            have := y.code_length_pos (pre.length + (x.code pre.length).length)
            simp only [BoolExpr.codes, List.length_append] at he
            omega
      rw [hrun₁, if_pos hd, BoolExpr.meanings, apply_cons_last hlast]
    · have hes' : es ≠ [] := by
        rintro rfl
        simp only [BoolExpr.codes, List.length_nil] at he
        exact hd (Or.inr (by omega))
      have hpre : (pre ++ x.code pre.length).length =
          pre.length + (x.code pre.length).length := List.length_append
      obtain ⟨c₂, hc₂, hrun₂⟩ := run_operands hcb es (pre ++ x.code pre.length) post e op stk
        (by rw [hops, hpre]; simp) (by rw [hpre]; omega) hlen
        hes' hes (by rw [hpre]; exact hfes) hles (by omega)
      rw [hpre] at hc₂ hrun₂
      refine ⟨c₂ + c₁, by omega, fun n ret => ?_⟩
      have hmeanings : BoolExpr.meanings env run es ≠ [] := by
        rw [BoolExpr.meanings_eq_map]
        simpa using hes'
      rw [← Nat.add_assoc, hrun₁, if_neg hd, hrun₂, BoolExpr.meanings,
        apply_cons_next (not_or.mp hd).1 hmeanings]

end

end Frames

/-- `evaluate_boolean` on the opcodes of a list of operands is their
disjunction. -/
theorem evaluateBoolean_codes {run : CallbackFn → Bool} {callbacks : List CallbackFn}
    (hcb : env.callbacks = callbacks.map run) {es : List BoolExpr} (hne : es ≠ [])
    (hes : BoolExpr.AllHaveOperands es) (hfit : BoolExpr.AllFit 0 es)
    (hlink : BoolExpr.AllLinked callbacks es)
    (hdepth : BoolExpr.nestings es ≤ maxBoolExprDepth) :
    evaluateBoolean (BoolExpr.codes 0 es) env = .ok (es.any (BoolExpr.meaning env run)) := by
  have hops : BoolExpr.codes 0 es = [] ++ (BoolExpr.codes ([] : List OpCode).length es ++ []) := by
    simp
  obtain ⟨c, hc, hrun⟩ := run_operands hcb es _ _ _ .or [] hops rfl
    (by simp) hne hes hfit hlink (by simp only [List.length_nil]; omega)
  simp only [List.length_nil, Nat.zero_add] at hc hrun
  have hfuel : evalFuel (BoolExpr.codes 0 es) =
      evalFuel (BoolExpr.codes 0 es) - c + c := by
    simp only [evalFuel]
    omega
  rw [evaluateBoolean, hfuel, hrun, evalLoop_done (Nat.le_refl _)]
  simp [unwindStack, apply, BoolExpr.meanings_eq_map]

/-- An empty array is true. -/
theorem evaluateBoolean_nil : evaluateBoolean [] env = .ok true := rfl

end Kanata.Switch
