import Mathlib.Algebra.GroupWithZero.Nat
import Kanata.Engine.Sequences

/-!
# Kanata.Engine.SequenceMatching — typing a stored sequence

Without `O-(...)` in the table, nothing with the overlap marker in it is known to
the table. The overlap tracker is then invalid after every key and takes over what
the standard tracker has, which is what was typed (`Typing`), and the keys of a
stored sequence end in its virtual key (`sequence_matched`).
-/

namespace Kanata.Sequences

open Fallible Kanata.Sequence

/-! ## Bits of an element -/

/-- A mask of two parts. -/
theorem u16_and_or (a b c : UInt16) : (a ||| b) &&& c = (a &&& c) ||| (b &&& c) := by
  refine UInt16.toBitVec_inj.mp ?_
  simp only [UInt16.toBitVec_and, UInt16.toBitVec_or]
  exact BitVec.and_or_distrib_right

/-- An element with the marker bit has it. -/
theorem or_marker_and (a : UInt16) :
    (a ||| keyOverlapMarker) &&& keyOverlapMarker = keyOverlapMarker := by
  rw [u16_and_or, UInt16.and_self]
  refine UInt16.toBitVec_inj.mp ?_
  simp only [UInt16.toBitVec_and, UInt16.toBitVec_or]
  refine BitVec.eq_of_getLsbD_eq ?_
  intro i _
  simp only [BitVec.getLsbD_or, BitVec.getLsbD_and]
  cases a.toBitVec.getLsbD i <;> simp

/-- The marker is a bit. -/
theorem marker_ne_zero : keyOverlapMarker ≠ 0 := by decide

/-- Modifiers are in the high bits. -/
theorem modMask_keycodes (kc : KeyCode) : modMaskForKeycode kc &&& maskKeycodes = 0 := by
  unfold modMaskForKeycode
  repeat' split
  all_goals decide

/-- The mask of the modifiers has no bits of a key code. -/
theorem getModMask_keycodes (curKeys : List KeyCode) :
    getModMaskForCurKeys curKeys &&& maskKeycodes = 0 := by
  -- each modifier adds one bit of the mask
  have hfold : ∀ (ks : List KeyCode) (a : UInt16), a &&& maskKeycodes = 0 →
      ks.foldl (fun a v => a ||| modMaskForKeycode v) a &&& maskKeycodes = 0 := by
    intro ks
    induction ks with
    | nil =>
      intro a ha
      exact ha
    | cons k ks ih =>
      intro a ha
      refine ih _ ?_
      rw [u16_and_or, ha, modMask_keycodes]
      rfl
  exact hfold curKeys 0 (by decide)

/-- A key code has no bits of the mask. -/
theorem ofOsCode_keycodes (osc : OsCode) : (ofOsCode osc &&& maskKeycodes).toNat = osc.code := by
  have hle : osc.code ≤ 767 := osc.le_max
  have hmask : maskKeycodes.toNat = 2 ^ 10 - 1 := by decide
  unfold ofOsCode
  rw [UInt16.toNat_and, hmask, Nat.and_two_pow_sub_one_eq_mod, UInt16.toNat_ofNat']
  omega

/-- The key of an element. -/
theorem oscodeFrom_pushed (osc : OsCode) (curKeys : List KeyCode) :
    oscodeFrom (pushedIntoSeq osc (getModMaskForCurKeys curKeys) &&& maskKeycodes) =
      .ok (leftVariant osc) := by
  have hcode : (pushedIntoSeq osc (getModMaskForCurKeys curKeys) &&& maskKeycodes).toNat =
      (leftVariant osc).code := by
    unfold pushedIntoSeq
    rw [u16_and_or, getModMask_keycodes, UInt16.or_zero, ofOsCode_keycodes]
  have hle : (pushedIntoSeq osc (getModMaskForCurKeys curKeys) &&& maskKeycodes).toNat ≤
      keyCodeMax := by
    rw [hcode]
    exact (leftVariant osc).le_max
  unfold oscodeFrom
  rw [dif_pos hle]
  exact congrArg Except.ok (KeyCode.ext_code hcode)

/-! ## Runs -/

/-- What happens while a sequence is typed. With a key there are the current keys
and the states of the layout at that time. -/
inductive Step (T : Type) where
  /-- A key that is new in the current keys. -/
  | press (k : KeyCode) (curKeys : List KeyCode) (states : List (State T))
  /-- The last of the keys is up. -/
  | released (states : List (State T))
  | tick
  /-- A `sequence-noerase` action. -/
  | noerase (count : Nat)

section Runs

variable {M : Type → Type} [PatriciaMap M] {T : Type}

/-- One of the steps: the state and the effects. Keys go to the sequence only
while it is active. -/
def step (overflowChecks modcancel : Bool) (sequences : Trie M KCoord) (st : SequenceState) :
    Step T → Rust (SequenceState × List Effect)
  | .press k curKeys states =>
    if st.isActive then do
      let o ← doSequencePressLogic sequences modcancel st states k (getModMaskForCurKeys curKeys)
      pure (o.state, o.effects)
    else pure (st, (OutputLogic.pressKey k).map Effect.kbd)
  | .released states =>
    if st.isActive then do
      let o ← endOverlap sequences st states
      pure (o.state, o.effects)
    else pure (st, [])
  | .tick => tickSequenceState overflowChecks st
  | .noerase count =>
    if st.isActive then do
      let st ← addNoerase overflowChecks st count
      pure (st, [])
    else pure (st, [])

/-- Steps one after the other. -/
def run (overflowChecks modcancel : Bool) (sequences : Trie M KCoord) :
    SequenceState → List (Step T) → Rust (SequenceState × List Effect)
  | st, [] => pure (st, [])
  | st, x :: xs => do
    let (st, effects) ← step overflowChecks modcancel sequences st x
    let (st, effects') ← run overflowChecks modcancel sequences st xs
    pure (st, effects ++ effects')

/-- The element that a step adds to the sequence. -/
def Step.element : Step T → Option UInt16
  | .press k curKeys _ => some (pushedIntoSeq k (getModMaskForCurKeys curKeys))
  | .released _ | .tick | .noerase _ => none

/-- The keys in their encodings. -/
def typed (steps : List (Step T)) : List UInt16 := steps.filterMap Step.element

/-- A key that leaves a character on the screen. -/
def Step.isCharacter : Step T → Bool
  | .press k _ _ => !OsCode.isModifier k && !OsCode.isIgnored k
  | .released _ | .tick | .noerase _ => false

/-- The characters that a step spares. -/
def Step.noeraseCount : Step T → Nat
  | .noerase count => count
  | .press _ _ _ | .released _ | .tick => 0

/-- Those that all steps spare. -/
def noeraseTotal (steps : List (Step T)) : Nat := (steps.map Step.noeraseCount).sum

/-- Between two keys there are fewer ticks than the timeout, after `n` of them. -/
def Timely (timeout : Nat) : Nat → List (Step T) → Prop
  | _, [] => True
  | n, .tick :: xs => n + 1 < timeout ∧ Timely timeout (n + 1) xs
  | _, .press _ _ _ :: xs => Timely timeout 0 xs
  | n, .released _ :: xs => Timely timeout n xs
  | n, .noerase _ :: xs => Timely timeout n xs

/-- An event for the layout. -/
def Effect.isEvent : Effect → Bool
  | .eventToFront _ => true
  | .kbd _ | .backspace => false

end Runs

/-! ## A table without overlap -/

section Matching

variable {M : Type → Type} [PatriciaMap M] [LawfulPatriciaMap M] {T : Type}
  {sequences : Trie M KCoord} {overflowChecks modcancel : Bool}

/-- There is no `O-(...)` in the table. -/
def NoOverlap (sequences : Trie M KCoord) : Prop :=
  ∀ k, (sequences.get k).isSome → ∀ e ∈ k, e &&& keyOverlapMarker = 0

/-- What the matching needs of a table. -/
structure Plain (sequences : Trie M KCoord) : Prop where
  elements : sequences.OfElements
  prefixFree : sequences.PrefixFree
  noOverlap : NoOverlap sequences

/-- A sequence with the marker of an overlap is not in the table. -/
theorem Plain.unknown (h : Plain sequences) {k : List UInt16} {e : UInt16} (he : e ∈ k)
    (hmarker : e &&& keyOverlapMarker ≠ 0) : sequences.getOrDescendantExists k = .notInTrie := by
  refine (Trie.getOrDescendantExists_eq_notInTrie h.elements).mpr ?_
  intro k' hk'
  refine Option.not_isSome_iff_eq_none.mp fun hsome => ?_
  exact hmarker (h.noOverlap k' hsome e (hk'.subset he))

/-- A proper prefix of a stored sequence. -/
theorem Plain.known (h : Plain sequences) {pre rest : List UInt16} {coord : KCoord}
    (hget : sequences.get (pre ++ rest) = some coord) (hrest : rest ≠ []) :
    sequences.getOrDescendantExists pre = .inTrie := by
  have hle : pre <+: pre ++ rest := List.prefix_append pre rest
  cases hres : sequences.getOrDescendantExists pre with
  | inTrie => rfl
  | notInTrie =>
    have hnone := (Trie.getOrDescendantExists_eq_notInTrie h.elements).mp hres _ hle
    rw [hget] at hnone
    cases hnone
  | hasValue v =>
    have hv := Trie.getOrDescendantExists_eq_hasValue.mp hres
    have heq := h.prefixFree pre _ (by rw [hv]; rfl) (by rw [hget]; rfl) hle
    exact absurd (List.self_eq_append_right.mp heq) hrest

/-- The overlap tracker finds nothing, whatever it tries. -/
theorem Plain.trackOverlapped (h : Plain sequences) (front : List UInt16) (pushed : UInt16) :
    ∃ l, Sequences.trackOverlapped sequences front pushed = (l, .notInTrie, true) := by
  have hpushed : ((pushed &&& maskKeycodes) ||| keyOverlapMarker) &&& keyOverlapMarker ≠ 0 := by
    rw [or_marker_and]
    exact marker_ne_zero
  have hmarker : keyOverlapMarker &&& keyOverlapMarker ≠ 0 := by
    rw [UInt16.and_self]
    exact marker_ne_zero
  have hfirst : sequences.getOrDescendantExists
      (front ++ [(pushed &&& maskKeycodes) ||| keyOverlapMarker]) = .notInTrie :=
    h.unknown (by simp) hpushed
  have hothers : ∀ e, sequences.getOrDescendantExists (front ++ [keyOverlapMarker, e]) =
      .notInTrie := fun e => h.unknown (e := keyOverlapMarker) (by simp) hmarker
  unfold Sequences.trackOverlapped
  simp only [hfirst, hothers, ne_eq, not_true_eq_false, if_false]
  by_cases hsame : pushed &&& maskKeycodes = pushed
  · rw [if_pos hsame]
    exact ⟨_, rfl⟩
  · rw [if_neg hsame]
    exact ⟨_, rfl⟩

/-- A state after some keys of a stored sequence, with the ticks since the last
one. -/
structure Typing (st₀ : SequenceState) (done : List UInt16) (spared ticks : Nat)
    (st : SequenceState) : Prop where
  active : st.activity = .active
  sequence : st.sequence = done
  overlapped : st.overlappedSequence = done
  mode : st.sequenceInputMode = st₀.sequenceInputMode
  timeout : st.sequenceTimeout = st₀.sequenceTimeout
  ticksLeft : st.ticksUntilTimeout + ticks = st₀.sequenceTimeout
  noeraseCount : st.noeraseCount = spared % (u16Max + 1)

/-! ## Backspaces -/

/-- The left variant of a key is a modifier if the key is. -/
theorem isModifier_leftVariant (osc : OsCode) :
    OsCode.isModifier (leftVariant osc) = OsCode.isModifier osc := by
  unfold leftVariant
  split
  · rename_i h
    rw [h]
    decide
  · split
    · rename_i h
      rw [h]
      decide
    · split
      · rename_i h
        rw [h]
        decide
      · rfl

/-- The same for the keys that are ignored. -/
theorem isIgnored_leftVariant (osc : OsCode) :
    OsCode.isIgnored (leftVariant osc) = OsCode.isIgnored osc := by
  unfold leftVariant
  split
  · rename_i h
    rw [h]
    decide
  · split
    · rename_i h
      rw [h]
      decide
    · split
      · rename_i h
        rw [h]
        decide
      · rfl

/-- One backspace for each character beyond the count. -/
theorem backspaces_typed {steps : List (Step T)}
    (hplain : ∀ e ∈ typed steps, e ≠ keyOverlapMarker) (n : Nat) :
    backspaces (typed steps) n =
      .ok (List.replicate (steps.countP Step.isCharacter - n) .backspace,
        n - steps.countP Step.isCharacter) := by
  induction steps generalizing n with
  | nil => rw [List.countP_nil, Nat.zero_sub, Nat.sub_zero]; rfl
  | cons x steps ih =>
    cases x with
    | released states => exact ih hplain n
    | tick => exact ih hplain n
    | noerase count => exact ih hplain n
    | press k curKeys states =>
      have htyped : typed (Step.press k curKeys states :: steps) =
          pushedIntoSeq k (getModMaskForCurKeys curKeys) :: typed steps := rfl
      rw [htyped] at hplain ⊢
      have hhead := hplain _ List.mem_cons_self
      have htail : ∀ e ∈ typed steps, e ≠ keyOverlapMarker :=
        fun e he => hplain e (List.mem_cons_of_mem _ he)
      rw [backspaces, if_neg hhead, oscodeFrom_pushed]
      simp only [ok_bind]
      rw [isModifier_leftVariant, isIgnored_leftVariant, List.countP_cons]
      -- a modifier types no character, so none is erased for it
      by_cases hchar : Step.isCharacter (Step.press (T := T) k curKeys states) = true
      · have hskip : (OsCode.isModifier k || OsCode.isIgnored k) = false := by
          simpa [Step.isCharacter] using hchar
        simp only [hskip, hchar, Bool.false_eq_true, if_false, if_true]
        by_cases hn : n > 0
        · rw [if_pos hn, ih htail]
          congr 2
          · congr 1
            omega
          · omega
        · have hzero : n = 0 := Nat.eq_zero_of_not_pos hn
          rw [if_neg hn, ih htail]
          simp only [ok_bind, hzero, Nat.sub_zero, Nat.zero_sub, List.replicate_succ]
          rfl
      · have hskip : (OsCode.isModifier k || OsCode.isIgnored k) = true := by
          simpa [Step.isCharacter, Classical.or_iff_not_imp_left] using hchar
        simp only [hskip, hchar, if_true, Bool.false_eq_true, if_false]
        exact ih htail n

/-- The states of what was typed can be dropped. -/
theorem dropTyped_typed {steps : List (Step T)} (states : List (State T)) :
    ∃ states', dropTyped (typed steps) states = .ok states' := by
  induction steps generalizing states with
  | nil => exact ⟨states, rfl⟩
  | cons x steps ih =>
    cases x with
    | released states' => exact ih states
    | tick => exact ih states
    | noerase count => exact ih states
    | press k curKeys states' =>
      have htyped : typed (Step.press k curKeys states' :: steps) =
          pushedIntoSeq k (getModMaskForCurKeys curKeys) :: typed steps := rfl
      rw [htyped, dropTyped]
      split
      · exact ih states
      · rw [oscodeFrom_pushed]
        exact ih _

/-- Releasing the modifiers makes neither events nor backspaces. -/
theorem releaseMods_effects (states : List (State T)) :
    ∀ x ∈ (releaseMods states).2, x.isEvent = false ∧ x ≠ .backspace := by
  intro x hx
  rcases List.mem_flatMap.mp hx with ⟨st, _, hx⟩
  cases st with
  | normalKey keycode coord flags =>
    simp only at hx
    split at hx
    · rcases List.mem_map.mp hx with ⟨call, _, rfl⟩
      exact ⟨rfl, by simp⟩
    · cases hx
  | layerModifier _ _ => cases hx
  | custom _ _ => cases hx
  | fakeKey _ => cases hx
  | repeatingSequence _ _ => cases hx
  | seqCustomPending _ => cases hx
  | seqCustomActive _ => cases hx
  | tombstone => cases hx
  | noOpInput _ => cases hx

/-- The end of a sequence that was typed in these steps. -/
theorem termination_typed {steps : List (Step T)} {st : SequenceState} (states : List (State T))
    (coord : KCoord) (hplain : ∀ e ∈ typed steps, e ≠ keyOverlapMarker)
    (hseq : st.overlappedSequence = typed steps) :
    ∃ o erased, doSuccessfulSequenceTermination st states coord .overlap = .ok o ∧
      o.state.activity = .inactive ∧
      o.effects = erased ++ [.eventToFront (.release coord.1 coord.2),
        .eventToFront (.press coord.1 coord.2)] ∧
      (∀ x ∈ erased, x.isEvent = false) ∧
      (st.sequenceInputMode = .visibleBackspaced → erased.count .backspace =
        steps.countP Step.isCharacter - st.noeraseCount) := by
  unfold doSuccessfulSequenceTermination
  simp only [hseq]
  cases hmode : st.sequenceInputMode with
  | hiddenSuppressed =>
    rcases @dropTyped_typed T steps states with ⟨states', hdrop⟩
    simp only [pure_bind, hdrop, ok_bind]
    refine ⟨_, [], rfl, rfl, rfl, ?_, ?_⟩
    · intro x hx
      cases hx
    · intro h
      cases h
  | hiddenDelayType =>
    rcases @dropTyped_typed T steps states with ⟨states', hdrop⟩
    simp only [pure_bind, hdrop, ok_bind]
    refine ⟨_, [], rfl, rfl, rfl, ?_, ?_⟩
    · intro x hx
      cases hx
    · intro h
      cases h
  | visibleBackspaced =>
    rcases @dropTyped_typed T steps (releaseMods states).1 with ⟨states', hdrop⟩
    simp only [backspaces_typed hplain, ok_bind, pure_bind, hdrop]
    refine ⟨_, _, rfl, rfl, rfl, ?_, ?_⟩
    · intro x hx
      rcases List.mem_append.mp hx with hx | hx
      · exact (releaseMods_effects states x hx).1
      · rw [List.eq_of_mem_replicate hx]
        rfl
    · intro _
      have hnone : (releaseMods states).2.count .backspace = 0 :=
        List.count_eq_zero.mpr fun hmem => (releaseMods_effects states _ hmem).2 rfl
      rw [List.count_append, hnone, List.count_replicate_self, Nat.zero_add]

/-! ## Steps -/

variable {st₀ st : SequenceState} {done rest : List UInt16} {spared ticks : Nat} {coord : KCoord}

/-- Nothing has been typed yet. -/
theorem typing_activate (st : SequenceState) (mode : SequenceInputMode) (timeout : Nat) :
    Typing (st.activate mode timeout) [] 0 0 (st.activate mode timeout) where
  active := rfl
  sequence := rfl
  overlapped := rfl
  mode := rfl
  timeout := rfl
  ticksLeft := rfl
  noeraseCount := rfl

/-- A key that is passed on makes neither. -/
theorem pressKey_effects (k : KeyCode) :
    ∀ x ∈ (OutputLogic.pressKey k).map Effect.kbd, x.isEvent = false ∧ x ≠ .backspace := by
  intro x hx
  rcases List.mem_map.mp hx with ⟨call, _, rfl⟩
  exact ⟨rfl, by simp⟩

/-- What the press itself sends. -/
def pressEffects (mode : SequenceInputMode) (k : KeyCode) : List Effect :=
  match mode with
  | .visibleBackspaced => (OutputLogic.pressKey k).map Effect.kbd
  | .hiddenSuppressed | .hiddenDelayType => []

/-- Nor does a key that is shown or hidden. -/
theorem pressEffects_spec (mode : SequenceInputMode) (k : KeyCode) :
    ∀ x ∈ pressEffects mode k, x.isEvent = false ∧ x ≠ .backspace := by
  intro x hx
  cases mode with
  | visibleBackspaced => exact pressKey_effects k x hx
  | hiddenSuppressed => cases hx
  | hiddenDelayType => cases hx

/-- A key that leads on in the table: both trackers end with what was typed. -/
theorem Typing.press_eq (modcancel : Bool) (h : Plain sequences)
    (hst : Typing st₀ done spared ticks st)
    (states : List (State T)) {k : KeyCode} {mask : UInt16} {res : Res}
    (hres : sequences.getOrDescendantExists (done ++ [pushedIntoSeq k mask]) = res)
    (hknown : res ≠ .notInTrie) :
    ∃ st', Typing st₀ (done ++ [pushedIntoSeq k mask]) spared 0 st' ∧
      doSequencePressLogic sequences modcancel st states k mask = (do
        let outcome ← complete sequences ⟨st', res, res, []⟩ states
        pure { outcome with
          effects := pressEffects st.sequenceInputMode k ++ [] ++ outcome.effects }) := by
  rcases h.trackOverlapped done (pushedIntoSeq k mask) with ⟨l, hoverlapped⟩
  have hstandard : trackStandard sequences modcancel (done ++ [pushedIntoSeq k mask]) =
      (done ++ [pushedIntoSeq k mask], res, false) := by
    unfold trackStandard
    rw [hres]
    simp only [if_neg hknown]
  refine ⟨{ st with
    ticksUntilTimeout := st.sequenceTimeout
    rawOscs := st.rawOscs ++ [k]
    sequence := done ++ [pushedIntoSeq k mask]
    overlappedSequence := done ++ [pushedIntoSeq k mask] }, ?_, ?_⟩
  · exact ⟨hst.active, rfl, rfl, hst.mode, hst.timeout, hst.timeout, hst.noeraseCount⟩
  · unfold doSequencePressLogic
    simp only [hst.sequence, hst.overlapped, hstandard, hoverlapped, reconcile, hres]
    rfl

/-- A key before the last one. -/
theorem Typing.press (overflowChecks modcancel : Bool) (h : Plain sequences)
    (hst : Typing st₀ done spared ticks st) {k : KeyCode} {curKeys : List KeyCode}
    (states : List (State T))
    (hget : sequences.get
      (done ++ [pushedIntoSeq k (getModMaskForCurKeys curKeys)] ++ rest) = some coord)
    (hrest : rest ≠ []) :
    ∃ st' effects, step overflowChecks modcancel sequences st (.press k curKeys states) =
        .ok (st', effects) ∧
      Typing st₀ (done ++ [pushedIntoSeq k (getModMaskForCurKeys curKeys)]) spared 0 st' ∧
      ∀ x ∈ effects, x.isEvent = false ∧ x ≠ .backspace := by
  have hres := h.known hget hrest
  rcases hst.press_eq modcancel h states hres (by simp) with ⟨st', htyping, heq⟩
  have hactive : st.isActive = true := by
    unfold SequenceState.isActive
    simp [hst.active]
  refine ⟨st', pressEffects st.sequenceInputMode k, ?_, htyping, pressEffects_spec _ k⟩
  unfold step
  simp only [hactive, if_true, heq, complete, pure_bind, List.append_nil]
  rfl

/-- Nothing ends an overlap that was never begun. -/
theorem Typing.released (overflowChecks modcancel : Bool) (h : Plain sequences)
    (hst : Typing st₀ done spared ticks st) (states : List (State T)) :
    ∃ st', step overflowChecks modcancel sequences st (.released states) = .ok (st', []) ∧
      Typing st₀ done spared ticks st' := by
  have hactive : st.isActive = true := by
    unfold SequenceState.isActive
    simp [hst.active]
  have hnot : sequences.getOrDescendantExists (st.overlappedSequence ++ [keyOverlapMarker]) =
      .notInTrie := h.unknown (e := keyOverlapMarker) (by simp) (by
        rw [UInt16.and_self]
        exact marker_ne_zero)
  refine ⟨{ st with overlappedSequence := st.sequence }, ?_, ?_⟩
  · unfold step endOverlap
    simp only [hactive, if_true, hnot]
    rfl
  · exact ⟨hst.active, hst.sequence, hst.sequence, hst.mode, hst.timeout, hst.ticksLeft,
      hst.noeraseCount⟩

omit [LawfulPatriciaMap M] in
/-- A tick that is not the last one of the timeout. -/
theorem Typing.tick (overflowChecks modcancel : Bool) (sequences : Trie M KCoord)
    (hst : Typing st₀ done spared ticks st)
    (htime : ticks + 1 < st₀.sequenceTimeout) :
    ∃ st', step overflowChecks modcancel sequences st (.tick : Step T) = .ok (st', []) ∧
      Typing st₀ done spared (ticks + 1) st' := by
  have hleft := hst.ticksLeft
  have hactive : st.isActive = true := by
    unfold SequenceState.isActive
    simp [hst.active]
  refine ⟨{ st with ticksUntilTimeout := st.ticksUntilTimeout - 1 }, ?_, ?_⟩
  · have hzero : ¬ st.ticksUntilTimeout = 0 := by omega
    have hzero' : ¬ st.ticksUntilTimeout - 1 = 0 := by omega
    unfold step tickSequenceState
    simp only [hactive, if_true, if_neg hzero, pure_bind, if_neg hzero']
    rfl
  · refine ⟨hst.active, hst.sequence, hst.overlapped, hst.mode, hst.timeout, ?_, hst.noeraseCount⟩
    change st.ticksUntilTimeout - 1 + (ticks + 1) = _
    omega

omit [LawfulPatriciaMap M] in
/-- Characters that are spared are counted, up to `u16`. -/
theorem Typing.noerase (modcancel : Bool) (sequences : Trie M KCoord)
    (hst : Typing st₀ done spared ticks st) (count : Nat)
    (hsum : overflowChecks = true → spared + count ≤ u16Max) :
    ∃ st', step overflowChecks modcancel sequences st (.noerase count : Step T) = .ok (st', []) ∧
      Typing st₀ done (spared + count) ticks st' := by
  have hactive : st.isActive = true := by
    unfold SequenceState.isActive
    simp [hst.active]
  have hcount := hst.noeraseCount
  have hadd : addU16 overflowChecks st.noeraseCount count =
      .ok ((spared + count) % (u16Max + 1)) := by
    have hmod : spared % (u16Max + 1) ≤ spared := Nat.mod_le _ _
    unfold addU16
    rw [hcount]
    -- without overflow checks the count wraps
    by_cases hle : spared % (u16Max + 1) + count ≤ u16Max
    · rw [if_pos hle, ← Nat.mod_add_mod, Nat.mod_eq_of_lt (Nat.lt_succ_of_le hle)]
      rfl
    · have hoff : overflowChecks = false := by
        cases hchecks : overflowChecks with
        | false => rfl
        | true =>
          have := hsum hchecks
          omega
      rw [if_neg hle, hoff, if_neg (by simp), Nat.mod_add_mod]
      rfl
  refine ⟨{ st with noeraseCount := (spared + count) % (u16Max + 1) }, ?_, ?_⟩
  · unfold step addNoerase
    simp only [hactive, if_true, hadd]
    rfl
  · exact ⟨hst.active, hst.sequence, hst.overlapped, hst.mode, hst.timeout, hst.ticksLeft, rfl⟩

/-! ## Whole runs -/

omit [LawfulPatriciaMap M] in
/-- Two parts of a run. -/
theorem run_append (st : SequenceState) (xs ys : List (Step T)) :
    run overflowChecks modcancel sequences st (xs ++ ys) = (do
      let (st, effects) ← run overflowChecks modcancel sequences st xs
      let (st, effects') ← run overflowChecks modcancel sequences st ys
      pure (st, effects ++ effects')) := by
  induction xs generalizing st with
  | nil =>
    simp only [List.nil_append, run, pure_bind]
    cases run overflowChecks modcancel sequences st ys <;> rfl
  | cons x xs ih =>
    rw [List.cons_append, run, run]
    simp only [bind_assoc]
    refine bind_congr_ok ?_
    rintro ⟨st', effects⟩ _
    simp only [ih, bind_assoc, pure_bind]
    refine bind_congr_ok ?_
    rintro ⟨st'', effects'⟩ _
    refine bind_congr_ok ?_
    rintro ⟨st₃, effects''⟩ _
    rw [List.append_assoc]

omit [LawfulPatriciaMap M] in
/-- A step of the run in front of what is known of the rest of it. -/
theorem run_cons {x : Step T} {xs : List (Step T)} {st' : SequenceState} {effects : List Effect}
    {post : SequenceState → Prop}
    (hstep : step overflowChecks modcancel sequences st x = .ok (st', effects))
    (heffects : ∀ x ∈ effects, x.isEvent = false ∧ x ≠ .backspace)
    (hrun : ∃ st'' effects', run overflowChecks modcancel sequences st' xs = .ok (st'', effects') ∧
      post st'' ∧ ∀ x ∈ effects', x.isEvent = false ∧ x ≠ .backspace) :
    ∃ st'' effects', run overflowChecks modcancel sequences st (x :: xs) = .ok (st'', effects') ∧
      post st'' ∧ ∀ x ∈ effects', x.isEvent = false ∧ x ≠ .backspace := by
  rcases hrun with ⟨st'', effects', hrun, hpost, heffects'⟩
  refine ⟨st'', effects ++ effects', ?_, hpost, ?_⟩
  · rw [run, hstep]
    simp only [ok_bind, hrun]
    rfl
  · intro x hx
    rcases List.mem_append.mp hx with hx | hx
    · exact heffects x hx
    · exact heffects' x hx

/-- Until the last key is pressed, nothing but the keys themselves is sent. -/
theorem run_typing (overflowChecks modcancel : Bool) (h : Plain sequences) (hrest : rest ≠ []) :
    ∀ {steps : List (Step T)} {st : SequenceState} {done : List UInt16} {spared ticks : Nat},
      Typing st₀ done spared ticks st → Timely st₀.sequenceTimeout ticks steps →
      sequences.get (done ++ typed steps ++ rest) = some coord →
      (overflowChecks = true → spared + noeraseTotal steps ≤ u16Max) →
      ∃ st' effects, run overflowChecks modcancel sequences st steps = .ok (st', effects) ∧
        (∃ ticks', Typing st₀ (done ++ typed steps) (spared + noeraseTotal steps) ticks' st') ∧
        ∀ x ∈ effects, x.isEvent = false ∧ x ≠ .backspace
  | [], st, done, spared, ticks, hst, _, _, _ => by
    refine ⟨st, [], rfl, ⟨ticks, ?_⟩, fun x hx => by cases hx⟩
    rw [show typed ([] : List (Step T)) = [] from rfl, List.append_nil]
    exact hst
  | .press k curKeys states :: steps, st, done, spared, ticks, hst, htime, hget, hsum => by
    have htyped : done ++ typed (Step.press k curKeys states :: steps) =
        done ++ [pushedIntoSeq k (getModMaskForCurKeys curKeys)] ++ typed steps := by
      rw [List.append_assoc]
      rfl
    have htotal : noeraseTotal (Step.press k curKeys states :: steps) = noeraseTotal steps :=
      Nat.zero_add _
    rw [htyped] at hget ⊢
    rw [htotal] at hsum ⊢
    have hget' := hget
    rw [List.append_assoc] at hget'
    rcases hst.press overflowChecks modcancel h states hget' (by simp [hrest]) with
      ⟨st', effects, hstep, hst', heffects⟩
    exact run_cons hstep heffects (run_typing overflowChecks modcancel h hrest hst' htime hget hsum)
  | .released states :: steps, st, done, spared, ticks, hst, htime, hget, hsum => by
    have htotal : noeraseTotal (Step.released states :: steps) = noeraseTotal steps :=
      Nat.zero_add _
    rw [htotal] at hsum ⊢
    rcases hst.released overflowChecks modcancel h states with ⟨st', hstep, hst'⟩
    exact run_cons hstep (fun x hx => by cases hx)
      (run_typing overflowChecks modcancel h hrest hst' htime hget hsum)
  | .tick :: steps, st, done, spared, ticks, hst, htime, hget, hsum => by
    have htotal : noeraseTotal ((.tick : Step T) :: steps) = noeraseTotal steps :=
      Nat.zero_add _
    rw [htotal] at hsum ⊢
    rcases hst.tick (T := T) overflowChecks modcancel sequences htime.1 with ⟨st', hstep, hst'⟩
    exact run_cons hstep (fun x hx => by cases hx)
      (run_typing overflowChecks modcancel h hrest hst' htime.2 hget hsum)
  | .noerase count :: steps, st, done, spared, ticks, hst, htime, hget, hsum => by
    have htotal : spared + noeraseTotal (Step.noerase (T := T) count :: steps) =
        spared + count + noeraseTotal steps := by
      rw [Nat.add_assoc]
      rfl
    rw [htotal] at hsum ⊢
    rcases hst.noerase (T := T) modcancel sequences count
      (fun ho => Nat.le_trans (Nat.le_add_right _ _) (hsum ho)) with ⟨st', hstep, hst'⟩
    exact run_cons hstep (fun x hx => by cases hx)
      (run_typing overflowChecks modcancel h hrest hst' htime hget hsum)

/-- Typing a stored sequence in time, with releases in between, ends the sequence
and taps its virtual key after the last key and nothing before it. In the visible
mode there is a backspace for each character beyond the noerase count. -/
theorem sequence_matched {s : ParserState T} {exprs : List (List SExpr)} {st : SequenceState}
    {mode : SequenceInputMode} {timeout : Nat} {front : List (Step T)} {k : KeyCode}
    {curKeys : List KeyCode} {states : List (State T)}
    (hparse : parseSequences exprs s = .ok sequences) (hoverlap : NoOverlap sequences)
    (htyped : sequences.get (typed (front ++ [Step.press k curKeys states])) = some coord)
    (htime : Timely timeout 0 front)
    (hnoerase : overflowChecks = true → noeraseTotal front ≤ u16Max) :
    ∃ st' before,
      run overflowChecks modcancel sequences (st.activate mode timeout)
          (front ++ [Step.press k curKeys states]) =
        .ok (st', before ++ [.eventToFront (.release coord.1 coord.2),
          .eventToFront (.press coord.1 coord.2)]) ∧
      st'.activity = .inactive ∧ (∀ x ∈ before, x.isEvent = false) ∧
      (mode = .visibleBackspaced → before.count .backspace =
        (front ++ [Step.press k curKeys states]).countP Step.isCharacter -
          noeraseTotal front % (u16Max + 1)) := by
  -- no sequence is found before its last key, since none is a prefix of another
  have hfree := parseSequences_prefixFree hparse
  have h : Plain sequences := ⟨hfree.1, hfree.2, hoverlap⟩
  have hsplit : typed (front ++ [Step.press k curKeys states]) =
      typed front ++ [pushedIntoSeq k (getModMaskForCurKeys curKeys)] := by
    unfold typed
    rw [List.filterMap_append]
    rfl
  have hplain : ∀ e ∈ typed (front ++ [Step.press k curKeys states]), e ≠ keyOverlapMarker := by
    rintro e he rfl
    -- an element that is typed is none of the markers
    have hzero := hoverlap _ (by rw [htyped]; rfl) _ he
    rw [UInt16.and_self] at hzero
    exact marker_ne_zero hzero
  -- up to the last key
  have hget := htyped
  rw [hsplit] at hget
  rcases run_typing overflowChecks modcancel h
    (List.cons_ne_nil _ []) (typing_activate st mode timeout) htime (by simpa using hget)
    (by simpa using hnoerase) with ⟨st₁, effects, hrun, ⟨ticks, htyping⟩, heffects⟩
  rw [List.nil_append, Nat.zero_add] at htyping
  -- the last key
  have hres : sequences.getOrDescendantExists
      (typed front ++ [pushedIntoSeq k (getModMaskForCurKeys curKeys)]) = .hasValue coord :=
    Trie.getOrDescendantExists_eq_hasValue.mpr hget
  rcases htyping.press_eq modcancel h states hres (by simp) with ⟨st₂, htyping₂, hpress⟩
  rcases termination_typed states coord hplain
    (htyping₂.overlapped.trans hsplit.symm) with
    ⟨o, erased, hend, hinactive, hevents, herased, hcount⟩
  have hactive : st₁.isActive = true := by
    unfold SequenceState.isActive
    simp [htyping.active]
  have hstep : step overflowChecks modcancel sequences st₁ (.press k curKeys states) =
      .ok (o.state, pressEffects st₁.sequenceInputMode k ++ [] ++ o.effects) := by
    unfold step
    simp only [hactive, if_true, hpress, complete, hend, ok_bind]
    rfl
  refine ⟨o.state, effects ++ (pressEffects st₁.sequenceInputMode k ++ erased), ?_, hinactive,
    ?_, ?_⟩
  · rw [run_append, hrun]
    simp only [ok_bind, run, hstep, hevents, pure_bind, List.append_nil, List.append_assoc]
    rfl
  · intro x hx
    rcases List.mem_append.mp hx with hx | hx
    · exact (heffects x hx).1
    · rcases List.mem_append.mp hx with hx | hx
      · exact (pressEffects_spec _ _ x hx).1
      · exact herased x hx
  · intro hmode
    -- no backspace is sent before the last key
    have hnone : effects.count .backspace = 0 :=
      List.count_eq_zero.mpr fun hmem => (heffects _ hmem).2 rfl
    have hnone' : (pressEffects st₁.sequenceInputMode k).count .backspace = 0 :=
      List.count_eq_zero.mpr fun hmem => (pressEffects_spec _ _ _ hmem).2 rfl
    rw [List.count_append, List.count_append, hnone, hnone',
      hcount (htyping₂.mode.trans hmode), htyping₂.noeraseCount]
    omega

end Matching

/-- `(defseq v (a b))`. -/
def plainDefinition : List SExpr :=
  [.atomNode "defseq" default, .atomNode "v" default,
    .listNode [.atomNode "a" default, .atomNode "b" default] default]

/-- One sequence of two keys. -/
def plainTable : Trie EntryMap KCoord := Trie.new.insert [30, 48] (1, 0)

/-- It has no overlap. -/
theorem noOverlap_plainTable : NoOverlap plainTable := by
  intro k hk e he
  unfold plainTable at hk
  rw [Trie.get_insert] at hk
  by_cases h : k = [30, 48]
  · subst h
    simp only [List.mem_cons, List.not_mem_nil, or_false] at he
    rcases he with rfl | rfl
    · decide
    · decide
  · rw [if_neg h, Trie.get_new] at hk
    cases hk

/-- `a`, a tick and the release of `a`. -/
def stepsBeforeLast : List (Step Unit) :=
  [.press keyA [keyA] [], .tick, .released []]

/-- The key that ends it. -/
def lastKey : KeyCode := keyB

/-- `sequence_matched` for two keys. -/
theorem sequence_matched_two_keys :
    ∃ st' before,
      run true true plainTable (SequenceState.new.activate .visibleBackspaced 5)
          (stepsBeforeLast ++ [Step.press lastKey [lastKey] []]) =
        .ok (st', before ++ [.eventToFront (.release 1 0), .eventToFront (.press 1 0)]) ∧
      st'.activity = .inactive ∧ (∀ x ∈ before, x.isEvent = false) ∧
      (SequenceInputMode.visibleBackspaced = .visibleBackspaced → before.count .backspace =
        (stepsBeforeLast ++ [Step.press lastKey [lastKey] []]).countP Step.isCharacter -
          noeraseTotal stepsBeforeLast % (u16Max + 1)) := by
  have hparse : parseSequences [plainDefinition] twoKeys = .ok plainTable := rfl
  have htime : Timely 5 0 stepsBeforeLast := ⟨by decide, trivial⟩
  have htyped : plainTable.get (typed (stepsBeforeLast ++ [Step.press lastKey [lastKey] []])) =
      some (1, 0) := rfl
  exact sequence_matched hparse noOverlap_plainTable htyped htime fun _ => by decide

end Kanata.Sequences
