import Kanata.Lib.BitField
import Kanata.Lib.Fallible
import Kanata.Switch.Meaning

/-!
# Kanata.Switch.Encode — the opcode round trip

The constructors of the source, on the arguments the parser gives them, write
the words of `Leaf.code`, and `opcode_type` reads back what was written. Words
are compared as sums of their fields (`BitField`).
-/

namespace Kanata.Switch

open Fallible

/-! ## Masks of the decoder -/

/-- The three bits that tell apart the words above the two-word opcodes. -/
theorem and_E000 (x : Nat) : x &&& 0xE000 = x / 8192 % 8 * 8192 := BitField.and_mask x 13 3

/-- The recency of a key of the history. -/
theorem and_7000 (x : Nat) : x &&& 0x7000 = x / 4096 % 8 * 4096 := BitField.and_mask x 12 3

/-- The key that a number of ticks is about. -/
theorem and_1C00 (x : Nat) : x &&& 0x1C00 = x / 1024 % 8 * 1024 := BitField.and_mask x 10 3

/-- The boolean operator. -/
theorem and_opMask (x : Nat) : x &&& opMask = x / 4096 % 16 * 4096 := BitField.and_mask x 12 4

/-- A key code, or the end of a boolean operator. -/
theorem and_maxOpcodeLen (x : Nat) : x &&& maxOpcodeLen = x % 4096 :=
  Nat.and_two_pow_sub_one_eq_mod x 12

theorem and_0FFF (x : Nat) : x &&& 0xFFF = x % 4096 := Nat.and_two_pow_sub_one_eq_mod x 12

/-- A number of ticks as it is stored, or the position of an input. -/
theorem and_03FF (x : Nat) : x &&& 0x3FF = x % 1024 := Nat.and_two_pow_sub_one_eq_mod x 10

/-- A device. -/
theorem and_FF (x : Nat) : x &&& 0xFF = x % 256 := Nat.and_two_pow_sub_one_eq_mod x 8

/-- A recency in the second word. -/
theorem and_7 (x : Nat) : x &&& 0x7 = x % 8 := Nat.and_two_pow_sub_one_eq_mod x 3

/-- The row of an input. -/
theorem and_3 (x : Nat) : x &&& 0x3 = x % 4 := Nat.and_two_pow_sub_one_eq_mod x 2

/-- Ten bits hold every number of ticks that is compressed. -/
theorem lossyCompressTicks_lt {t : Nat} (h : t ≤ u16Max) : lossyCompressTicks t < 1024 := by
  simp only [u16Max] at h
  simp only [lossyCompressTicks]
  split_ifs <;> omega

/-! ## Constructors -/

/-- No key code is above the bound that the constructor asserts. -/
theorem newKey_eq (kc : KeyCode) : OpCode.newKey kc = .ok kc.code := by
  have hle := kc.le_max
  simp only [keyCodeMax] at hle
  have hmod : kc.code % 4096 = kc.code := Nat.mod_eq_of_lt (by omega)
  simp [OpCode.newKey, assertThat, keyMax, and_maxOpcodeLen, hmod, show kc.code ≤ 850 by omega,
    bind, Except.bind, pure, Except.pure]

/-- The marker, the recency and the key are three fields of one word. -/
theorem newKeyHistory_eq (kc : KeyCode) (recency : Fin 8) :
    OpCode.newKeyHistory kc recency.val =
      .ok (historicalKeycodeVal + recency.val * 4096 + kc.code) := by
  have hle := kc.le_max
  simp only [keyCodeMax] at hle
  have hr := recency.isLt
  have hrec : recency.val ≤ maxKeyRecency := Nat.le_of_lt_succ hr
  have hmask : kc.code &&& maxOpcodeLen = kc.code := by
    rw [and_maxOpcodeLen, Nat.mod_eq_of_lt (by omega)]
  have hword : kc.code ||| historicalKeycodeVal ||| (recency.val <<< 12) =
      historicalKeycodeVal + recency.val * 4096 + kc.code := by
    rw [Nat.lor_assoc, Nat.lor_comm historicalKeycodeVal, ← Nat.lor_assoc,
      BitField.lor_field (by omega : kc.code < 2 ^ 12),
      show historicalKeycodeVal = 1 <<< 15 from rfl,
      BitField.lor_field (by omega : recency.val * 2 ^ 12 + kc.code < 2 ^ 15)]
    omega
  simp only [OpCode.newKeyHistory, assertThat, hmask, hrec, hword]
  simp [show kc.code ≤ maxOpcodeLen by simp only [maxOpcodeLen]; omega, bind, Except.bind, pure,
    Except.pure]

/-- Both markers leave the low thirteen bits free. -/
theorem newTicksSince_eq (marker m : Nat) (hm : marker = m <<< 13) (nth : Fin 8)
    (ticks : Fin 65536) :
    OpCode.newTicksSince marker nth.val ticks.val =
      .ok (marker + nth.val * 1024 + lossyCompressTicks ticks) := by
  have hticks : lossyCompressTicks ticks.val < 2 ^ 10 :=
    lossyCompressTicks_lt (Nat.le_of_lt_succ ticks.isLt)
  have hnth := nth.isLt
  have hle : nth.val ≤ maxKeyRecency := Nat.le_of_lt_succ hnth
  have hword : marker ||| lossyCompressTicks ticks.val ||| (nth.val <<< 10) =
      marker + nth.val * 1024 + lossyCompressTicks ticks := by
    rw [Nat.lor_assoc, BitField.lor_field hticks, hm, Nat.lor_comm,
      BitField.lor_field (by omega : nth.val * 2 ^ 10 + lossyCompressTicks ticks.val < 2 ^ 13),
      Nat.shiftLeft_eq]
    omega
  simp [OpCode.newTicksSince, assertThat, hle, hword, bind, Except.bind, pure, Except.pure]

/-- The constructor asserts that the end is no longer than an opcode may be. -/
theorem newBool_eq {op : BooleanOperator} {endIdx : Nat} (h : endIdx ≤ maxOpcodeLen) :
    OpCode.newBool op endIdx = .ok (endIdx + op.toU16) := by
  have hmask : endIdx &&& maxOpcodeLen = endIdx := by
    simp only [maxOpcodeLen] at h
    rw [and_maxOpcodeLen, Nat.mod_eq_of_lt (by omega)]
  simp [OpCode.newBool, assertThat, hmask, h, bind, Except.bind, pure, Except.pure]

/-- Two words: the marker, and the coordinate. -/
theorem newActiveInput_eq (row : Fin 4) (y : Fin 1024) :
    OpCode.newActiveInput (row.val, y.val) = .ok (inputVal, row.val * 16384 + y.val) := by
  have hrow : row.val % 4 = row.val := Nat.mod_eq_of_lt row.isLt
  simp [OpCode.newActiveInput, assertThat, and_3, hrow, Nat.shiftLeft_eq, bind, Except.bind,
    pure, Except.pure]

/-- The constructor asserts that the position fits. -/
theorem newActiveInput_lt {row y : Nat} {w : OpCode × OpCode}
    (h : OpCode.newActiveInput (row, y) = .ok w) : y < 1024 := by
  simp only [OpCode.newActiveInput, bind_eq_ok, assertThat_eq_ok, decide_eq_true_eq] at h
  obtain ⟨_, _, _, hy, _⟩ := h
  exact hy

/-- The same for the input of the history. -/
theorem newHistoricalInput_lt {row y r : Nat} {w : OpCode × OpCode}
    (h : OpCode.newHistoricalInput (row, y) r = .ok w) : y < 1024 := by
  simp only [OpCode.newHistoricalInput, bind_eq_ok, assertThat_eq_ok, decide_eq_true_eq] at h
  obtain ⟨_, _, _, hy, _⟩ := h
  exact hy

/-- The recency stands between the row and the position. -/
theorem newHistoricalInput_eq (row : Fin 4) (y : Fin 1024) (recency : Fin 8) :
    OpCode.newHistoricalInput (row.val, y.val) recency.val =
      .ok (historicalInputVal, row.val * 16384 + recency.val * 2048 + y.val) := by
  have hrow : row.val % 4 = row.val := Nat.mod_eq_of_lt row.isLt
  simp [OpCode.newHistoricalInput, assertThat, and_3, hrow, Nat.shiftLeft_eq, bind, Except.bind,
    pure, Except.pure]

/-- The second word holds the recency above the device. -/
theorem newDeviceHistory_eq (id : Fin 256) (recency : Fin 8) :
    OpCode.newDeviceHistory id.val recency.val =
      .ok (historicalDeviceVal, recency.val * 256 + id.val) := by
  have hrec : recency.val ≤ maxKeyRecency := Nat.le_of_lt_succ recency.isLt
  simp [OpCode.newDeviceHistory, assertThat, hrec,
    BitField.lor_field (show id.val < 2 ^ 8 from id.isLt), bind, Except.bind, pure, Except.pure]

/-! ## Decoding -/

/-- What `opcode_type` makes of the words of a leaf. -/
def Leaf.decoded : Leaf → OpCodeType
  | .key kc => .keyCode kc.code
  | .keyHistory kc recency => .historicalKeyCode kc.code recency.val
  | .ticksSinceLt nth ticks => .ticksSinceLessThan nth.val (storedTicks ticks)
  | .ticksSinceGt nth ticks => .ticksSinceGreaterThan nth.val (storedTicks ticks)
  | .input row y => .input (row.val, y.val)
  | .inputHistory row y recency => .historicalInput (row.val, y.val) recency.val
  | .layer l => .layer l.val
  | .baseLayer l => .baseLayer l.val
  | .deviceHistory id _ recency => .historicalDevice id.val recency.val
  | .cmdExit _ index => .callbackIndex index

/-- A word below the markers is a key. -/
theorem opcodeType_lt {c : OpCode} {next : Option OpCode} (h : c < keyMax) :
    OpCode.opcodeType c next = .ok (.keyCode c) := by
  simp [OpCode.opcodeType, h, pure, Except.pure]

/-- The markers of the two-word opcodes lie between the keys and the words with fields. -/
theorem opcodeType_twoWord {c op2 : OpCode} (h : keyMax ≤ c) (h' : c ≤ maxOpcodeLen) :
    OpCode.opcodeType c (some op2) = twoWordType c op2 := by
  simp [OpCode.opcodeType, Nat.not_lt.mpr h, h']

/-- Three bits of the recency are read, and the marker is above them. -/
theorem opcodeType_historical {r k : Nat} {next : Option OpCode} (hr : r < 8) (hk : k < 4096) :
    OpCode.opcodeType (historicalKeycodeVal + r * 4096 + k) next =
      .ok (.historicalKeyCode k r) := by
  simp only [OpCode.opcodeType, historicalKeycodeVal, keyMax, maxOpcodeLen, ticksSinceValLt,
    ticksSinceValGt, and_E000, and_0FFF, and_7000, Nat.shiftRight_eq_div_pow]
  rw [if_neg, if_neg, if_neg, if_neg, if_pos]
  · rw [show (0x8000 + r * 4096 + k) % 4096 = k by omega,
      show (0x8000 + r * 4096 + k) / 4096 % 8 * 4096 / 2 ^ 12 = r by omega]
    rfl
  all_goals omega

/-- The number of ticks is decompressed. -/
theorem opcodeType_ticksLt {n t : Nat} {next : Option OpCode} (hn : n < 8) (ht : t < 1024) :
    OpCode.opcodeType (ticksSinceValLt + n * 1024 + t) next =
      .ok (.ticksSinceLessThan n (lossyDecompressTicks t)) := by
  simp only [OpCode.opcodeType, keyMax, maxOpcodeLen, ticksSinceValLt,
    ticksSinceValGt, and_E000, and_03FF, and_1C00, Nat.shiftRight_eq_div_pow]
  rw [if_neg, if_neg, if_pos]
  · rw [show (0x6000 + n * 1024 + t) % 1024 = t by omega,
      show (0x6000 + n * 1024 + t) / 1024 % 8 * 1024 / 2 ^ 10 = n by omega]
    rfl
  all_goals omega

/-- The same with the other marker. -/
theorem opcodeType_ticksGt {n t : Nat} {next : Option OpCode} (hn : n < 8) (ht : t < 1024) :
    OpCode.opcodeType (ticksSinceValGt + n * 1024 + t) next =
      .ok (.ticksSinceGreaterThan n (lossyDecompressTicks t)) := by
  simp only [OpCode.opcodeType, keyMax, maxOpcodeLen, ticksSinceValLt,
    ticksSinceValGt, and_E000, and_03FF, and_1C00, Nat.shiftRight_eq_div_pow]
  rw [if_neg, if_neg, if_neg, if_pos]
  · rw [show (0x4000 + n * 1024 + t) % 1024 = t by omega,
      show (0x4000 + n * 1024 + t) / 1024 % 8 * 1024 / 2 ^ 10 = n by omega]
    rfl
  all_goals omega

/-- The operator is read from the highest four bits. -/
theorem ofU16_bool (op : BooleanOperator) {endIdx : Nat} (h : endIdx ≤ maxOpcodeLen) :
    OperatorAndEndIndex.ofU16 (endIdx + op.toU16) = .ok ⟨op, endIdx⟩ := by
  simp only [maxOpcodeLen] at h
  have hlow : ∀ m, (endIdx + m * 4096) % 4096 = endIdx := fun m => by omega
  have hhigh : ∀ m, m < 16 → (endIdx + m * 4096) / 4096 % 16 * 4096 = m * 4096 :=
    fun m hm => by omega
  simp only [OperatorAndEndIndex.ofU16, and_opMask, and_maxOpcodeLen]
  cases op with
  | or =>
    rw [show BooleanOperator.or.toU16 = 1 * 4096 from rfl, hlow, hhigh 1 (by decide)]
    rfl
  | and =>
    rw [show BooleanOperator.and.toU16 = 2 * 4096 from rfl, hlow, hhigh 2 (by decide)]
    rfl
  | not =>
    rw [show BooleanOperator.not.toU16 = 3 * 4096 from rfl, hlow, hhigh 3 (by decide)]
    rfl

/-- No marker of the words with fields is that of an operator. -/
theorem opcodeType_bool {op : BooleanOperator} {endIdx : Nat} {next : Option OpCode}
    (h : endIdx ≤ maxOpcodeLen) :
    OpCode.opcodeType (endIdx + op.toU16) next = .ok (.booleanOp ⟨op, endIdx⟩) := by
  have hop : op.toU16 = 0x1000 ∨ op.toU16 = 0x2000 ∨ op.toU16 = 0x3000 := by
    cases op <;> simp [BooleanOperator.toU16, orVal, andVal, notVal]
  have hof := ofU16_bool op h
  simp only [maxOpcodeLen] at h
  simp only [OpCode.opcodeType, keyMax, maxOpcodeLen, ticksSinceValLt, ticksSinceValGt, and_E000,
    hof]
  rw [if_neg, if_neg, if_neg, if_neg, if_neg]
  · rfl
  all_goals omega

/-- The decoder reads a leaf back from its words, whatever follows them. -/
theorem opcodeType_leaf (l : Leaf) (rest : List OpCode) :
    ∃ c tail, l.code ++ rest = c :: tail ∧
      OpCode.opcodeType c tail.head? = .ok l.decoded := by
  cases l with
  | key kc => exact ⟨_, _, rfl, opcodeType_lt kc.lt_keyMax⟩
  | keyHistory kc r =>
    have hle := kc.le_max
    simp only [keyCodeMax] at hle
    exact ⟨_, _, rfl, opcodeType_historical r.isLt (by omega)⟩
  | ticksSinceLt n t =>
    exact ⟨_, _, rfl, opcodeType_ticksLt n.isLt
      (lossyCompressTicks_lt (Nat.le_of_lt_succ t.isLt))⟩
  | ticksSinceGt n t =>
    exact ⟨_, _, rfl, opcodeType_ticksGt n.isLt
      (lossyCompressTicks_lt (Nat.le_of_lt_succ t.isLt))⟩
  | input row y =>
    refine ⟨_, _, rfl, (opcodeType_twoWord (by decide) (by decide)).trans ?_⟩
    have hy := y.isLt
    have hr := row.isLt
    simp only [twoWordType, if_pos, and_3, and_03FF, Nat.shiftRight_eq_div_pow, Leaf.decoded,
      show (row.val * 16384 + y.val) / 2 ^ 14 % 4 = row.val by omega,
      show (row.val * 16384 + y.val) % 1024 = y.val by omega]
    rfl
  | inputHistory row y r =>
    refine ⟨_, _, rfl, (opcodeType_twoWord (by decide) (by decide)).trans ?_⟩
    have hy := y.isLt
    have hrow := row.isLt
    have hr := r.isLt
    simp only [twoWordType, if_pos, and_3, and_7, and_03FF, Nat.shiftRight_eq_div_pow,
      Leaf.decoded,
      show (row.val * 16384 + r.val * 2048 + y.val) / 2 ^ 14 % 4 = row.val by omega,
      show (row.val * 16384 + r.val * 2048 + y.val) % 1024 = y.val by omega,
      show (row.val * 16384 + r.val * 2048 + y.val) / 2 ^ 11 % 256 % 8 = r.val by omega]
    rfl
  | layer l => exact ⟨_, _, rfl, opcodeType_twoWord (by decide) (by decide)⟩
  | baseLayer l => exact ⟨_, _, rfl, opcodeType_twoWord (by decide) (by decide)⟩
  | deviceHistory id hne r =>
    refine ⟨_, _, rfl, (opcodeType_twoWord (by decide) (by decide)).trans ?_⟩
    have hid := id.isLt
    have hr := r.isLt
    have hpos : id.val ≠ 0 := fun h => hne (Fin.ext h)
    simp only [twoWordType, and_FF, and_7, Nat.shiftRight_eq_div_pow, Leaf.decoded,
      show (r.val * 256 + id.val) % 256 = id.val by omega,
      show (r.val * 256 + id.val) / 2 ^ 8 % 8 = r.val by omega, hpos]
    rfl
  | cmdExit f i => exact ⟨_, _, rfl, opcodeType_twoWord (by decide) (by decide)⟩

end Kanata.Switch
