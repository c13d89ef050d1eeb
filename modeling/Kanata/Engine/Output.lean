import Kanata.Basic

/-!
# Kanata.Engine.Output — keys on their way to the output

`press_key` and `release_key` of `src/kanata/output_logic.rs`: some keys are not
sent at all, and some stand for mouse buttons and for the wheel.
-/

namespace Kanata

/-- `OsCode::is_modifier`. -/
def OsCode.isModifier (osc : OsCode) : Bool :=
  -- LShift, RShift, LMeta, RMeta, LCtrl, RCtrl, LAlt, RAlt
  [42, 54, 125, 126, 29, 97, 56, 100].contains osc.code

/-- From `KEY_IGNORE_MIN` to `KEY_IGNORE_MAX`. -/
def OsCode.isIgnored (osc : OsCode) : Bool := decide (0x2a4 ≤ osc.code ∧ osc.code ≤ 0x2ad)

/-- From `BTN_LEFT` to `BTN_EXTRA`. -/
def OsCode.isButton (osc : OsCode) : Bool := decide (272 ≤ osc.code ∧ osc.code ≤ 276)

/-- From `MouseWheelUp` to `MouseWheelRight`. -/
def OsCode.isWheel (osc : OsCode) : Bool := decide (745 ≤ osc.code ∧ osc.code ≤ 748)

/-- A call of `KbdOut`. -/
inductive KbdCall where
  | pressKey (osc : OsCode)
  | releaseKey (osc : OsCode)
  | clickBtn (osc : OsCode)
  | releaseBtn (osc : OsCode)
  | scroll (osc : OsCode)
deriving DecidableEq, Repr

namespace OutputLogic

/-- `press_key`. -/
def pressKey (osc : OsCode) : List KbdCall :=
  if OsCode.isIgnored osc then []
  else if OsCode.isButton osc then [.clickBtn osc]
  else if OsCode.isWheel osc then [.scroll osc]
  else [.pressKey osc]

/-- `release_key`. The wheel has no release. -/
def releaseKey (osc : OsCode) : List KbdCall :=
  if OsCode.isIgnored osc then []
  else if OsCode.isButton osc then [.releaseBtn osc]
  else if OsCode.isWheel osc then []
  else [.releaseKey osc]

end OutputLogic

end Kanata
