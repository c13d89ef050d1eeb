import Mathlib.Data.List.Basic

/-!
# Kanata.Basic — panics, machine integers, keys and coordinates

The vocabulary shared by every part of the model:

* `Rust` — a computation that may panic. A failed assertion, an index out of
  range and an `expect` on a missing value all end here;
* `u16` and `i16` arithmetic on `Nat` and `Int`, saturating or plain. A plain sum that does
  not fit panics in a build with overflow checks and wraps around in the others;
* `KeyCode` — key codes carry the bound of the source's enumeration, so a code
  past the last variant cannot be built;
* `KCoord` — coordinates of the key matrix, row first.
-/

namespace Kanata

/-- The message of a panic. -/
structure Panic where
  msg : String
deriving DecidableEq, Repr

/-- A computation of the source: a value or a panic. -/
abbrev Rust (α : Type) := Except Panic α

/-- `panic!(msg)`, a failed `assert!(.., msg)` or `expect(msg)`. -/
def panicWith {α : Type} (msg : String) : Rust α := .error ⟨msg⟩

/-- `assert!(c, msg)`. -/
def assertThat (c : Bool) (msg : String) : Rust Unit :=
  if c then .ok () else panicWith msg

@[simp] theorem assertThat_true (msg : String) : assertThat true msg = .ok () := rfl

theorem assertThat_eq_ok {c : Bool} {msg : String} {u : Unit} :
    assertThat c msg = .ok u ↔ c = true := by
  cases c <;> simp [assertThat, panicWith]

/-! ## `u16` arithmetic -/

/-- `u16::MAX`. -/
def u16Max : Nat := 65535

/-- `u16::saturating_add`. Subtraction saturates already on `Nat`. -/
def satAdd (a b : Nat) : Nat := min (a + b) u16Max

theorem satAdd_le (a b : Nat) : satAdd a b ≤ u16Max := Nat.min_le_right _ _

theorem satAdd_mono {a b : Nat} (h : a ≤ b) (c : Nat) : satAdd a c ≤ satAdd b c := by
  simp only [satAdd]
  omega

theorem satAdd_satAdd (a b c : Nat) : satAdd (satAdd a b) c = satAdd a (b + c) := by
  simp only [satAdd]
  omega

/-- The plain `u16` addition: it panics in builds with overflow checks and wraps
around in the others. -/
def addU16 (overflowChecks : Bool) (a b : Nat) : Rust Nat :=
  if a + b ≤ u16Max then pure (a + b)
  else if overflowChecks then panicWith "attempt to add with overflow"
  else pure ((a + b) % (u16Max + 1))

/-- A sum that is computed, whether it fits or not. -/
theorem addU16_eq_mod {overflowChecks : Bool} {a b n : Nat}
    (h : addU16 overflowChecks a b = .ok n) : n = (a + b) % (u16Max + 1) := by
  unfold addU16 at h
  split at h
  · rename_i hle
    rw [Nat.mod_eq_of_lt (Nat.lt_succ_of_le hle)]
    exact (Except.ok.inj h).symm
  · split at h
    · cases h
    · exact (Except.ok.inj h).symm

/-! ## `i16` arithmetic -/

/-- `i16::MAX`. -/
def i16Max : Int := 32767

/-- `i16::MIN`. -/
def i16Min : Int := -32768

/-- The result of a plain operation on `i16`. -/
def fitI16 (overflowChecks : Bool) (n : Int) (msg : String) : Rust Int :=
  if i16Min ≤ n ∧ n ≤ i16Max then pure n
  else if overflowChecks then panicWith msg
  else pure (n.bmod 65536)

def addI16 (overflowChecks : Bool) (a b : Int) : Rust Int :=
  fitI16 overflowChecks (a + b) "attempt to add with overflow"

def subI16 (overflowChecks : Bool) (a b : Int) : Rust Int :=
  fitI16 overflowChecks (a - b) "attempt to subtract with overflow"

/-- `as i16` on a `usize`. -/
def asI16 (n : Nat) : Int := (n : Int).bmod 65536

/-- `as usize` on an `i16`: a negative number becomes a large one. -/
def i16AsUsize (n : Int) : Nat := (n % 18446744073709551616).toNat

/-! ## Keys and coordinates -/

/-- `KeyCode::KeyMax`, the last variant of the key code enumeration. -/
def keyCodeMax : Nat := 767

/-- `KEY_MAX` of keyberon: every key code is below it. The chords v2 virtual
coordinates start above it. -/
def keyMax : Nat := 850

/-- A key code. `OsCode` has the same discriminants and the conversions
between the two are transmutes, so one type models both. -/
structure KeyCode where
  code : Nat
  le_max : code ≤ keyCodeMax
deriving DecidableEq, Repr

/-- The parser's name for key codes. -/
abbrev OsCode := KeyCode

/-- Keys that examples are about. -/
def keyA : KeyCode := ⟨30, by decide⟩

def keyB : KeyCode := ⟨48, by decide⟩

def keyLeftCtrl : KeyCode := ⟨29, by decide⟩

theorem KeyCode.lt_keyMax (kc : KeyCode) : kc.code < keyMax :=
  Nat.lt_of_le_of_lt kc.le_max (by decide)

theorem KeyCode.ext_code {a b : KeyCode} (h : a.code = b.code) : a = b := by
  cases a; cases b; simp_all

/-- A coordinate: the row (0 for real keys, 1 for virtual keys) and the
position in the layout. -/
abbrev KCoord := Nat × Nat

/-- `REAL_KEY_ROW`. -/
def realKeyRow : Nat := 0

/-- `MAX_LAYERS`: layer indices fit in a `u16`. -/
def maxLayers : Nat := 60000

/-- An event of a history and the number of ticks since it happened. -/
structure HistoricalEvent (α : Type) where
  event : α
  ticksSinceOccurrence : Nat
deriving DecidableEq, Repr

end Kanata
