import Mathlib.Data.List.TakeDrop

/-!
# Kanata.Lib.Typing — text that is typed

Text is typed and erased at its end. A writer that knows how much of what it has typed is
wrong erases that much and types the rest (`read_replace`).
-/

namespace Typing

variable {γ : Type}

inductive Edit (γ : Type) where
  | insert (x : γ)
  | erase
deriving DecidableEq, Repr

def Edit.apply (text : List γ) : Edit γ → List γ
  | .insert x => text ++ [x]
  | .erase => text.dropLast

/-- The text after some edits. -/
def read (text : List γ) (es : List (Edit γ)) : List γ := es.foldl Edit.apply text

@[simp] theorem read_nil (text : List γ) : read text [] = text := rfl

theorem read_append (text : List γ) (es es' : List (Edit γ)) :
    read text (es ++ es') = read (read text es) es' :=
  List.foldl_append

theorem read_inserts (text xs : List γ) : read text (xs.map .insert) = text ++ xs := by
  induction xs generalizing text with
  | nil => exact (List.append_nil text).symm
  | cons x xs ih =>
    rw [List.map_cons, read, List.foldl_cons, ← read, ih]
    simp [Edit.apply]

theorem read_erases (text : List γ) (n : Nat) :
    read text (List.replicate n .erase) = text.take (text.length - n) := by
  induction n generalizing text with
  | zero => simp
  | succ n ih =>
    rw [List.replicate_succ, read, List.foldl_cons, ← read, ih]
    show text.dropLast.take (text.dropLast.length - n) = _
    rw [List.length_dropLast, List.dropLast_eq_take, List.take_take]
    congr 1
    omega

/-- Erasing what differs and typing the rest replaces one end of the text by another. -/
theorem read_replace (text : List γ) {xs ys : List γ} {p : Nat} (hp : p ≤ xs.length)
    (hsame : xs.take p = ys.take p) :
    read (text ++ xs) (List.replicate (xs.length - p) .erase ++ (ys.drop p).map .insert) =
      text ++ ys := by
  have hkept : (text ++ xs).length - (xs.length - p) = text.length + p := by
    rw [List.length_append]
    omega
  rw [read_append, read_erases, read_inserts, hkept, List.take_length_add_append, hsame,
    List.append_assoc, List.take_append_drop]

end Typing
