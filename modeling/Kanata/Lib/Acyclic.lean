import Mathlib.Data.Fintype.EquivFin
import Mathlib.Data.Set.Finite.Basic
import Mathlib.Order.WellFounded
import Mathlib.Logic.Relation

/-!
# Kanata.Lib.Acyclic — references without loops

A relation whose sources all lie in one list either has a loop or can be followed
only finitely often.
-/

namespace Acyclic

variable {α : Type} {r : α → α → Prop}

/-- Nothing is related to itself over one or more steps. -/
def Loopless (r : α → α → Prop) : Prop := ∀ a, ¬ Relation.TransGen r a a

/-- On the sources, a relation without loops is well founded. -/
theorem wellFounded_sources (nodes : List α) (h : Loopless r) :
    WellFounded fun a b : { a // a ∈ nodes } => r b.1 a.1 := by
  have htrans : ∀ a b : { a // a ∈ nodes },
      Relation.TransGen (fun a b : { a // a ∈ nodes } => r b.1 a.1) a b →
        Relation.TransGen r b.1 a.1 := by
    intro a b hab
    induction hab with
    | single hab => exact .single hab
    | tail _ hbc ih => exact .head hbc ih
  have : Std.Irrefl (Relation.TransGen fun a b : { a // a ∈ nodes } => r b.1 a.1) :=
    ⟨fun a haa => h a.1 (htrans a a haa)⟩
  have : Finite { a // a ∈ nodes } := List.finite_toSet nodes
  have hwf := Finite.wellFounded_of_trans_of_irrefl
    (Relation.TransGen fun a b : { a // a ∈ nodes } => r b.1 a.1)
  exact Subrelation.wf
    (r := Relation.TransGen fun a b : { a // a ∈ nodes } => r b.1 a.1)
    (fun {_ _} hab => .single hab) hwf

/-- Without loops, the relation can be followed only finitely often. -/
theorem wellFounded_of_loopless (nodes : List α) (h : Loopless r)
    (hnodes : ∀ a b, r a b → a ∈ nodes) : WellFounded fun a b => r b a := by
  constructor
  have hsource : ∀ a : { a // a ∈ nodes }, Acc (fun a b => r b a) a.1 := by
    intro a
    induction a using (wellFounded_sources nodes h).induction with
    | _ a ih =>
      constructor
      intro b hb
      by_cases hmem : b ∈ nodes
      · exact ih ⟨b, hmem⟩ hb
      · constructor
        intro c hc
        exact absurd (hnodes b c hc) hmem
  intro a
  constructor
  intro b hb
  by_cases hmem : b ∈ nodes
  · exact hsource ⟨b, hmem⟩
  · constructor
    intro c hc
    exact absurd (hnodes b c hc) hmem

/-- What can be followed only finitely often has no loop. -/
theorem loopless_of_acc {a : α} (h : Acc (fun a b => r b a) a) : ¬ Relation.TransGen r a a := by
  have hacc : Acc (Relation.TransGen fun a b => r b a) a := h.transGen
  intro hloop
  have hswap : Relation.TransGen (fun a b => r b a) a a := Relation.transGen_swap.mpr hloop
  induction hacc with
  | intro a _ ih => exact ih a hswap (h.inv_of_transGen hswap) hloop hswap

end Acyclic
