import Mathlib.Data.List.Basic

/-!
# Kanata.Lib.Replay — values that a log tells

A system that notes what it does can be read off its log: replayed from the first value,
the occurrences give the value that the system has. An occurrence may also say more than
what it does to the value; then it is right for the log before it and for the value that
it finds. `Teller.Tells` is both for one part of a log. The parts of a run join
(`Tells.append`), and a whole log can be taken apart again (`Tells.split`).
-/

namespace Kanata

/-- A log around one of its occurrences. -/
theorem eq_take_cons_drop {O : Type} {log : List O} {i : Nat} {o : O} (h : log[i]? = some o) :
    log = log.take i ++ o :: log.drop (i + 1) := by
  rcases List.getElem?_eq_some_iff.mp h with ⟨hi, rfl⟩
  rw [← List.drop_eq_getElem_cons hi, List.take_append_drop]

/-- What an occurrence makes of a value, and when it is right. -/
structure Teller (O V : Type) where
  next : V → O → V
  right : List O → V → O → Prop

namespace Teller

variable {O V : Type} {t : Teller O V} {past os os' : List O} {v v' v'' : V} {o : O}

/-- The value after some occurrences. -/
def replay (t : Teller O V) (v : V) (os : List O) : V := os.foldl t.next v

/-- After `past`, the occurrences lead from the one value to the other, and each of them is
right. -/
def Tells (t : Teller O V) : List O → V → List O → V → Prop
  | _, v, [], v' => v' = v
  | past, v, o :: os, v' => t.right past v o ∧ t.Tells (past ++ [o]) (t.next v o) os v'

/-- The occurrence says nothing about the value. -/
def Neutral (t : Teller O V) (o : O) : Prop := ∀ past v, t.next v o = v ∧ t.right past v o

namespace Tells

theorem nil (past : List O) (v : V) : t.Tells past v [] v := rfl

theorem one (hright : t.right past v o) (hnext : v' = t.next v o) : t.Tells past v [o] v' :=
  ⟨hright, hnext⟩

theorem append : ∀ {os : List O} {past : List O} {v : V}, t.Tells past v os v' →
    t.Tells (past ++ os) v' os' v'' → t.Tells past v (os ++ os') v''
  | [], past, v, h, h' => by
    cases h
    rwa [List.append_nil] at h'
  | o :: os, past, v, h, h' => by
    refine ⟨h.1, append h.2 ?_⟩
    rwa [List.append_assoc]

/-- Occurrences that say nothing about the value leave it alone. -/
theorem of_neutral : ∀ {os : List O} {past : List O}, (∀ o ∈ os, t.Neutral o) →
    t.Tells past v os v
  | [], _, _ => rfl
  | o :: os, past, h => by
    have ho := h o List.mem_cons_self past v
    refine ⟨ho.2, ?_⟩
    rw [ho.1]
    exact of_neutral fun o' ho' => h o' (List.mem_cons_of_mem _ ho')

theorem eq_replay : ∀ {os : List O} {past : List O} {v : V}, t.Tells past v os v' →
    v' = t.replay v os
  | [], _, _, h => h
  | o :: os, past, v, h => by
    have hrest : v' = t.replay (t.next v o) os := eq_replay h.2
    exact hrest

/-- A log can be taken apart. -/
theorem split : ∀ {os : List O} {past : List O} {v : V}, t.Tells past v (os ++ os') v'' →
    ∃ v', t.Tells past v os v' ∧ t.Tells (past ++ os) v' os' v''
  | [], past, v, h => by
    refine ⟨v, rfl, ?_⟩
    rwa [List.append_nil]
  | o :: os, past, v, h => by
    rcases split h.2 with ⟨v', hfirst, hrest⟩
    rw [List.append_assoc] at hrest
    exact ⟨v', ⟨h.1, hfirst⟩, hrest⟩

/-- The last occurrence. -/
theorem concat {os : List O} (h : t.Tells past v (os ++ [o]) v'') :
    ∃ v', t.Tells past v os v' ∧ t.right (past ++ os) v' o ∧ v'' = t.next v' o := by
  rcases h.split with ⟨v', hfirst, hright, hnext⟩
  exact ⟨v', hfirst, hright, hnext⟩

/-- Each occurrence is right where it stands. -/
theorem right {os : List O} (h : t.Tells past v (os ++ o :: os') v') :
    t.right (past ++ os) (t.replay v os) o := by
  rcases h.split with ⟨v'', hfirst, hrest⟩
  rw [← hfirst.eq_replay]
  exact hrest.1

end Tells

end Teller

end Kanata
