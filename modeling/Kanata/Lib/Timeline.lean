import Mathlib.Data.List.Basic
import Mathlib.Data.List.Count

/-!
# Kanata.Lib.Timeline — what a log of records and ticks says about ages

A log tells how things are recorded, how they are taken out again and how time
passes. `Dated log es` says that the entries `es`, the latest first, were recorded in
the log and that the age of each is the number of ticks since then. Its rules follow the
log from one operation to the next; nothing is said about how many entries are kept.
-/

namespace Timeline

variable {α : Type}

inductive Op (α : Type) where
  | record (x : α)
  | exclude (x : α)
  | age
deriving DecidableEq, Repr

def Op.isAge : Op α → Bool
  | .age => true
  | _ => false

/-- The ticks in a log. -/
def ages (log : List (Op α)) : Nat := log.countP Op.isAge

structure Entry (α : Type) where
  event : α
  /-- The place in the log where the event was recorded. -/
  time : Nat
  age : Nat
deriving DecidableEq, Repr

def Entry.older (e : Entry α) : Entry α := { e with age := e.age + 1 }

/-- The entry was recorded in the log, and its age is the number of ticks since. -/
structure Entry.Of (log : List (Op α)) (e : Entry α) : Prop where
  recorded : log[e.time]? = some (.record e.event)
  since : e.age = ages (log.drop (e.time + 1))

/-- The latest entry is the first. -/
structure Dated (log : List (Op α)) (es : List (Entry α)) : Prop where
  latest : es.Pairwise fun e e' => e'.time < e.time
  entries : ∀ e ∈ es, e.Of log

section Rules

variable {log : List (Op α)} {es es' : List (Entry α)} {e : Entry α}

theorem ages_append (log log' : List (Op α)) : ages (log ++ log') = ages log + ages log' :=
  List.countP_append

theorem Entry.Of.lt (h : e.Of log) : e.time < log.length :=
  (List.getElem?_eq_some_iff.mp h.recorded).1

/-- What was recorded stays in a log that goes on. -/
theorem Entry.Of.recorded_append (h : e.Of log) (log' : List (Op α)) :
    (log ++ log')[e.time]? = some (.record e.event) := by
  rw [List.getElem?_append_left h.lt]
  exact h.recorded

theorem Entry.Of.since_append (h : e.Of log) (log' : List (Op α)) :
    ages ((log ++ log').drop (e.time + 1)) = e.age + ages log' := by
  rw [List.drop_append_of_le_length h.lt, ages_append, h.since]

theorem Dated.nil : Dated ([] : List (Op α)) [] where
  latest := .nil
  entries e he := by cases he

/-- Entries may be forgotten. -/
theorem Dated.forget (h : Dated log es) (hsub : es'.Sublist es) : Dated log es' where
  latest := h.latest.sublist hsub
  entries e he := h.entries e (hsub.subset he)

/-- An operation that is no tick leaves the ages. -/
theorem Dated.pass (h : Dated log es) {op : Op α} (hop : op.isAge = false) :
    Dated (log ++ [op]) es where
  latest := h.latest
  entries e he := by
    have hof := h.entries e he
    refine ⟨hof.recorded_append [op], ?_⟩
    rw [hof.since_append, ages, List.countP_singleton, hop]
    rfl

theorem Dated.record (h : Dated log es) (x : α) :
    Dated (log ++ [.record x]) (⟨x, log.length, 0⟩ :: es) where
  latest := List.pairwise_cons.mpr ⟨fun e he => (h.entries e he).lt, h.latest⟩
  entries e he := by
    rcases List.mem_cons.mp he with rfl | he
    · -- nothing has happened since
      refine ⟨List.getElem?_concat_length, ?_⟩
      show 0 = ages ((log ++ [Op.record x]).drop (log.length + 1))
      rw [List.drop_of_length_le (by simp)]
      rfl
    · have hpass : Dated (log ++ [.record x]) es := h.pass rfl
      exact hpass.entries e he

theorem Dated.age (h : Dated log es) : Dated (log ++ [.age]) (es.map Entry.older) where
  latest := List.pairwise_map.mpr h.latest
  entries e he := by
    rcases List.mem_map.mp he with ⟨e', he', rfl⟩
    have hof := h.entries e' he'
    refine ⟨hof.recorded_append [.age], ?_⟩
    show e'.age + 1 = _
    rw [show e'.older.time = e'.time from rfl, hof.since_append]
    rfl

/-- The later an entry was recorded, the younger it is. -/
theorem Dated.younger (h : Dated log es) : es.Pairwise fun e e' => e.age ≤ e'.age := by
  refine h.latest.imp_of_mem ?_
  intro e e' he he' hlt
  rw [(h.entries e he).since, (h.entries e' he').since]
  have hdrop : log.drop (e.time + 1) = (log.drop (e'.time + 1)).drop (e.time - e'.time) := by
    rw [List.drop_drop]
    congr 1
    omega
  rw [hdrop]
  exact (List.drop_sublist _ _).countP_le

end Rules

end Timeline
