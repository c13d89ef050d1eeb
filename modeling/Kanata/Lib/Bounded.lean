import Mathlib.Data.List.Basic

/-!
# Kanata.Lib.Bounded — sequences of bounded capacity

`Bounded cap α` is a list with the proof that it fits its capacity. It stands for
fixed-capacity vectors, whose `push` fails when full, and for ring buffers, whose
`pushBack` drops the oldest element instead.
-/

/-- A sequence of at most `cap` elements. -/
structure Bounded (cap : Nat) (α : Type) where
  items : List α
  length_le : items.length ≤ cap
deriving DecidableEq, Repr

namespace Bounded

variable {cap : Nat} {α : Type}

@[ext] theorem ext {q r : Bounded cap α} (h : q.items = r.items) : q = r := by
  cases q
  cases r
  cases h
  rfl

def empty : Bounded cap α := ⟨[], Nat.zero_le cap⟩

@[simp] theorem empty_items : (empty : Bounded cap α).items = [] := rfl

def isFull (q : Bounded cap α) : Bool := q.items.length == cap

/-- A push that fails when there is no room. -/
def push (q : Bounded cap α) (x : α) : Option (Bounded cap α) :=
  if h : q.items.length < cap then
    some ⟨q.items ++ [x], by simpa [Nat.succ_le_iff] using h⟩
  else none

/-- A push whose failure is ignored. -/
def pushIgnore (q : Bounded cap α) (x : α) : Bounded cap α := (q.push x).getD q

/-- A push that drops the oldest element when there is no room. -/
def pushBack (q : Bounded cap α) (x : α) : Bounded cap α × Option α :=
  match q.push x with
  | some q' => (q', none)
  | none =>
    match hq : q.items with
    | [] => (q, some x)
    | y :: ys => (⟨ys ++ [x], by simpa [hq] using q.length_le⟩, some y)

/-- `pushBack` of each element of a list in turn. -/
def extend (q : Bounded cap α) (xs : List α) : Bounded cap α :=
  xs.foldl (fun q x => (q.pushBack x).1) q

/-- A push at the front that drops the newest element when there is no room. -/
def pushFront (q : Bounded cap α) (x : α) : Bounded cap α × Option α :=
  if h : q.items.length < cap then
    (⟨x :: q.items, by simpa [Nat.succ_le_iff] using h⟩, none)
  else
    match hq : q.items with
    | [] => (q, some x)
    | y :: ys => (⟨x :: (y :: ys).dropLast, by simpa [hq] using q.length_le⟩, (y :: ys).getLast?)

/-- The oldest element and the rest. -/
def popFront (q : Bounded cap α) : Option α × Bounded cap α :=
  (q.items.head?, ⟨q.items.tail, by
    have := q.length_le
    rw [List.length_tail]
    omega⟩)

/-- The element at an index is taken out. -/
def removeAt (q : Bounded cap α) (i : Nat) : Bounded cap α :=
  ⟨q.items.eraseIdx i, Nat.le_trans (List.length_eraseIdx_le q.items i) q.length_le⟩

/-- Keep the elements that satisfy a predicate. -/
def retain (q : Bounded cap α) (p : α → Bool) : Bounded cap α :=
  ⟨q.items.filter p, Nat.le_trans (List.length_filter_le p q.items) q.length_le⟩

def map (q : Bounded cap α) (f : α → α) : Bounded cap α :=
  ⟨q.items.map f, by simpa using q.length_le⟩

/-- The first `cap` elements of a list. -/
def ofTake (cap : Nat) (xs : List α) : Bounded cap α :=
  ⟨xs.take cap, List.length_take_le cap xs⟩

@[simp] theorem retain_items (q : Bounded cap α) (p : α → Bool) :
    (q.retain p).items = q.items.filter p := rfl

@[simp] theorem map_items (q : Bounded cap α) (f : α → α) :
    (q.map f).items = q.items.map f := rfl

@[simp] theorem ofTake_items (xs : List α) : (ofTake cap xs).items = xs.take cap := rfl

@[simp] theorem popFront_fst (q : Bounded cap α) : q.popFront.1 = q.items.head? := rfl

@[simp] theorem popFront_snd_items (q : Bounded cap α) :
    q.popFront.2.items = q.items.tail := rfl

/-- Nothing is taken from an empty queue. -/
theorem popFront_of_none {q : Bounded cap α} (h : q.items.head? = none) : q.popFront.2 = q := by
  cases q with
  | mk items hle =>
    have hnil : items = [] := List.head?_eq_none_iff.mp h
    subst hnil
    rfl

@[simp] theorem removeAt_items (q : Bounded cap α) (i : Nat) :
    (q.removeAt i).items = q.items.eraseIdx i := rfl

theorem isFull_iff {q : Bounded cap α} : q.isFull = true ↔ q.items.length = cap := by
  simp [isFull]

theorem push_eq_some {q q' : Bounded cap α} {x : α} :
    q.push x = some q' ↔ q.items.length < cap ∧ q'.items = q.items ++ [x] := by
  unfold push
  split
  · rename_i h
    simp only [Option.some.injEq, h, true_and]
    exact ⟨fun heq => heq ▸ rfl, fun heq => ext heq.symm⟩
  · rename_i h
    simp [h]

theorem push_isSome_iff {q : Bounded cap α} {x : α} :
    (q.push x).isSome = true ↔ q.items.length < cap := by
  unfold push
  split <;> simp_all

theorem pushIgnore_items (q : Bounded cap α) (x : α) :
    (q.pushIgnore x).items = (q.items ++ [x]).take cap := by
  have hle := q.length_le
  unfold pushIgnore push
  split
  · rename_i h
    rw [List.take_of_length_le (by simpa [Nat.succ_le_iff] using h)]
    rfl
  · rename_i h
    have hlen : q.items.length = cap := by omega
    simp [hlen]

/-- With room, `pushBack` appends and drops nothing. -/
theorem pushBack_of_lt {q : Bounded cap α} (h : q.items.length < cap) (x : α) :
    (q.pushBack x).1.items = q.items ++ [x] ∧ (q.pushBack x).2 = none := by
  have hpush : ∃ q', q.push x = some q' ∧ q'.items = q.items ++ [x] :=
    ⟨⟨q.items ++ [x], by simpa [Nat.succ_le_iff] using h⟩, push_eq_some.mpr ⟨h, rfl⟩, rfl⟩
  obtain ⟨q', hq', hitems⟩ := hpush
  simp [pushBack, hq', hitems]

theorem pushBack_eq_none {q : Bounded cap α} {x : α} :
    (q.pushBack x).2 = none ↔ q.items.length < cap := by
  constructor
  · intro h
    by_contra hfull
    have hnone : q.push x = none := by
      rw [← Option.not_isSome_iff_eq_none]
      exact fun hs => hfull (push_isSome_iff.mp hs)
    unfold pushBack at h
    rw [hnone] at h
    dsimp only at h
    split at h <;> simp at h
  · exact fun h => (pushBack_of_lt h x).2

/-- A push that drops the oldest element, taken apart. -/
theorem pushBack_cases (hcap : 0 < cap) (q : Bounded cap α) (x : α) :
    (q.pushBack x).1.items = q.items ++ [x] ∧ q.isFull = false ∨
      ∃ y ys, q.items = y :: ys ∧ q.isFull = true ∧ (q.pushBack x).1.items = ys ++ [x] := by
  by_cases hlt : q.items.length < cap
  · left
    refine ⟨(pushBack_of_lt hlt x).1, ?_⟩
    rw [Bool.eq_false_iff, ne_eq, isFull_iff]
    omega
  · right
    have hfull : q.items.length = cap := by
      have := q.length_le
      omega
    have hnone : q.push x = none := by
      rw [← Option.not_isSome_iff_eq_none]
      exact fun hs => hlt (push_isSome_iff.mp hs)
    unfold pushBack
    rw [hnone]
    dsimp only
    split
    · rename_i heq
      rw [heq, List.length_nil] at hfull
      omega
    · rename_i y ys heq
      exact ⟨y, ys, heq, isFull_iff.mpr hfull, rfl⟩

/-- With room for all of them, the elements are appended. -/
theorem extend_items :
    ∀ {xs : List α} {q : Bounded cap α}, q.items.length + xs.length ≤ cap →
      (q.extend xs).items = q.items ++ xs
  | [], q, _ => (List.append_nil q.items).symm
  | x :: xs, q, h => by
    rw [List.length_cons] at h
    have hx := (pushBack_of_lt (q := q) (by omega) x).1
    have hroom : (q.pushBack x).1.items.length + xs.length ≤ cap := by
      rw [hx, List.length_append]
      show q.items.length + 1 + xs.length ≤ cap
      omega
    show ((q.pushBack x).1.extend xs).items = _
    rw [extend_items hroom, hx, List.append_assoc]
    rfl

/-- Nothing is reordered, and only old elements are lost. -/
theorem pushBack_sublist (q : Bounded cap α) (x : α) :
    (q.pushBack x).1.items.Sublist (q.items ++ [x]) := by
  unfold pushBack
  split
  · rename_i q' hq'
    rw [(push_eq_some.mp hq').2]
  · split
    · rename_i heq
      simp [heq]
    · rename_i y ys heq
      have hsub : (ys ++ [x]).Sublist (q.items ++ [x]) := by
        rw [heq]
        exact List.sublist_cons_self y (ys ++ [x])
      exact hsub

/-- What a push drops, what stays and what it was given. -/
theorem pushBack_append (q : Bounded cap α) (x : α) :
    (q.pushBack x).2.toList ++ (q.pushBack x).1.items = q.items ++ [x] := by
  unfold pushBack
  split
  · rename_i q' hq'
    simp [(push_eq_some.mp hq').2]
  · split
    · rename_i heq
      simp [heq]
    · rename_i y ys heq
      simp [heq]

theorem mem_pushIgnore {q : Bounded cap α} {x y : α} (h : y ∈ (q.pushIgnore x).items) :
    y ∈ q.items ∨ y = x := by
  rw [pushIgnore_items] at h
  simpa using List.mem_of_mem_take h

theorem mem_pushBack {q : Bounded cap α} {x y : α} (h : y ∈ (q.pushBack x).1.items) :
    y ∈ q.items ∨ y = x := by
  simpa using (pushBack_sublist q x).subset h

/-- What a push drops was in the queue, or is the new element. -/
theorem mem_of_pushBack_eq_some {q : Bounded cap α} {x y : α} (h : (q.pushBack x).2 = some y) :
    y ∈ q.items ∨ y = x := by
  unfold pushBack at h
  split at h
  · simp at h
  · split at h
    · exact Or.inr (Option.some.inj h).symm
    · rename_i z zs heq
      left
      rw [heq, ← Option.some.inj h]
      exact List.mem_cons_self

/-- With room, `pushFront` prepends and drops nothing. -/
theorem pushFront_of_lt {q : Bounded cap α} (h : q.items.length < cap) (x : α) :
    (q.pushFront x).1.items = x :: q.items ∧ (q.pushFront x).2 = none := by
  simp [pushFront, h]

/-- With no room, `pushFront` drops what is last. -/
theorem pushFront_items (q : Bounded cap α) (x : α) :
    (q.pushFront x).1.items = (x :: q.items).take cap := by
  have hle := q.length_le
  by_cases h : q.items.length < cap
  · rw [(pushFront_of_lt h x).1, List.take_of_length_le (Nat.succ_le_of_lt h)]
  · have hfull : q.items.length = cap := by omega
    unfold pushFront
    rw [dif_neg h]
    split
    · rename_i hq
      have hcap : cap = 0 := by
        rw [← hfull, hq]
        rfl
      show q.items = (x :: q.items).take cap
      rw [hq, hcap]
      rfl
    · rename_i y ys hq
      have hcap : cap = ys.length + 1 := by
        rw [← hfull, hq]
        rfl
      show x :: (y :: ys).dropLast = (x :: q.items).take cap
      rw [hq, hcap, List.take_succ_cons, List.dropLast_eq_take]
      rfl

theorem mem_pushFront {q : Bounded cap α} {x y : α} (h : y ∈ (q.pushFront x).1.items) :
    y ∈ q.items ∨ y = x := by
  unfold pushFront at h
  split at h
  · simpa [or_comm] using h
  · split at h
    · exact Or.inl h
    · rename_i z zs heq
      rcases List.mem_cons.mp h with rfl | h
      · exact Or.inr rfl
      · exact Or.inl (heq ▸ List.dropLast_subset _ h)

theorem mem_ofTake {xs : List α} {y : α} (h : y ∈ (ofTake cap xs).items) : y ∈ xs :=
  List.mem_of_mem_take h

end Bounded
