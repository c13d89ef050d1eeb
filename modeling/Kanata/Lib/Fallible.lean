import Mathlib.Data.List.Basic

/-!
# Kanata.Lib.Fallible — computations that may fail

Inversion of `Except` computations: from the success of a composed computation
to the success of its parts, so that a proof peels a `do` block apart with
`obtain` and never unfolds the monad. Folds are inverted once, by the invariant
rule `foldlM_invariant`.

`Ensures x Q E` speaks of failures as well: a value satisfies `Q` and an error
satisfies `E`. Its rules follow the construction of the computation.
-/

namespace Fallible

variable {ε α β σ : Type}

theorem bind_eq_ok {x : Except ε α} {f : α → Except ε β} {b : β} :
    (x >>= f) = .ok b ↔ ∃ a, x = .ok a ∧ f a = .ok b := by
  cases x <;> simp [bind, Except.bind]

theorem pure_eq_ok {a b : α} : (pure a : Except ε α) = .ok b ↔ a = b := by
  simp [pure, Except.pure]

@[simp] theorem ok_bind (a : α) (f : α → Except ε β) : (Except.ok a >>= f) = f a := rfl

@[simp] theorem error_bind (e : ε) (f : α → Except ε β) :
    (Except.error e >>= f) = Except.error e := rfl

/-- What is done with a value without failing does not change whether there is one. -/
theorem exists_bind_pure_eq_ok {x : Except ε α} {f : α → β} :
    (∃ b, (x >>= fun a => pure (f a)) = .ok b) ↔ ∃ a, x = .ok a := by
  simp only [bind_eq_ok, pure_eq_ok]
  constructor
  · rintro ⟨_, a, ha, _⟩
    exact ⟨a, ha⟩
  · rintro ⟨a, ha⟩
    exact ⟨f a, a, ha, rfl⟩

theorem toOption_bind (x : Except ε α) (f : α → Except ε β) :
    (x >>= f).toOption = x.toOption >>= fun a => (f a).toOption := by
  cases x <;> rfl

theorem toOption_foldlM (f : σ → α → Except ε σ) (xs : List α) (s : σ) :
    (xs.foldlM f s).toOption = xs.foldlM (fun s x => (f s x).toOption) s := by
  induction xs generalizing s with
  | nil => rfl
  | cons x xs ih =>
    rw [List.foldlM_cons, List.foldlM_cons, toOption_bind]
    simp only [ih]

theorem toOption_eq_some_iff {x : Except ε α} {a : α} : x.toOption = some a ↔ x = .ok a := by
  cases x <;> simp [Except.toOption]

/-- A computation that is run and seen to succeed. -/
theorem exists_ok_of_isOk {x : Except ε α} (h : x.isOk = true) : ∃ a, x = .ok a := by
  cases x with
  | error e => cases h
  | ok a => exact ⟨a, rfl⟩

/-- As `exists_ok_of_isOk`, with a decidable property of the value. -/
theorem exists_ok_of_check {x : Except ε α} {P : α → Prop} [DecidablePred P]
    (h : (x.toOption.any fun a => decide (P a)) = true) : ∃ a, x = .ok a ∧ P a := by
  cases x with
  | error e => cases h
  | ok a => exact ⟨a, rfl, of_decide_eq_true h⟩

/-- Continuations that agree on the value agree. -/
theorem bind_congr_ok {x : Except ε α} {f g : α → Except ε β}
    (h : ∀ a, x = .ok a → f a = g a) : (x >>= f) = (x >>= g) := by
  cases x with
  | error e => rfl
  | ok a => exact h a rfl

/-- What every successful step preserves, the fold preserves. The invariant
sees the part of the list already consumed. -/
theorem foldlM_invariant {f : σ → α → Except ε σ} (Inv : List α → σ → Prop) :
    ∀ {xs done : List α} {s s' : σ}, Inv done s →
      (∀ x done s s', Inv done s → f s x = .ok s' → Inv (done ++ [x]) s') →
      xs.foldlM f s = .ok s' → Inv (done ++ xs) s'
  | [], done, s, s', h0, _, h => by
    rw [List.foldlM_nil, pure_eq_ok] at h
    subst h
    simpa using h0
  | x :: xs, done, s, s', h0, hstep, h => by
    rw [List.foldlM_cons, bind_eq_ok] at h
    obtain ⟨s₁, h₁, h⟩ := h
    have := foldlM_invariant Inv (hstep x done s s₁ h0 h₁) hstep h
    simpa using this

/-- The results of a map, one for each element. -/
theorem mapM_forall₂ {f : α → Except ε β} :
    ∀ {xs : List α} {ys : List β}, xs.mapM f = .ok ys →
      List.Forall₂ (fun x y => f x = .ok y) xs ys
  | [], ys, h => by
    rw [List.mapM_nil, pure_eq_ok] at h
    subst h
    exact .nil
  | x :: xs, ys, h => by
    rw [List.mapM_cons] at h
    simp only [bind_eq_ok, pure_eq_ok] at h
    obtain ⟨y, hy, rest, hrest, rfl⟩ := h
    exact .cons hy (mapM_forall₂ hrest)

theorem exists_of_mem_mapM {f : α → Except ε β} {xs : List α} {ys : List β} {x : α}
    (h : xs.mapM f = .ok ys) (hx : x ∈ xs) : ∃ y ∈ ys, f x = .ok y := by
  have hall := mapM_forall₂ h
  clear h
  induction hall with
  | nil => cases hx
  | cons hfirst _ ih =>
    rcases List.mem_cons.mp hx with rfl | hx
    · exact ⟨_, List.mem_cons_self, hfirst⟩
    · rcases ih hx with ⟨y, hy, hxy⟩
      exact ⟨y, List.mem_cons_of_mem _ hy, hxy⟩

theorem exists_mapM {f : α → Except ε β} : ∀ {xs : List α}, (∀ x ∈ xs, ∃ y, f x = .ok y) →
    ∃ ys, xs.mapM f = .ok ys
  | [], _ => ⟨[], rfl⟩
  | x :: xs, h => by
    rcases h x List.mem_cons_self with ⟨y, hy⟩
    rcases exists_mapM fun x' hx' => h x' (List.mem_cons_of_mem x hx') with ⟨ys, hys⟩
    refine ⟨y :: ys, ?_⟩
    rw [List.mapM_cons, hy, ok_bind, hys]
    rfl

/-- The values of a partial map that has one everywhere. -/
theorem forall₂_filterMap {f : α → Option β} : ∀ {xs : List α},
    (∀ x ∈ xs, ∃ y, f x = some y) → List.Forall₂ (fun x y => f x = some y) xs (xs.filterMap f)
  | [], _ => .nil
  | x :: xs, h => by
    rcases h x List.mem_cons_self with ⟨y, hy⟩
    rw [List.filterMap_cons_some hy]
    exact .cons hy (forall₂_filterMap fun x' hx' => h x' (List.mem_cons_of_mem x hx'))

/-! ## Values and errors -/

/-- A value satisfies `Q`, an error satisfies `E`. -/
def Ensures (x : Except ε α) (Q : α → Prop) (E : ε → Prop) : Prop :=
  match x with
  | .ok a => Q a
  | .error e => E e

section Ensures

variable {Q Q' : α → Prop} {P : β → Prop} {E E' : ε → Prop} {x : Except ε α}

@[simp] theorem ensures_ok {a : α} : Ensures (.ok a : Except ε α) Q E ↔ Q a := Iff.rfl

@[simp] theorem ensures_pure {a : α} : Ensures (pure a : Except ε α) Q E ↔ Q a := Iff.rfl

@[simp] theorem ensures_error {e : ε} : Ensures (.error e : Except ε α) Q E ↔ E e := Iff.rfl

theorem Ensures.of_ok (h : Ensures x Q E) {a : α} (ha : x = .ok a) : Q a := by
  subst ha
  exact h

theorem Ensures.of_error (h : Ensures x Q E) {e : ε} (he : x = .error e) : E e := by
  subst he
  exact h

/-- Whatever is returned satisfies `Q`, when nothing is asked of errors. -/
theorem ensures_iff_of_ok : Ensures x Q (fun _ => True) ↔ ∀ a, x = .ok a → Q a := by
  cases x <;> simp [Ensures]

theorem Ensures.mono (h : Ensures x Q E) (hQ : ∀ a, Q a → Q' a) (hE : ∀ e, E e → E' e) :
    Ensures x Q' E' := by
  cases x with
  | ok a => exact hQ a h
  | error e => exact hE e h

/-- As `mono`, with the value at hand. -/
theorem Ensures.mono_ok (h : Ensures x Q E) (hQ : ∀ a, x = .ok a → Q a → Q' a)
    (hE : ∀ e, E e → E' e) : Ensures x Q' E' := by
  cases x with
  | ok a => exact hQ a rfl h
  | error e => exact hE e h

/-- What holds of the value may be proved with the value at hand. -/
theorem Ensures.of_ok_imp (h : Ensures x (fun a => x = .ok a → Q a) E) : Ensures x Q E :=
  h.mono_ok (fun _ heq hQ => hQ heq) fun _ he => he

/-- If no element fails but as allowed, neither does the whole list. -/
theorem Ensures.mapM {f : α → Except ε β} : ∀ {xs : List α},
    (∀ x, Ensures (f x) (fun _ => True) E) → Ensures (xs.mapM f) (fun _ => True) E
  | [], _ => trivial
  | x :: xs, h => by
    have hfirst := h x
    have hrest := @Ensures.mapM f xs h
    rw [List.mapM_cons]
    generalize f x = y at hfirst ⊢
    generalize xs.mapM f = ys at hrest ⊢
    cases y with
    | error e => exact hfirst
    | ok b =>
      cases ys with
      | error e => exact hrest
      | ok bs => trivial

theorem Ensures.bind {f : α → Except ε β} (h : Ensures x (fun a => Ensures (f a) P E) E) :
    Ensures (x >>= f) P E := by
  cases x with
  | ok a => exact h
  | error e => exact h

/-- The rule of sequence: what the first part gives is enough for the second. -/
theorem Ensures.andThen {f : α → Except ε β} (hx : Ensures x Q E)
    (hf : ∀ a, Q a → Ensures (f a) P E) : Ensures (x >>= f) P E :=
  .bind (hx.mono hf fun _ he => he)

/-- A loop fails only as one of its rounds may fail. -/
theorem Ensures.foldlM {f : σ → α → Except ε σ} : ∀ {xs : List α},
    (∀ x ∈ xs, ∀ s, Ensures (f s x) (fun _ => True) E) →
      ∀ s, Ensures (xs.foldlM f s) (fun _ => True) E
  | [], _, _ => trivial
  | x :: xs, h, s => by
    rw [List.foldlM_cons]
    have hrest := Ensures.foldlM fun y hy => h y (List.mem_cons_of_mem x hy)
    exact (h x List.mem_cons_self s).andThen fun s' _ => hrest s'

end Ensures

end Fallible
