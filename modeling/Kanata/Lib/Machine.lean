import Kanata.Lib.Fallible

/-!
# Kanata.Lib.Machine — runs of deterministic fallible machines

A machine is a step function that takes an input in a state and either fails or
gives an output and the next state.

* `run`: the outputs of a sequence of inputs;
* `Along`: every step of a run meets a condition on the state before it and its
  input;
* the rules that carry a fact about one step to whole runs: `run_history`,
  `run_invariant`, `along_of_invariant` and `run_ok_iff` for one machine,
  `run_eq_of_simulation` for two.
-/

namespace Machine

open Fallible

variable {σ τ ι ω ε : Type}

/-- The outputs of a run and its last state. -/
def run (step : σ → ι → Except ε (σ × ω)) : σ → List ι → Except ε (σ × List ω)
  | s, [] => pure (s, [])
  | s, i :: is => do
    let (s', o) ← step s i
    let (s'', os) ← run step s' is
    pure (s'', o :: os)

/-- The run does not fail, and its end passes a check. -/
def endsWith (step : σ → ι → Except ε (σ × ω)) (check : σ → List ω → Bool) (s : σ)
    (is : List ι) : Bool :=
  match run step s is with
  | .ok (s', os) => check s' os
  | .error _ => false

/-- Every step of the run from `s` meets `P`. -/
def Along (step : σ → ι → Except ε (σ × ω)) (P : σ → ι → Prop) : σ → List ι → Prop
  | _, [] => True
  | s, i :: is => P s i ∧
    match step s i with
    | .ok (s', _) => Along step P s' is
    | .error _ => True

instance decidableAlong (step : σ → ι → Except ε (σ × ω)) (P : σ → ι → Prop)
    [∀ s i, Decidable (P s i)] : ∀ s is, Decidable (Along step P s is)
  | _, [] => .isTrue trivial
  | s, i :: is =>
    have : Decidable (match step s i with
        | .ok (s', _) => Along step P s' is
        | .error _ => True) :=
      match step s i with
      | .ok (s', _) => decidableAlong step P s' is
      | .error _ => .isTrue trivial
    inferInstanceAs (Decidable (_ ∧ _))

section OneMachine

variable {step : σ → ι → Except ε (σ × ω)}

theorem run_cons_eq_ok {s s'' : σ} {i : ι} {is : List ι} {os : List ω} :
    run step s (i :: is) = .ok (s'', os) ↔
      ∃ s' o os', step s i = .ok (s', o) ∧ run step s' is = .ok (s'', os') ∧ os = o :: os' := by
  simp only [run, bind_eq_ok, pure_eq_ok]
  constructor
  · rintro ⟨⟨s', o⟩, h, ⟨s₂, os'⟩, h', heq⟩
    cases heq
    exact ⟨s', o, os', h, h', rfl⟩
  · rintro ⟨s', o, os', h, h', rfl⟩
    exact ⟨(s', o), h, (s'', os'), h', rfl⟩

theorem run_append_eq_ok {s s'' : σ} {is js : List ι} {os : List ω} :
    run step s (is ++ js) = .ok (s'', os) ↔
      ∃ s' os₁ os₂, run step s is = .ok (s', os₁) ∧ run step s' js = .ok (s'', os₂) ∧
        os = os₁ ++ os₂ := by
  induction is generalizing s os with
  | nil =>
    rw [List.nil_append]
    constructor
    · exact fun h => ⟨s, [], os, rfl, h, rfl⟩
    · rintro ⟨s', os₁, os₂, h₁, h₂, rfl⟩
      cases h₁
      exact h₂
  | cons i is ih =>
    rw [List.cons_append, run_cons_eq_ok]
    constructor
    · rintro ⟨s₁, o, os', h₁, h₂, rfl⟩
      rcases ih.mp h₂ with ⟨s', os₁, os₂, h₃, h₄, rfl⟩
      exact ⟨s', o :: os₁, os₂, run_cons_eq_ok.mpr ⟨s₁, o, os₁, h₁, h₃, rfl⟩, h₄, rfl⟩
    · rintro ⟨s', os₁, os₂, h₁, h₂, rfl⟩
      rcases run_cons_eq_ok.mp h₁ with ⟨s₁, o, os', h₃, h₄, rfl⟩
      exact ⟨s₁, o, os' ++ os₂, h₃, ih.mpr ⟨s', os', os₂, h₄, h₂, rfl⟩, rfl⟩

theorem Along.tail {P : σ → ι → Prop} {s s' : σ} {i : ι} {is : List ι} {o : ω}
    (h : Along step P s (i :: is)) (hstep : step s i = .ok (s', o)) : Along step P s' is := by
  have := h.2
  rwa [hstep] at this

theorem Along.mono {P Q : σ → ι → Prop} (hPQ : ∀ s i, P s i → Q s i) :
    ∀ {is : List ι} {s : σ}, Along step P s is → Along step Q s is
  | [], _, _ => trivial
  | i :: is, s, h => by
    refine ⟨hPQ s i h.1, ?_⟩
    rcases hstep : step s i with e | ⟨s', o⟩
    · trivial
    · exact (h.tail hstep).mono hPQ

theorem along_trivial : ∀ (is : List ι) (s : σ), Along step (fun _ _ => True) s is
  | [], _ => trivial
  | i :: is, s => by
    refine ⟨trivial, ?_⟩
    rcases step s i with e | ⟨s', o⟩
    · trivial
    · exact along_trivial is s'

/-- A condition on the inputs alone. -/
theorem along_of_forall {Q : ι → Prop} :
    ∀ {is : List ι}, (∀ i ∈ is, Q i) → ∀ s : σ, Along step (fun _ i => Q i) s is
  | [], _, _ => trivial
  | i :: is, h, s => by
    refine ⟨h i List.mem_cons_self, ?_⟩
    rcases step s i with e | ⟨s', o⟩
    · trivial
    · exact along_of_forall (fun i' hi' => h i' (List.mem_cons_of_mem _ hi')) s'

/-- A run whose end passes a check has an end. -/
theorem of_endsWith {check : σ → List ω → Bool} {s : σ} {is : List ι}
    (h : endsWith step check s is = true) :
    ∃ s' os, run step s is = .ok (s', os) ∧ check s' os = true := by
  unfold endsWith at h
  cases hrun : run step s is with
  | error e =>
    rw [hrun] at h
    cases h
  | ok r =>
    rw [hrun] at h
    exact ⟨r.1, r.2, rfl, h⟩

/-- As `of_endsWith`, with a decidable property of the last state. -/
theorem of_endsWith_decide {P : σ → Prop} [DecidablePred P] {s : σ} {is : List ι}
    (h : endsWith step (fun s _ => decide (P s)) s is = true) :
    ∃ s' os, run step s is = .ok (s', os) ∧ P s' := by
  rcases of_endsWith h with ⟨s', os, hrun, hcheck⟩
  exact ⟨s', os, hrun, of_decide_eq_true hcheck⟩

/-- An invariant that also sees the outputs so far. -/
theorem run_history {P : σ → ι → Prop} {Inv : List ω → σ → Prop}
    (hstep : ∀ done s i s' o, Inv done s → P s i → step s i = .ok (s', o) →
      Inv (done ++ [o]) s') :
    ∀ {is : List ι} {done : List ω} {s s' : σ} {os : List ω}, Inv done s → Along step P s is →
      run step s is = .ok (s', os) → Inv (done ++ os) s'
  | [], done, s, s', os, hs, _, h => by
    simp only [run, pure_eq_ok, Prod.mk.injEq] at h
    rcases h with ⟨rfl, rfl⟩
    simpa using hs
  | i :: is, done, s, s', os, hs, hP, h => by
    rcases run_cons_eq_ok.mp h with ⟨s₁, o, os', h₁, h₂, rfl⟩
    have := run_history hstep (hstep done s i s₁ o hs hP.1 h₁) (hP.tail h₁) h₂
    simpa using this

/-- An invariant of every step that meets `P` holds after every run along `P`. -/
theorem run_invariant {P : σ → ι → Prop} {Inv : σ → Prop}
    (hstep : ∀ s i s' o, Inv s → P s i → step s i = .ok (s', o) → Inv s')
    {is : List ι} {s s' : σ} {os : List ω} (hs : Inv s) (hP : Along step P s is)
    (h : run step s is = .ok (s', os)) : Inv s' :=
  @run_history _ _ _ _ step P (fun _ s => Inv s) (fun _ => hstep) is [] s s' os hs hP h

/-- If every step from the invariant keeps it or fails as allowed, so does a run. -/
theorem run_ensures {P : σ → ι → Prop} {Inv : σ → Prop} {E : ε → Prop}
    (hstep : ∀ s i, Inv s → P s i → Ensures (step s i) (fun r => Inv r.1) E) :
    ∀ {is : List ι} {s : σ}, Inv s → Along step P s is →
      Ensures (run step s is) (fun r => Inv r.1) E
  | [], _, hs, _ => hs
  | i :: is, s, hs, hP => by
    unfold run
    refine Ensures.bind ((hstep s i hs hP.1).mono_ok ?_ fun _ hp => hp)
    rintro ⟨s', o⟩ h hs'
    refine Ensures.bind ((run_ensures hstep hs' (hP.tail h)).mono ?_ fun _ hp => hp)
    exact fun _ hs'' => hs''

/-- With an invariant, every step of a run along `P` meets what follows from
both. -/
theorem along_of_invariant {P Q : σ → ι → Prop} {Inv : σ → Prop}
    (hstep : ∀ s i s' o, Inv s → P s i → step s i = .ok (s', o) → Inv s')
    (hQ : ∀ s i, Inv s → P s i → Q s i) :
    ∀ {is : List ι} {s : σ}, Inv s → Along step P s is → Along step Q s is
  | [], _, _, _ => trivial
  | i :: is, s, hs, hP => by
    refine ⟨hQ s i hs hP.1, ?_⟩
    rcases h : step s i with e | ⟨s', o⟩
    · trivial
    · exact along_of_invariant hstep hQ (hstep s i s' o hs hP.1 h) (hP.tail h)

/-- A fact about the end of a run that goes back over each step shows what it says
about the step all along the run. -/
theorem along_of_end {P : σ → ι → Prop} {Inv Q : σ → Prop}
    (hstep : ∀ s i s' o, Inv s → step s i = .ok (s', o) → Inv s')
    (hback : ∀ s i s' o, Inv s → step s i = .ok (s', o) → Q s' → P s i ∧ Q s) :
    ∀ {is : List ι} {s s' : σ} {os : List ω}, Inv s → run step s is = .ok (s', os) → Q s' →
      Along step P s is ∧ Q s
  | [], s, s', os, _, h, hQ => by
    simp only [run, pure_eq_ok, Prod.mk.injEq] at h
    rcases h with ⟨rfl, rfl⟩
    exact ⟨trivial, hQ⟩
  | i :: is, s, s', os, hs, h, hQ => by
    rcases run_cons_eq_ok.mp h with ⟨s₁, o, os', h₁, h₂, rfl⟩
    have hrest := along_of_end hstep hback (hstep s i s₁ o hs h₁) h₂ hQ
    have hfirst := hback s i s₁ o hs h₁ hrest.2
    refine ⟨⟨hfirst.1, ?_⟩, hfirst.2⟩
    rw [h₁]
    exact hrest.1

/-- If `P` says exactly when a step from the invariant does not fail, a run does
not fail exactly when it is along `P`. -/
theorem run_ok_iff {P : σ → ι → Prop} {Inv : σ → Prop}
    (hstep : ∀ s i s' o, Inv s → step s i = .ok (s', o) → Inv s')
    (hP : ∀ s i, Inv s → ((∃ r, step s i = .ok r) ↔ P s i)) :
    ∀ {is : List ι} {s : σ}, Inv s → ((∃ r, run step s is = .ok r) ↔ Along step P s is)
  | [], s, _ => ⟨fun _ => trivial, fun _ => ⟨(s, []), rfl⟩⟩
  | i :: is, s, hs => by
    constructor
    · rintro ⟨⟨s', os⟩, h⟩
      rcases run_cons_eq_ok.mp h with ⟨s₁, o, os', h₁, h₂, _⟩
      refine ⟨(hP s i hs).mp ⟨(s₁, o), h₁⟩, ?_⟩
      rw [h₁]
      exact (run_ok_iff hstep hP (hstep s i s₁ o hs h₁)).mp ⟨(s', os'), h₂⟩
    · intro h
      rcases (hP s i hs).mpr h.1 with ⟨⟨s₁, o⟩, h₁⟩
      rcases (run_ok_iff hstep hP (hstep s i s₁ o hs h₁)).mpr (h.tail h₁) with ⟨⟨s', os'⟩, h₂⟩
      exact ⟨(s', o :: os'), run_cons_eq_ok.mpr ⟨s₁, o, os', h₁, h₂, rfl⟩⟩

end OneMachine

/-- Two steps agree: both fail alike, or both give the same output and related
states. -/
inductive Agree (R : σ → τ → Prop) : Except ε (σ × ω) → Except ε (τ × ω) → Prop where
  | fail (e : ε) : Agree R (.error e) (.error e)
  | step {s : σ} {t : τ} (o : ω) (h : R s t) : Agree R (.ok (s, o)) (.ok (t, o))

/-- Machines whose steps agree from related states have the same outputs on
every run along `P`. -/
theorem run_eq_of_simulation {step : σ → ι → Except ε (σ × ω)}
    {step' : τ → ι → Except ε (τ × ω)} {P : σ → ι → Prop} {R : σ → τ → Prop}
    (hstep : ∀ s t i, R s t → P s i → Agree R (step s i) (step' t i)) :
    ∀ {is : List ι} {s : σ} {t : τ}, R s t → Along step P s is →
      (run step s is).map Prod.snd = (run step' t is).map Prod.snd
  | [], s, t, _, _ => rfl
  | i :: is, s, t, hR, hP => by
    have hagree := hstep s t i hR hP.1
    simp only [run]
    generalize hs : step s i = r at hagree
    generalize step' t i = r' at hagree
    cases hagree with
    | fail e => rfl
    | step o h =>
      have ih := run_eq_of_simulation hstep h (hP.tail hs)
      simp only [ok_bind]
      generalize run step _ is = a at ih ⊢
      generalize run step' _ is = b at ih ⊢
      rcases a with e | ⟨s₁, os⟩ <;> rcases b with e' | ⟨t₁, os'⟩ <;>
        simp_all [Except.map, pure, Except.pure]

end Machine
