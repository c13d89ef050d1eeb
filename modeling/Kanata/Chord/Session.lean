import Kanata.Chord.Tick
import Kanata.Lib.Machine

/-!
# Kanata.Chord.Session — runs of chords v2

The three ways in which the layout uses chords v2 are the inputs of a machine:
an event is pushed, a tick passes with some layer active, an action is asked for.
Events are numbered as they arrive.

`Ordered` is the invariant of all runs: the queue holds its events in order of
arrival, hence in order of age.
-/

namespace Kanata.Chord

open Fallible ChordsV2 Machine

variable {A : Type}

inductive Op where
  | push (event : Event)
  | tick (activeLayer : Nat)
  | getAction
deriving DecidableEq, Repr

inductive Out (A : Type) where
  /-- The event that the push drove out of a full queue. -/
  | pushed (overflow : Option Queued)
  | ticked (q : SmolQueue)
  | action (a : ChordsV2.QueuedAction A)
deriving DecidableEq, Repr

structure Session (A : Type) where
  chv2 : ChordsV2 A
  /-- History variable: the events that have arrived. -/
  arrived : List Event
deriving DecidableEq, Repr

namespace Session

def new : Session A := ⟨.new, []⟩

/-- The machine, for some `tick_chv2`. -/
def stepWith (tick : Nat → ChordsV2 A → Rust (ChordsV2 A × SmolQueue)) (s : Session A) :
    Op → Rust (Session A × Out A)
  | .push event =>
    let pushed := s.chv2.pushBackChv2 ⟨event, 0, some s.arrived.length⟩
    pure (⟨pushed.1, s.arrived ++ [event]⟩, .pushed pushed.2)
  | .tick activeLayer => do
    let (chv2, q) ← tick activeLayer s.chv2
    pure ({ s with chv2 }, .ticked q)
  | .getAction =>
    let found := s.chv2.getActionChv2
    pure ({ s with chv2 := found.1 }, .action found.2)

def step (cfg : ChordsConfig A) : Session A → Op → Rust (Session A × Out A) :=
  stepWith (tickChv2 cfg)

end Session

open Session

theorem step_tick_eq_ok {cfg : ChordsConfig A} {s s' : Session A} {activeLayer : Nat}
    {o : Out A} :
    step cfg s (.tick activeLayer) = .ok (s', o) ↔
      ∃ chv2 q, tickChv2 cfg activeLayer s.chv2 = .ok (chv2, q) ∧ s' = { s with chv2 } ∧
        o = .ticked q := by
  simp only [step, stepWith, bind_eq_ok, pure_eq_ok, Prod.mk.injEq, Prod.exists]
  constructor
  · rintro ⟨chv2, q, h, rfl, rfl⟩
    exact ⟨chv2, q, h, rfl, rfl⟩
  · rintro ⟨chv2, q, h, rfl, rfl⟩
    exact ⟨chv2, q, h, rfl, rfl⟩

/-! ## Order of arrival -/

/-- The numbers of the arrivals among some events. -/
def arrivalsOf (qds : List Queued) : List Nat := qds.filterMap (·.origin)

@[simp] theorem arrivalsOf_nil : arrivalsOf [] = [] := rfl

@[simp] theorem arrivalsOf_append (qds qds' : List Queued) :
    arrivalsOf (qds ++ qds') = arrivalsOf qds ++ arrivalsOf qds' :=
  List.filterMap_append

@[simp] theorem arrivalsOf_map_tickQd (qds : List Queued) :
    arrivalsOf (qds.map Queued.tickQd) = arrivalsOf qds := by
  simp [arrivalsOf, List.filterMap_map, Function.comp_def]

/-- A queue after the given arrivals. -/
structure QueueOrdered (arrived : List Event) (queue : List Queued) : Prop where
  aged : Aged queue
  sorted : (arrivalsOf queue ++ [arrived.length]).Pairwise (· < ·)
  numbered : ∀ qd ∈ queue, ∃ n, qd.origin = some n ∧ arrived[n]? = some qd.event

def Session.Ordered (s : Session A) : Prop := QueueOrdered s.arrived s.chv2.queue.items

theorem Aged.tick {queue : List Queued} (h : Aged queue) : Aged (queue.map Queued.tickQd) :=
  List.pairwise_map.mpr (h.imp fun hab => satAdd_mono hab 1)

theorem QueueOrdered.sublist {arrived : List Event} {queue queue' : List Queued}
    (h : QueueOrdered arrived queue) (hsub : queue'.Sublist queue) :
    QueueOrdered arrived queue' :=
  ⟨h.aged.sublist hsub,
    h.sorted.sublist ((hsub.filterMap _).append (List.Sublist.refl _)),
    fun qd hqd => h.numbered qd (hsub.subset hqd)⟩

theorem QueueOrdered.tick {arrived : List Event} {queue : List Queued}
    (h : QueueOrdered arrived queue) : QueueOrdered arrived (queue.map Queued.tickQd) := by
  refine ⟨h.aged.tick, by simpa using h.sorted, ?_⟩
  intro qd hqd
  rcases List.mem_map.mp hqd with ⟨qd', hqd', rfl⟩
  exact h.numbered qd' hqd'

/-- An arriving event is younger than all that wait and has a greater number. -/
theorem QueueOrdered.push {arrived : List Event} {queue : List Queued}
    (h : QueueOrdered arrived queue) (event : Event) :
    QueueOrdered (arrived ++ [event]) (queue ++ [⟨event, 0, some arrived.length⟩]) := by
  refine ⟨?_, ?_, ?_⟩
  · refine List.pairwise_append.mpr ⟨h.aged, List.pairwise_singleton _ _, ?_⟩
    intro a _ b hb
    rw [List.mem_singleton.mp hb]
    exact Nat.zero_le _
  · have hnum : arrivalsOf (queue ++ [⟨event, 0, some arrived.length⟩]) =
        arrivalsOf queue ++ [arrived.length] := by
      simp [arrivalsOf]
    rw [hnum, List.length_append, List.length_singleton]
    refine List.pairwise_append.mpr ⟨h.sorted, List.pairwise_singleton _ _, ?_⟩
    intro a ha b hb
    rw [List.mem_singleton.mp hb]
    rcases List.mem_append.mp ha with ha | ha
    · have := (List.pairwise_append.mp h.sorted).2.2 a ha arrived.length (by simp)
      omega
    · rw [List.mem_singleton.mp ha]
      omega
  · intro qd hqd
    rcases List.mem_append.mp hqd with hqd | hqd
    · rcases h.numbered qd hqd with ⟨n, hn, hev⟩
      have hlt : n < arrived.length := (List.getElem?_eq_some_iff.mp hev).1
      exact ⟨n, hn, by rw [List.getElem?_append_left hlt, hev]⟩
    · rw [List.mem_singleton.mp hqd]
      exact ⟨arrived.length, rfl, by simp⟩

theorem QueueOrdered.lt {arrived : List Event} {queue : List Queued}
    (h : QueueOrdered arrived queue) : ∀ m ∈ arrivalsOf queue, m < arrived.length :=
  fun m hm => (List.pairwise_append.mp h.sorted).2.2 m hm _ (by simp)

theorem QueueOrdered.nodup {arrived : List Event} {queue : List Queued}
    (h : QueueOrdered arrived queue) : (arrivalsOf queue).Nodup :=
  (List.pairwise_append.mp h.sorted).1.imp Nat.ne_of_lt

/-- Events of a queue with the same number are the same event. -/
theorem QueueOrdered.eq_of_origin {arrived : List Event} {queue : List Queued}
    (h : QueueOrdered arrived queue) {qd qd' : Queued} (hqd : qd ∈ queue) (hqd' : qd' ∈ queue)
    (heq : qd.origin = qd'.origin) : qd = qd' := by
  have hnodup := h.nodup
  have hnum := h.numbered
  clear h
  induction queue with
  | nil => simp at hqd
  | cons a as ih =>
    rcases hnum a List.mem_cons_self with ⟨m, hm, _⟩
    have hcons : arrivalsOf (a :: as) = m :: arrivalsOf as := by simp [arrivalsOf, hm]
    rw [hcons, List.nodup_cons] at hnodup
    have hfresh : ∀ b ∈ as, b.origin ≠ a.origin := by
      intro b hb hba
      refine hnodup.1 (List.mem_filterMap.mpr ⟨b, hb, ?_⟩)
      rw [hba, hm]
    rcases List.mem_cons.mp hqd with rfl | hmem <;> rcases List.mem_cons.mp hqd' with rfl | hmem'
    · rfl
    · exact absurd heq.symm (hfresh qd' hmem')
    · exact absurd heq (hfresh qd hmem)
    · exact ih hmem hmem' hnodup.2 fun b hb => hnum b (List.mem_cons_of_mem _ hb)

theorem perform_queue_sublist {cfg : ChordsConfig A} {since : Nat} {rel : Bool} {d : Decision A}
    {s s' : ChordsV2 A} (h : perform cfg since rel d s = .ok s') :
    s'.queue.items.Sublist s.queue.items := by
  obtain ⟨_, _, achs, _, rfl⟩ := perform_eq_ok.mp h
  simp only [performed]
  split
  · exact List.Sublist.refl _
  · exact List.filter_sublist

/-- Events only leave the queue in a tick. -/
theorem Drained.queue_sublist {cfg : ChordsConfig A} {activeLayer : Nat} {s s' : ChordsV2 A}
    (haged : Aged s.queue.items) (h : Drained cfg activeLayer s s') :
    s'.queue.items.Sublist s.queue.items := by
  cases h with
  | ignoring _ => exact List.nil_sublist _
  | skipped _ _ => exact List.Sublist.refl _
  | processed _ _ _ _ hpresses =>
    have hsub : (settled activeLayer s).queue.items.Sublist s.queue.items := by
      rw [settled_queue]
      exact pendingOf_sublist _
    exact (perform_queue_sublist (processPresses_ok (haged.sublist hsub) hpresses)).trans hsub

theorem step_ordered {cfg : ChordsConfig A} {s s' : Session A} {op : Op} {o : Out A}
    (hs : s.Ordered) (h : step cfg s op = .ok (s', o)) : s'.Ordered := by
  cases op with
  | push event =>
    simp only [step, stepWith, pure_eq_ok, Prod.mk.injEq] at h
    obtain ⟨rfl, _⟩ := h
    exact (QueueOrdered.push hs event).sublist (Bounded.pushBack_sublist _ _)
  | tick activeLayer =>
    obtain ⟨chv2, q, htick, rfl, _⟩ := step_tick_eq_ok.mp h
    obtain ⟨s₁, hdrained, _, heq⟩ := tick_eq_ok.mp htick
    cases heq
    have hage : QueueOrdered s.arrived s.chv2.age.queue.items := QueueOrdered.tick hs
    have hsub : s₁.queue.items.Sublist s.chv2.age.queue.items := hdrained.queue_sublist hage.aged
    exact hage.sublist hsub
  | getAction =>
    simp only [step, stepWith, pure_eq_ok, Prod.mk.injEq] at h
    obtain ⟨rfl, _⟩ := h
    exact hs

theorem new_ordered : (Session.new : Session A).Ordered :=
  ⟨List.Pairwise.nil, by simp [Session.new, ChordsV2.new], by simp [Session.new, ChordsV2.new]⟩

/-! ## The log of a run

What a step does inside, read off the same functions: the chords it activates
and those whose release it emits. -/

structure Log (A : Type) where
  out : Out A
  activated : List (ActiveChord A)
  removed : List (ActiveChord A)
deriving DecidableEq, Repr

/-- The chords that a step activates. -/
def activatedBy (cfg : ChordsConfig A) (s : Session A) : Op → List (ActiveChord A)
  | .tick activeLayer =>
    match drainInputs cfg activeLayer s.chv2.age .empty with
    | .ok (s₁, _) => s₁.activeChords.items.drop s.chv2.activeChords.items.length
    | .error _ => []
  | _ => []

/-- The chords that a step removes. -/
def removedBy (cfg : ChordsConfig A) (s : Session A) : Op → List (ActiveChord A)
  | .tick activeLayer =>
    match drainInputs cfg activeLayer s.chv2.age .empty with
    | .ok (s₁, _) => releasedChords s₁
    | .error _ => []
  | _ => []

/-- The machine with its log as output. -/
def stepLogged (cfg : ChordsConfig A) (s : Session A) (op : Op) : Rust (Session A × Log A) := do
  let (s', out) ← step cfg s op
  pure (s', ⟨out, activatedBy cfg s op, removedBy cfg s op⟩)

theorem stepLogged_eq_ok {cfg : ChordsConfig A} {s s' : Session A} {op : Op} {l : Log A} :
    stepLogged cfg s op = .ok (s', l) ↔
      step cfg s op = .ok (s', l.out) ∧ l.activated = activatedBy cfg s op ∧
        l.removed = removedBy cfg s op := by
  simp only [stepLogged, bind_eq_ok, pure_eq_ok]
  constructor
  · rintro ⟨⟨s₁, out⟩, h, heq⟩
    cases heq
    exact ⟨h, rfl, rfl⟩
  · rcases l with ⟨out, activated, removed⟩
    rintro ⟨h, rfl, rfl⟩
    exact ⟨(s', out), h, rfl⟩

/-- Logging changes nothing. -/
theorem run_stepLogged (cfg : ChordsConfig A) (ops : List Op) (s : Session A) :
    (run (stepLogged cfg) s ops).map (fun r => (r.1, r.2.map (·.out))) = run (step cfg) s ops := by
  induction ops generalizing s with
  | nil => rfl
  | cons op ops ih =>
    simp only [run, stepLogged]
    rcases step cfg s op with e | ⟨s', out⟩
    · rfl
    · simp only [ok_bind, pure_bind, ← ih s']
      rcases run (stepLogged cfg) s' ops with e | ⟨s'', ls⟩ <;> rfl

/-- A tick, taken apart with its log. -/
theorem stepLogged_tick {cfg : ChordsConfig A} {s s' : Session A} {activeLayer : Nat} {l : Log A}
    (h : stepLogged cfg s (.tick activeLayer) = .ok (s', l)) :
    ∃ s₁, Drained cfg activeLayer s.chv2.age s₁ ∧
      (pushAll .empty (announced activeLayer s.chv2 s₁)).items.length +
        (releasedChords s₁).length ≤ smolQLen ∧
      s' = { s with chv2 := closeTick s₁ } ∧
      l.out = .ticked (pushAll .empty
        (announced activeLayer s.chv2 s₁ ++ chordReleases (releasedChords s₁))) ∧
      l.activated = s₁.activeChords.items.drop s.chv2.activeChords.items.length ∧
      l.removed = releasedChords s₁ := by
  rcases stepLogged_eq_ok.mp h with ⟨hstep, hact, hrem⟩
  rcases step_tick_eq_ok.mp hstep with ⟨chv2, q, htick, rfl, hout⟩
  rcases tick_eq_ok.mp htick with ⟨s₁, hdrained, hroom, heq⟩
  cases heq
  have hdrain : drainInputs cfg activeLayer s.chv2.age .empty =
      .ok (s₁, pushAll .empty (drainedEvents activeLayer s.chv2.age)) :=
    drainInputs_eq_ok.mpr ⟨hdrained, rfl⟩
  refine ⟨s₁, hdrained, hroom, rfl, hout, ?_, ?_⟩
  · rw [hact, activatedBy, hdrain]
  · rw [hrem, removedBy, hdrain]

theorem along_stepLogged {cfg : ChordsConfig A} {P : Session A → Op → Prop} {ops : List Op}
    {s : Session A} (h : Along (step cfg) P s ops) : Along (stepLogged cfg) P s ops := by
  induction ops generalizing s with
  | nil => trivial
  | cons op ops ih =>
    refine ⟨h.1, ?_⟩
    rcases hstep : stepLogged cfg s op with e | ⟨s', l⟩
    · trivial
    · exact ih (h.tail (stepLogged_eq_ok.mp hstep).1)

end Kanata.Chord
