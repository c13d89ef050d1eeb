import Kanata.Chord.Session

/-!
# Kanata.Chord.Skip — when skipped processing shows

`drain_inputs` returns early while a timer runs, the layer is the same and the
queue is as long as it was when it was last looked at. `stepNoSkip` is the same
machine without the early return.

The length is taken before virtual keys and releases leave the queue, and the
timer is a tick late, so the early return can hide work. It cannot when nothing
was to be done (`NothingToDo`): `skip_unobservable`.
-/

namespace Kanata.Chord

open Fallible ChordsV2 Machine Session

variable {A : Type}

/-! ## The machine without the early return -/

def drainInputsNoSkip (cfg : ChordsConfig A) (activeLayer : Nat) (s : ChordsV2 A)
    (drainq : SmolQueue) : Rust (ChordsV2 A × SmolQueue) :=
  if s.ticksToIgnoreChord > 0 then pure (drainWithoutNewActivations s drainq)
  else processInputs cfg activeLayer s drainq

def stepNoSkip (cfg : ChordsConfig A) : Session A → Op → Rust (Session A × Out A) :=
  stepWith fun activeLayer => tickWith (drainInputsNoSkip cfg activeLayer)

/-! ## Nothing to do -/

/-- The queue waits for a chord: it begins with a press, more than one chord can
come of the presses and of each beginning of them, some chord has not timed out
yet, and no press is released. -/
structure Waiting (cfg : ChordsConfig A) (activeLayer : Nat) (queue : List Queued) : Prop where
  leads : ∃ qd ∈ queue.head?, isPress qd = true
  fit : PressesFit cfg (queue.countP isPress)
  unreleased : releaseFound queue = false
  undecided : ∃ possibleChords ∈ possibleFor cfg (pressesOf queue),
    (∀ k < (pressesOf queue).length,
      2 ≤ (candidates possibleChords activeLayer ((pressesOf queue).take (k + 1))).length) ∧
    ∃ c ∈ candidates possibleChords activeLayer (pressesOf queue),
      headSince queue < c.pendingDuration ∧ c.pendingDuration < u16Max

instance (cfg : ChordsConfig A) (activeLayer : Nat) (queue : List Queued) :
    Decidable (Waiting cfg activeLayer queue) :=
  decidable_of_iff
    ((∃ qd ∈ queue.head?, isPress qd = true) ∧ PressesFit cfg (queue.countP isPress) ∧
      releaseFound queue = false ∧
      ∃ possibleChords ∈ possibleFor cfg (pressesOf queue),
        (∀ k < (pressesOf queue).length,
          2 ≤ (candidates possibleChords activeLayer ((pressesOf queue).take (k + 1))).length) ∧
        ∃ c ∈ candidates possibleChords activeLayer (pressesOf queue),
          headSince queue < c.pendingDuration ∧ c.pendingDuration < u16Max)
    ⟨fun ⟨h, h₁, h₂, h₃⟩ => ⟨h, h₁, h₂, h₃⟩, fun ⟨h, h₁, h₂, h₃⟩ => ⟨h, h₁, h₂, h₃⟩⟩

/-- Processing the queue would change nothing. -/
structure NothingToDo (cfg : ChordsConfig A) (activeLayer : Nat) (queue : List Queued) :
    Prop where
  real : ∀ qd ∈ queue, isReal qd = true
  waiting : queue = [] ∨ Waiting cfg activeLayer queue

instance (cfg : ChordsConfig A) (activeLayer : Nat) (queue : List Queued) :
    Decidable (NothingToDo cfg activeLayer queue) :=
  decidable_of_iff
    ((∀ qd ∈ queue, isReal qd = true) ∧ (queue = [] ∨ Waiting cfg activeLayer queue))
    ⟨fun ⟨h, h'⟩ => ⟨h, h'⟩, fun ⟨h, h'⟩ => ⟨h, h'⟩⟩

/-- A tick that skips the processing has nothing to do. -/
def SkipsIdle (cfg : ChordsConfig A) (s : Session A) : Op → Prop
  | .tick activeLayer =>
    s.chv2.ticksToIgnoreChord = 0 → canSkip activeLayer s.chv2.age = true →
      NothingToDo cfg activeLayer s.chv2.age.queue.items
  | _ => True

instance (cfg : ChordsConfig A) (s : Session A) (op : Op) : Decidable (SkipsIdle cfg s op) :=
  match op with
  | .push _ => .isTrue trivial
  | .tick activeLayer =>
    inferInstanceAs (Decidable (s.chv2.ticksToIgnoreChord = 0 →
      canSkip activeLayer s.chv2.age = true → NothingToDo cfg activeLayer s.chv2.age.queue.items))
  | .getAction => .isTrue trivial

/-! ## Timers -/

theorem minTimeout_foldl (since : Nat) (chords : List (ChordV2 A)) (t : Nat) :
    let r := chords.foldl (fun t chc =>
      if chc.pendingDuration > since then min t chc.pendingDuration else t) t
    (since < t → since < r) ∧ (t < u16Max → r < u16Max) ∧
      ((∃ c ∈ chords, since < c.pendingDuration ∧ c.pendingDuration < u16Max) → r < u16Max) := by
  induction chords generalizing t with
  | nil => simp
  | cons c cs ih =>
    simp only [List.foldl_cons, gt_iff_lt, List.exists_mem_cons_iff]
    obtain ⟨hlow, hmax, hex⟩ :=
      ih (if since < c.pendingDuration then min t c.pendingDuration else t)
    refine ⟨fun ht => hlow ?_, fun ht => hmax ?_, ?_⟩
    · split <;> omega
    · split <;> omega
    · rintro (⟨hs, hu⟩ | hrest)
      · refine hmax ?_
        rw [if_pos hs]
        omega
      · exact hex hrest

theorem timer_pos {since : Nat} {chords : List (ChordV2 A)}
    (h : ∃ c ∈ chords, since < c.pendingDuration ∧ c.pendingDuration < u16Max) :
    0 < timer since chords := by
  obtain ⟨hlow, _, hmax⟩ := minTimeout_foldl since chords u16Max
  have hlt := hmax h
  obtain ⟨c, _, hs, hu⟩ := h
  have hlow := hlow (by omega)
  have hne : minTimeout since chords ≠ u16Max := Nat.ne_of_lt hlt
  simp only [timer, if_neg hne]
  exact Nat.sub_pos_of_lt hlow

/-! ## Processing with nothing to do -/

/-- With several candidates at every press the scan goes through. -/
theorem scan_of_many {possibleChords : List (ChordV2 A)} {activeLayer : Nat} (since : Nat)
    (taken : List PressWithTime) (left : List (ChordV2 A)) (ticks : Nat)
    {rest : List PressWithTime} (hne : rest ≠ [])
    (hmany : ∀ k < rest.length,
      2 ≤ (candidates possibleChords activeLayer (taken ++ rest.take (k + 1))).length) :
    scan possibleChords activeLayer since taken left ticks rest =
      ⟨taken ++ rest, candidates possibleChords activeLayer (taken ++ rest), .exhausted,
        timer since (candidates possibleChords activeLayer (taken ++ rest)), 0⟩ := by
  induction rest generalizing taken left ticks with
  | nil => exact absurd rfl hne
  | cons press rest ih =>
    have htwo := hmany 0 (by simp)
    simp only [List.take_succ_cons, List.take_zero] at htwo
    have hstep : scan possibleChords activeLayer since taken left ticks (press :: rest) =
        scan possibleChords activeLayer since (taken ++ [press])
          (candidates possibleChords activeLayer (taken ++ [press]))
          (timer since (candidates possibleChords activeLayer (taken ++ [press]))) rest := by
      rw [scan]
      rcases hc : candidates possibleChords activeLayer (taken ++ [press]) with
        _ | ⟨c₁, _ | ⟨c₂, cs⟩⟩
      · simp [hc] at htwo
      · simp [hc] at htwo
      · rfl
    rw [hstep]
    rcases rest with _ | ⟨press', rest⟩
    · rfl
    · rw [ih _ _ _ (by simp) fun k hk => ?_, List.append_assoc, List.singleton_append]
      have := hmany (k + 1) (Nat.succ_lt_succ hk)
      rwa [List.take_succ_cons, List.append_cons] at this

theorem Waiting.decision {cfg : ChordsConfig A} {activeLayer : Nat} {queue : List Queued}
    (h : Waiting cfg activeLayer queue) (ticks : Nat) :
    ∃ taken ticksUntil,
      queueDecision cfg activeLayer ticks queue = ⟨[], taken, 0, ticksUntil, false⟩ := by
  obtain ⟨possibleChords, hpossible, hmany, htimer⟩ := h.undecided
  obtain ⟨first, rest, hpresses, hmap⟩ := possibleFor_eq_some.mp hpossible
  have hscan := scan_of_many (headSince queue) [] [] ticks
    (by simp [hpresses]) hmany
  have hpos := timer_pos htimer
  rw [List.nil_append] at hscan
  refine ⟨pressesOf queue, timer (headSince queue)
    (candidates possibleChords activeLayer (pressesOf queue)), ?_⟩
  rw [queueDecision, hpresses, decision_cons hmap, ← hpresses, hscan]
  have hforced : (timer (headSince queue)
      (candidates possibleChords activeLayer (pressesOf queue)) == 0) = false := by
    rw [beq_eq_false_iff_ne]
    omega
  simp only [Scan.decision, Scan.inLoop, Scan.forced, Scan.isBacktrackedNone, h.unreleased, hforced]
  rfl

/-- The states differ in the three fields of the optimization only. -/
structure SameCore (s t : ChordsV2 A) : Prop where
  queue : s.queue = t.queue
  activeChords : s.activeChords = t.activeChords
  ticksToIgnoreChord : s.ticksToIgnoreChord = t.ticksToIgnoreChord
  nextCoord : s.nextCoord = t.nextCoord

theorem SameCore.refl (s : ChordsV2 A) : SameCore s s := ⟨rfl, rfl, rfl, rfl⟩

theorem NothingToDo.split {cfg : ChordsConfig A} {activeLayer : Nat} {queue : List Queued}
    (h : NothingToDo cfg activeLayer queue) :
    virtualEvents queue = [] ∧ queue.filter isReal = queue ∧ leadingReleases queue = [] ∧
      pendingOf queue = queue ∧ PressesFit cfg (queue.countP isPress) := by
  have hreal : queue.filter isReal = queue := List.filter_eq_self.mpr h.real
  have hvirtual : virtualEvents queue = [] := by
    rw [virtualEvents, List.filter_eq_nil_iff]
    intro qd hqd
    simp [h.real qd hqd]
  rcases h.waiting with rfl | hwait
  · exact ⟨hvirtual, hreal, rfl, rfl, fun _ => Nat.zero_le _⟩
  · obtain ⟨qd, hhead, hpress⟩ := hwait.leads
    obtain ⟨qds, hq⟩ := List.head?_eq_some_iff.mp hhead
    refine ⟨hvirtual, hreal, ?_, ?_, hwait.fit⟩
    · simp [hq, leadingReleases, hpress]
    · rw [pendingOf, hreal]
      simp [hq, fromFirstPress, hpress]

/-- Processing then only writes the fields of the optimization. -/
theorem NothingToDo.processInputs {cfg : ChordsConfig A} {activeLayer : Nat} {s : ChordsV2 A}
    (h : NothingToDo cfg activeLayer s.queue.items) (haged : Aged s.queue.items) :
    ∃ s', processInputs cfg activeLayer s .empty = .ok (s', .empty) ∧ SameCore s' s := by
  obtain ⟨hvirtual, hreal, hleading, hpending, hfit⟩ := h.split
  have hqueue : (settled activeLayer s).queue = s.queue :=
    Bounded.ext (by rw [settled_queue, hpending])
  have hachs : (settled activeLayer s).activeChords = s.activeChords := by
    apply Bounded.ext
    simp [settled, hreal, hleading]
  have hcore : SameCore (settled activeLayer s) s := ⟨hqueue, hachs, rfl, rfl⟩
  have hpresses : ∃ s', processPresses cfg activeLayer (settled activeLayer s) = .ok s' ∧
      SameCore s' s := by
    rw [processPresses_of_fit (by rwa [hqueue]) (by rwa [hqueue]), hqueue]
    obtain ⟨taken, ticksUntil, hd⟩ : ∃ taken ticksUntil,
        queueDecision cfg activeLayer (settled activeLayer s).ticksUntilNextStateChange
          s.queue.items = ⟨[], taken, 0, ticksUntil, false⟩ := by
      rcases h.waiting with hnil | hwait
      · rw [hnil]
        exact ⟨[], _, rfl⟩
      · exact hwait.decision _
    rw [hd]
    refine ⟨_, rfl, ?_⟩
    exact ⟨hcore.queue, hcore.activeChords, hcore.ticksToIgnoreChord, hcore.nextCoord⟩
  obtain ⟨s', hs', hsame⟩ := hpresses
  refine ⟨s', processInputs_eq_ok.mpr ⟨by simp [hvirtual], by rwa [hreal], hs', ?_⟩, hsame⟩
  simp [processedEvents, hvirtual, hreal, hleading]

/-! ## The simulation -/

/-- Processing overwrites the fields of the optimization. -/
theorem processInputs_congr {cfg : ChordsConfig A} {activeLayer : Nat} {s t : ChordsV2 A}
    (h : SameCore s t) (drainq : SmolQueue) :
    processInputs cfg activeLayer s drainq = processInputs cfg activeLayer t drainq := by
  obtain ⟨queue, achs, ignore, _, _, _, coord⟩ := s
  obtain ⟨hq, ha, hi, hc⟩ := h
  simp only at hq ha hi hc
  subst hq ha hi hc
  rfl

theorem SameCore.drain {cfg : ChordsConfig A} {activeLayer : Nat} {s t : ChordsV2 A}
    (h : SameCore s t) (haged : Aged s.queue.items)
    (hidle : s.ticksToIgnoreChord = 0 → canSkip activeLayer s = true →
      NothingToDo cfg activeLayer s.queue.items) :
    Agree SameCore (drainInputs cfg activeLayer s .empty)
      (drainInputsNoSkip cfg activeLayer t .empty) := by
  unfold drainInputs drainInputsNoSkip
  rw [← h.ticksToIgnoreChord]
  by_cases hignore : s.ticksToIgnoreChord > 0
  · simp only [hignore, if_true, drainWithoutNewActivations_eq, ← h.queue, ← h.activeChords]
    exact .step _ ⟨rfl, rfl, h.ticksToIgnoreChord, h.nextCoord⟩
  · simp only [hignore, if_false, ← processInputs_congr h]
    rcases hskip : canSkip activeLayer s with _ | _
    · -- both process
      simp only [Bool.false_eq_true, if_false]
      rcases processInputs cfg activeLayer s .empty with e | ⟨s', q⟩
      · exact .fail e
      · exact .step q (SameCore.refl s')
    · -- only one processes, and has nothing to do
      obtain ⟨s', hs', hsame⟩ := (hidle (by omega) hskip).processInputs haged
      simp only [if_true, hs']
      exact .step _ ⟨hsame.queue.symm, hsame.activeChords.symm, hsame.ticksToIgnoreChord.symm,
        hsame.nextCoord.symm⟩

theorem SameCore.tick {cfg : ChordsConfig A} {activeLayer : Nat} {s t : ChordsV2 A}
    (h : SameCore s t) (haged : Aged s.queue.items)
    (hidle : s.ticksToIgnoreChord = 0 → canSkip activeLayer s.age = true →
      NothingToDo cfg activeLayer s.age.queue.items) :
    Agree SameCore (tickChv2 cfg activeLayer s)
      (tickWith (drainInputsNoSkip cfg activeLayer) t) := by
  have hage : SameCore s.age t.age := by
    refine ⟨?_, ?_, h.ticksToIgnoreChord, h.nextCoord⟩ <;> simp [age, h.queue, h.activeChords]
  have hdrain := hage.drain haged.tick hidle
  unfold tickChv2 tickWith
  rw [h.activeChords]
  generalize drainInputs cfg activeLayer s.age .empty = r at hdrain
  generalize drainInputsNoSkip cfg activeLayer t.age .empty = r' at hdrain
  cases hdrain with
  | fail e => exact .fail e
  | @step s₁ t₁ q hcore =>
    simp only [ok_bind, clearReleasedChords, pushTriggers, hcore.activeChords]
    generalize pushReleased _ _ = q'
    rcases q' with e | q'
    · exact .fail e
    · refine .step q' ⟨hcore.queue, rfl, ?_, hcore.nextCoord⟩
      simp [hcore.ticksToIgnoreChord]

/-- The two machines are in step. -/
structure InStep (s t : Session A) : Prop where
  core : SameCore s.chv2 t.chv2
  arrived : s.arrived = t.arrived
  ordered : s.Ordered

theorem InStep.step {cfg : ChordsConfig A} {s t : Session A} {op : Op} (h : InStep s t)
    (hidle : SkipsIdle cfg s op) :
    Agree InStep (Session.step cfg s op) (stepNoSkip cfg t op) := by
  have hagree : Agree (fun s t => SameCore s.chv2 t.chv2 ∧ s.arrived = t.arrived)
      (Session.step cfg s op) (stepNoSkip cfg t op) := by
    cases op with
    | push event =>
      simp only [Session.step, stepNoSkip, stepWith, pushBackChv2, ← h.core.queue, ← h.arrived]
      exact .step _ ⟨⟨rfl, h.core.activeChords, h.core.ticksToIgnoreChord, h.core.nextCoord⟩, rfl⟩
    | tick activeLayer =>
      have htick := h.core.tick h.ordered.aged hidle
      simp only [Session.step, stepNoSkip, stepWith]
      generalize tickChv2 cfg activeLayer s.chv2 = r at htick
      generalize tickWith (drainInputsNoSkip cfg activeLayer) t.chv2 = r' at htick
      cases htick with
      | fail e => exact .fail e
      | step q hcore => exact .step _ ⟨hcore, h.arrived⟩
    | getAction =>
      simp only [Session.step, stepNoSkip, stepWith, getActionChv2, ← h.core.activeChords]
      exact .step _ ⟨⟨h.core.queue, rfl, h.core.ticksToIgnoreChord, h.core.nextCoord⟩, h.arrived⟩
  have hord : ∀ s' o, Session.step cfg s op = .ok (s', o) → s'.Ordered :=
    fun _ _ hs' => step_ordered h.ordered hs'
  generalize Session.step cfg s op = r at hagree hord
  generalize stepNoSkip cfg t op = r' at hagree
  cases hagree with
  | fail e => exact .fail e
  | step o hcore => exact .step o ⟨hcore.1, hcore.2, hord _ _ rfl⟩

/-- The early return is unobservable in every run whose skipping ticks have
nothing to do. -/
theorem skip_unobservable (cfg : ChordsConfig A) (ops : List Op)
    (hidle : Along (Session.step cfg) (SkipsIdle cfg) Session.new ops) :
    (run (Session.step cfg) Session.new ops).map Prod.snd =
      (run (stepNoSkip cfg) Session.new ops).map Prod.snd := by
  have hstep : ∀ s t op, InStep s t → SkipsIdle cfg s op →
      Agree InStep (Session.step cfg s op) (stepNoSkip cfg t op) :=
    fun _ _ _ h hP => h.step hP
  exact run_eq_of_simulation hstep ⟨SameCore.refl _, rfl, new_ordered⟩ hidle

/-! ## A skip that shows -/

/-- Key `a` (30) makes one chord with `b` (48) and another with `c` (46). -/
def twoChords : ChordsConfig Nat where
  chords := ⟨fun key =>
    let withA (key action : Nat) : ChordV2 Nat :=
      .pair action 30 key 50
    match key with
    | 30 => some [withA 48 1, withA 46 2]
    | 48 => some [withA 48 1]
    | 46 => some [withA 46 2]
    | _ => none⟩
  configuredTicksToIgnoreChord := minTicksToIgnoreChord
  debugAssertions := true
  ticks_ge := five_le_minTicks

/-- `a` is pressed, a virtual key a tick later, `b` another tick later: the
queue is as long as before the virtual key left, and the chord is not seen. -/
def hiddenPress : List Op :=
  [.push (.press 0 30), .tick 0, .push (.press 1 0), .tick 0, .push (.press 0 48), .tick 0]

theorem skip_observable :
    (run (Session.step twoChords) Session.new hiddenPress).map Prod.snd ≠
      (run (stepNoSkip twoChords) Session.new hiddenPress).map Prod.snd := by
  decide

/-- `a` alone waits with nothing to do. -/
theorem skip_unobservable_alone :
    (run (Session.step twoChords) Session.new [.push (.press 0 30), .tick 0, .tick 0]).map
        Prod.snd =
      (run (stepNoSkip twoChords) Session.new [.push (.press 0 30), .tick 0, .tick 0]).map
        Prod.snd :=
  skip_unobservable twoChords _ (by decide)

end Kanata.Chord
