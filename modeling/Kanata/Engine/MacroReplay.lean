import Mathlib.Algebra.GroupWithZero.Nat
import Kanata.Engine.DynamicMacro
import Kanata.Lib.Fallible

/-!
# Kanata.Engine.MacroReplay — the timing of replayed macros

`tick_ms` ticks the state and the replay for each millisecond, and then as many times
more as the delays of the replayed events exceed the milliseconds. The rest of the
program is a parameter (`ReplayEngine`): a tick of its state may fail and may play macros.

What happens is written down as a trace of observations.

* `tickMs_eq`: a call is a number of ticks of state and replay, each followed by its
  event, if the milliseconds fit in 16 bits;
* `follow`: a stack of the macros that are playing accepts a trace that gives each item
  once and in order; `Unplayed` relates the stack to the items of the replay;
* `Since`: the ticks since the last event of the replay;
* `replay_timing`: runs of `tick_ms` with any numbers of milliseconds.
-/

namespace Kanata

open Fallible

namespace DynamicMacroItem

def isEvent : DynamicMacroItem → Bool
  | .press _ _ | .release _ _ => true
  | .endMacro _ => false

/-- The event of an item as it is replayed with the recorded delays. -/
def replayEvent : DynamicMacroItem → Option ReplayEvent
  | .press osc delay => some ⟨.press 0 osc.code, delay⟩
  | .release osc delay => some ⟨.release 0 osc.code, delay⟩
  | .endMacro _ => none

end DynamicMacroItem

/-- The saved macros. Recordings save events only. -/
structure RecordedMacros where
  get : Nat → Option (List DynamicMacroItem)
  isEvent : ∀ macroId items, get macroId = some items → ∀ item ∈ items, item.isEvent = true

/-- A call of `play_macro`. -/
structure PlayCall where
  macroId : Nat
  recordedMacros : RecordedMacros

/-- What replay needs of the program: `tick_states` with the calls of `play_macro` that
it makes, and `event` of the layout. -/
structure ReplayEngine (σ ε : Type) where
  tickStates : σ → Except ε (σ × List PlayCall)
  event : σ → Event → σ

/-- What happens during `tick_ms`. The calls that play nothing leave no observation. -/
inductive Obs where
  | tick
  | play (items : List DynamicMacroItem)
  | event (event : ReplayEvent)
  | endMacro
  | finished
  | overshot (event : ReplayEvent)
deriving DecidableEq, Repr

/-! ## The loops of `tick_ms` -/

/-- The macro that a call plays. -/
def played (replay : Option DynamicMacroReplayState) (call : PlayCall) : List Obs :=
  match replay with
  | none => (call.recordedMacros.get call.macroId).toList.map .play
  | some state =>
    if call.macroId ∈ state.activeMacros then []
    else (call.recordedMacros.get call.macroId).toList.map .play

def playCalls : Option DynamicMacroReplayState → List PlayCall →
    Option DynamicMacroReplayState × List Obs
  | replay, [] => (replay, [])
  | replay, call :: calls =>
    let rest := playCalls (playMacro call.macroId call.recordedMacros.get replay) calls
    (rest.1, played replay call ++ rest.2)

/-- What the replay pops that is not an event. -/
def popped (replay : Option DynamicMacroReplayState) : List Obs :=
  match replay with
  | none => []
  | some state =>
    if state.delayRemaining - 1 = 0 then
      match state.macroItems with
      | [] => [.finished]
      | .endMacro _ :: _ => [.endMacro]
      | _ => []
    else []

/-- One after the other, with the observations of both. -/
def andThen {τ ε : Type} (first : Except ε (τ × List Obs)) (second : τ → Except ε (τ × List Obs)) :
    Except ε (τ × List Obs) := do
  let (st, obs) ← first
  let (st, rest) ← second st
  pure (st, obs ++ rest)

section Ticks

variable {σ ε : Type} (engine : ReplayEngine σ ε) (behaviour : ReplayDelayBehaviour)

/-- `tick_states` and `tick_replay_state`, in the body of both loops. -/
def replayTick (st : σ × Option DynamicMacroReplayState) :
    Except ε ((σ × Option DynamicMacroReplayState) × List Obs × Option ReplayEvent) := do
  let (s, calls) ← engine.tickStates st.1
  let playing := playCalls st.2 calls
  let ticked := tickReplayState behaviour playing.1
  pure ((s, ticked.1), .tick :: playing.2 ++ popped playing.1, ticked.2)

/-- The first loop, with the extra ticks so far. -/
def mainLoop : Nat → σ × Option DynamicMacroReplayState → Nat →
    Except ε ((σ × Option DynamicMacroReplayState) × Nat × List Obs)
  | 0, st, extraTicks => pure (st, extraTicks, [])
  | n + 1, st, extraTicks => do
    let (st, obs, event) ← replayTick engine behaviour st
    match event with
    | some event => do
      let (st, extraTicks, rest) ←
        mainLoop n (engine.event st.1 event.keyEvent, st.2) (satAdd extraTicks event.delay)
      pure (st, extraTicks, obs ++ .event event :: rest)
    | none => do
      let (st, extraTicks, rest) ← mainLoop n st extraTicks
      pure (st, extraTicks, obs ++ rest)

/-- The second loop breaks at an event, which is lost. -/
def extraLoop : Nat → σ × Option DynamicMacroReplayState →
    Except ε ((σ × Option DynamicMacroReplayState) × List Obs)
  | 0, st => pure (st, [])
  | n + 1, st => do
    let (st, obs, event) ← replayTick engine behaviour st
    match event with
    | some event => pure (st, obs ++ [.overshot event])
    | none => do
      let (st, rest) ← extraLoop n st
      pure (st, obs ++ rest)

/-- `tick_ms`. The milliseconds are cast to 16 bits for the comparison. -/
def tickMs (msElapsed : Nat) (st : σ × Option DynamicMacroReplayState) :
    Except ε ((σ × Option DynamicMacroReplayState) × List Obs) := do
  let (st, extraTicks, obs) ← mainLoop engine behaviour msElapsed st 0
  let (st, rest) ← extraLoop engine behaviour (extraTicks - msElapsed % (u16Max + 1)) st
  pure (st, obs ++ rest)

/-- Calls of `tick_ms` one after the other. -/
def tickChunks : List Nat → σ × Option DynamicMacroReplayState →
    Except ε ((σ × Option DynamicMacroReplayState) × List Obs)
  | [], st => pure (st, [])
  | msElapsed :: chunks, st => andThen (tickMs engine behaviour msElapsed st) (tickChunks chunks)

/-- A tick of the state, followed by its event. -/
def deliverTick (st : σ × Option DynamicMacroReplayState) :
    Except ε ((σ × Option DynamicMacroReplayState) × List Obs) := do
  let (st, obs, event) ← replayTick engine behaviour st
  match event with
  | some event => pure ((engine.event st.1 event.keyEvent, st.2), obs ++ [.event event])
  | none => pure (st, obs)

def deliverTicks : Nat → σ × Option DynamicMacroReplayState →
    Except ε ((σ × Option DynamicMacroReplayState) × List Obs)
  | 0, st => pure (st, [])
  | n + 1, st => andThen (deliverTick engine behaviour st) (deliverTicks n)

end Ticks

section AndThen

variable {τ ε : Type} {first : Except ε (τ × List Obs)} {second third : τ → Except ε (τ × List Obs)}

theorem andThen_eq_ok {st' : τ} {obs : List Obs} :
    andThen first second = .ok (st', obs) ↔
      ∃ st obs₁ obs₂, first = .ok (st, obs₁) ∧ second st = .ok (st', obs₂) ∧
        obs = obs₁ ++ obs₂ := by
  unfold andThen
  simp only [bind_eq_ok, pure_eq_ok, Prod.mk.injEq]
  constructor
  · rintro ⟨⟨st, obs₁⟩, h₁, ⟨_, obs₂⟩, h₂, rfl, rfl⟩
    exact ⟨st, obs₁, obs₂, h₁, h₂, rfl⟩
  · rintro ⟨st, obs₁, obs₂, h₁, h₂, rfl⟩
    exact ⟨(st, obs₁), h₁, (st', obs₂), h₂, rfl, rfl⟩

theorem pure_andThen (st : τ) : andThen (pure (st, [])) second = second st := by
  unfold andThen
  rcases h : second st with e | ⟨st', obs⟩
  · simp [h]
  · simp [h]

theorem andThen_assoc :
    andThen (andThen first second) third = andThen first fun st => andThen (second st) third := by
  unfold andThen
  rcases first with e | ⟨st, obs⟩
  · rfl
  · simp only [ok_bind]
    rcases second st with e | ⟨st', obs'⟩
    · rfl
    · simp only [ok_bind, pure_bind]
      rcases third st' with e | ⟨st'', obs''⟩
      · rfl
      · simp

end AndThen

/-! ## The delay that remains -/

/-- The ticks until the next item, as the replay counts them. -/
def remaining (replay : Option DynamicMacroReplayState) : Nat :=
  replay.elim 0 DynamicMacroReplayState.delayRemaining

theorem remaining_playMacro (macroId : Nat) (recordedMacros : Nat → Option (List DynamicMacroItem))
    (replay : Option DynamicMacroReplayState) :
    remaining (playMacro macroId recordedMacros replay) = remaining replay := by
  unfold playMacro
  split
  · cases recordedMacros macroId <;> rfl
  · split
    · rfl
    · split <;> rfl

theorem remaining_playCalls (replay : Option DynamicMacroReplayState) (calls : List PlayCall) :
    remaining (playCalls replay calls).1 = remaining replay := by
  induction calls generalizing replay with
  | nil => rfl
  | cons call calls ih =>
    rw [playCalls, ih, remaining_playMacro]

/-- What a tick of the replay can do: the next replay, what is popped that is no event,
and the event. -/
inductive ReplayTicked : Option DynamicMacroReplayState → Option DynamicMacroReplayState →
    List Obs → Option ReplayEvent → Prop where
  | idle : ReplayTicked none none [] none
  | wait {state : DynamicMacroReplayState} (h : 1 < state.delayRemaining) :
    ReplayTicked (some state) (some { state with delayRemaining := state.delayRemaining - 1 })
      [] none
  | finish {state : DynamicMacroReplayState} (h : state.delayRemaining ≤ 1)
    (hitems : state.macroItems = []) : ReplayTicked (some state) none [.finished] none
  | event {state : DynamicMacroReplayState} {item : DynamicMacroItem}
    {rest : List DynamicMacroItem} {event : ReplayEvent} (h : state.delayRemaining ≤ 1)
    (hitems : state.macroItems = item :: rest) (hitem : item.replayEvent = some event) :
    ReplayTicked (some state)
      (some { state with delayRemaining := event.delay, macroItems := rest }) [] (some event)
  | endMacro {state : DynamicMacroReplayState} {macroId : Nat} {rest : List DynamicMacroItem}
    (h : state.delayRemaining ≤ 1) (hitems : state.macroItems = .endMacro macroId :: rest) :
    ReplayTicked (some state)
      (some
        { activeMacros := state.activeMacros.filter (· ≠ macroId)
          delayRemaining := 5
          macroItems := rest }) [.endMacro] none

theorem tickReplayState_cases (replay : Option DynamicMacroReplayState) :
    ReplayTicked replay (tickReplayState .recorded replay).1 (popped replay)
      (tickReplayState .recorded replay).2 := by
  rcases replay with _ | state
  · exact .idle
  · unfold tickReplayState popped
    by_cases hzero : state.delayRemaining - 1 = 0
    · have hle : state.delayRemaining ≤ 1 := by omega
      simp only [if_pos hzero]
      rcases hitems : state.macroItems with _ | ⟨item, rest⟩
      · exact .finish hle hitems
      · cases item with
        | press => exact .event hle hitems rfl
        | release => exact .event hle hitems rfl
        | endMacro => exact .endMacro hle hitems
    · simp only [if_neg hzero]
      exact .wait (by omega)

/-! ## A call of `tick_ms` as ticks -/

/-- The delays so far are used up by the ticks so far and the delay that remains. -/
def Covered (extraTicks ticks : Nat) (replay : Option DynamicMacroReplayState) : Prop :=
  extraTicks = 0 ∨ extraTicks + 1 ≤ ticks + remaining replay

section Loops

variable {σ ε : Type} {engine : ReplayEngine σ ε} {st st' : σ × Option DynamicMacroReplayState}
  {obs : List Obs} {event : Option ReplayEvent} {extraTicks ticks : Nat}

/-- A tick of the state, then one of the replay with the macros that were played. -/
theorem replayTick_cases (h : replayTick engine .recorded st = .ok (st', obs, event)) :
    ∃ calls pop, ReplayTicked (playCalls st.2 calls).1 st'.2 pop event ∧
      obs = .tick :: (playCalls st.2 calls).2 ++ pop := by
  simp only [replayTick, bind_eq_ok, pure_eq_ok, Prod.mk.injEq] at h
  rcases h with ⟨⟨s, calls⟩, _, rfl, rfl, rfl⟩
  exact ⟨calls, _, tickReplayState_cases _, rfl⟩

theorem Covered.next {extraTicks' : Nat} (h : Covered extraTicks ticks st.2)
    (htick : replayTick engine .recorded st = .ok (st', obs, event))
    (hextra : extraTicks' ≤ extraTicks + event.elim 0 ReplayEvent.delay) :
    Covered extraTicks' (ticks + 1) st'.2 := by
  rcases replayTick_cases htick with ⟨calls, pop, hticked, _⟩
  unfold Covered at h ⊢
  rw [← remaining_playCalls st.2 calls] at h
  generalize st'.2 = replay' at hticked ⊢
  generalize (playCalls st.2 calls).1 = replay at hticked h
  cases hticked <;> simp only [remaining, Option.elim_some, Option.elim_none] at h hextra ⊢
    <;> omega

/-- A tick before the delay has passed gives no event. -/
theorem replayTick_early (h : replayTick engine .recorded st = .ok (st', obs, event))
    (hearly : 1 < remaining st.2) : event = none ∧ remaining st'.2 = remaining st.2 - 1 := by
  rcases replayTick_cases h with ⟨calls, pop, hticked, _⟩
  rw [← remaining_playCalls st.2 calls] at hearly ⊢
  generalize st'.2 = replay' at hticked ⊢
  generalize (playCalls st.2 calls).1 = replay at hticked hearly ⊢
  cases hticked with
  | idle => exact absurd hearly (Nat.not_lt_zero 1)
  | wait => exact ⟨rfl, rfl⟩
  | finish hle => exact absurd hle (Nat.not_le.mpr hearly)
  | event hle => exact absurd hle (Nat.not_le.mpr hearly)
  | endMacro hle => exact absurd hle (Nat.not_le.mpr hearly)

/-- The first loop delivers its events, and the delays stay covered. -/
theorem mainLoop_eq : ∀ (n : Nat) {st : σ × Option DynamicMacroReplayState}
    {extraTicks ticks : Nat}, Covered extraTicks ticks st.2 →
    (mainLoop engine .recorded n st extraTicks).map (fun r => (r.1, r.2.2)) =
        deliverTicks engine .recorded n st ∧
      ∀ r, mainLoop engine .recorded n st extraTicks = .ok r → Covered r.2.1 (ticks + n) r.1.2
  | 0, st, extraTicks, ticks, hcovered => by
    refine ⟨rfl, ?_⟩
    rintro r ⟨⟩
    exact hcovered
  | n + 1, st, extraTicks, ticks, hcovered => by
    unfold mainLoop deliverTicks deliverTick andThen
    rcases htick : replayTick engine .recorded st with e | ⟨st₁, obs, _ | event⟩
    · exact ⟨rfl, nofun⟩
    · have hnext : Covered extraTicks (ticks + 1) st₁.2 :=
        hcovered.next htick (Nat.le_add_right _ _)
      rcases mainLoop_eq n hnext with ⟨heq, hrest⟩
      rw [Nat.add_right_comm] at hrest
      simp only [ok_bind, pure_bind, ← heq]
      rcases hloop : mainLoop engine .recorded n st₁ extraTicks with e | r
      · exact ⟨rfl, nofun⟩
      · refine ⟨rfl, ?_⟩
        rintro _ ⟨⟩
        exact hrest r hloop
    · have hsat : satAdd extraTicks event.delay ≤ extraTicks + event.delay := Nat.min_le_left _ _
      have hnext : Covered (satAdd extraTicks event.delay) (ticks + 1) st₁.2 :=
        hcovered.next htick hsat
      rcases @mainLoop_eq n (engine.event st₁.1 event.keyEvent, st₁.2) _ _ hnext with ⟨heq, hrest⟩
      rw [Nat.add_right_comm] at hrest
      simp only [ok_bind, pure_bind, ← heq]
      rcases hloop : mainLoop engine .recorded n (engine.event st₁.1 event.keyEvent, st₁.2)
        (satAdd extraTicks event.delay) with e | r
      · exact ⟨rfl, nofun⟩
      · constructor
        · simp [Except.map, pure, Except.pure]
        · rintro _ ⟨⟩
          exact hrest r hloop

/-- The second loop finds no event if it is shorter than the delay that remains. -/
theorem extraLoop_eq : ∀ {n : Nat} {st : σ × Option DynamicMacroReplayState},
    n = 0 ∨ n < remaining st.2 →
    extraLoop engine .recorded n st = deliverTicks engine .recorded n st
  | 0, _, _ => rfl
  | n + 1, st, hlt => by
    have hearly : 1 < remaining st.2 := by omega
    unfold extraLoop deliverTicks deliverTick andThen
    rcases htick : replayTick engine .recorded st with e | ⟨st₁, obs, event⟩
    · rfl
    · rcases replayTick_early htick hearly with ⟨rfl, hremaining⟩
      simp only [ok_bind, pure_bind]
      rw [extraLoop_eq (by omega)]

theorem deliverTicks_add (m n : Nat) (st : σ × Option DynamicMacroReplayState) :
    deliverTicks engine .recorded (m + n) st =
      andThen (deliverTicks engine .recorded m st) (deliverTicks engine .recorded n) := by
  induction m generalizing st with
  | zero => rw [Nat.zero_add, deliverTicks, pure_andThen]
  | succ m ih =>
    rw [Nat.add_right_comm, deliverTicks, deliverTicks, andThen_assoc]
    congr 1
    funext st'
    exact ih st'

/-- More ticks go on from fewer. -/
theorem deliverTicks_mono {m n : Nat} (hle : m ≤ n) {st₁ st₂ : σ × Option DynamicMacroReplayState}
    {obs₁ obs₂ : List Obs} (h₁ : deliverTicks engine .recorded m st = .ok (st₁, obs₁))
    (h₂ : deliverTicks engine .recorded n st = .ok (st₂, obs₂)) : obs₁ <+: obs₂ := by
  rw [← Nat.add_sub_cancel' hle, deliverTicks_add, h₁] at h₂
  rcases andThen_eq_ok.mp h₂ with ⟨_, _, obs, hfirst, _, rfl⟩
  cases hfirst
  exact List.prefix_append obs₁ obs

/-- A call of `tick_ms` is at least as many ticks as it has milliseconds, each with its
event. -/
theorem tickMs_eq {msElapsed : Nat} (hms : msElapsed ≤ u16Max)
    (st : σ × Option DynamicMacroReplayState) :
    ∃ n, msElapsed ≤ n ∧
      tickMs engine .recorded msElapsed st = deliverTicks engine .recorded n st := by
  have hcast : msElapsed % (u16Max + 1) = msElapsed := Nat.mod_eq_of_lt (Nat.lt_succ_of_le hms)
  have hstart : Covered 0 0 st.2 := .inl rfl
  rcases @mainLoop_eq _ _ engine msElapsed _ _ _ hstart with ⟨heq, hcovered⟩
  unfold tickMs
  rcases hloop : mainLoop engine .recorded msElapsed st 0 with e | ⟨st₁, extraTicks, obs⟩
  · refine ⟨msElapsed, Nat.le_refl _, ?_⟩
    rw [← heq, hloop]
    rfl
  · refine ⟨msElapsed + (extraTicks - msElapsed), Nat.le_add_right _ _, ?_⟩
    have hextra : Covered extraTicks (0 + msElapsed) st₁.2 := hcovered _ hloop
    unfold Covered at hextra
    rw [deliverTicks_add, ← heq, hloop, hcast]
    simp only [ok_bind]
    rw [extraLoop_eq (by omega)]
    rfl

/-- However the time is split, it is ticks with their events. -/
theorem tickChunks_eq : ∀ {chunks : List Nat}, (∀ ms ∈ chunks, ms ≤ u16Max) →
    ∀ st : σ × Option DynamicMacroReplayState, ∃ n, chunks.sum ≤ n ∧
      tickChunks engine .recorded chunks st = deliverTicks engine .recorded n st
  | [], _, _ => ⟨0, Nat.le_refl _, rfl⟩
  | ms :: chunks, hchunks, st => by
    have hrest : ∀ ms ∈ chunks, ms ≤ u16Max :=
      fun ms' hms => hchunks ms' (List.mem_cons_of_mem _ hms)
    rcases @tickMs_eq _ _ engine _ (hchunks ms List.mem_cons_self) st with ⟨n, hn, htick⟩
    unfold tickChunks
    rw [List.sum_cons, htick]
    rcases hfirst : deliverTicks engine .recorded n st with e | ⟨st₁, obs⟩
    · refine ⟨n + chunks.sum, by omega, ?_⟩
      rw [deliverTicks_add, hfirst]
      rfl
    · rcases tickChunks_eq hrest st₁ with ⟨n', hn', heq⟩
      refine ⟨n + n', by omega, ?_⟩
      rw [deliverTicks_add, hfirst]
      unfold andThen
      simp only [ok_bind, heq]

end Loops

/-! ## The macros that are playing -/

/-- The items that the macros that are playing have left, the innermost macro first. An
item is given by its event, a macro ends when it has none left, and no event is lost. -/
def follow : List (List DynamicMacroItem) → Obs → Option (List (List DynamicMacroItem))
  | stack, .tick => some stack
  | stack, .play items => some (items :: stack)
  | (item :: items) :: stack, .event event =>
    if item.replayEvent = some event then some (items :: stack) else none
  | [] :: items :: stack, .endMacro => some (items :: stack)
  | [[]], .finished => some []
  | _, _ => none

/-- The items of the replay are those of the macros that are playing, each macro but the
outermost with its end. -/
inductive Unplayed : List (List DynamicMacroItem) → List DynamicMacroItem → Prop where
  | outermost {items : List DynamicMacroItem} (h : ∀ item ∈ items, item.isEvent = true) :
    Unplayed [items] items
  | inner {items queue : List DynamicMacroItem} {stack : List (List DynamicMacroItem)}
    (h : ∀ item ∈ items, item.isEvent = true) (macroId : Nat) (rest : Unplayed stack queue) :
    Unplayed (items :: stack) (items ++ .endMacro macroId :: queue)

/-- The replay that goes with a stack. -/
def Plays (stack : List (List DynamicMacroItem)) (replay : Option DynamicMacroReplayState) :
    Prop :=
  match replay with
  | none => stack = []
  | some state => Unplayed stack state.macroItems

@[simp] theorem plays_some {stack : List (List DynamicMacroItem)}
    {state : DynamicMacroReplayState} :
    Plays stack (some state) ↔ Unplayed stack state.macroItems := Iff.rfl

section Follow

variable {stack : List (List DynamicMacroItem)} {replay replay' : Option DynamicMacroReplayState}

theorem Plays.play (h : Plays stack replay) (call : PlayCall) :
    ∃ stack', (played replay call).foldlM follow stack = some stack' ∧
      Plays stack' (playMacro call.macroId call.recordedMacros.get replay) := by
  rcases replay with _ | state
  · cases h
    unfold played playMacro
    rcases hget : call.recordedMacros.get call.macroId with _ | items
    · exact ⟨[], rfl, rfl⟩
    · exact ⟨[items], rfl, .outermost (call.recordedMacros.isEvent _ _ hget)⟩
  · unfold played playMacro
    dsimp only
    split
    · exact ⟨stack, rfl, h⟩
    · rcases hget : call.recordedMacros.get call.macroId with _ | items
      · exact ⟨stack, rfl, h⟩
      · exact ⟨items :: stack, rfl, .inner (call.recordedMacros.isEvent _ _ hget) _ h⟩

theorem Plays.playCalls (h : Plays stack replay) (calls : List PlayCall) :
    ∃ stack', (Kanata.playCalls replay calls).2.foldlM follow stack = some stack' ∧
      Plays stack' (Kanata.playCalls replay calls).1 := by
  induction calls generalizing stack replay with
  | nil => exact ⟨stack, rfl, h⟩
  | cons call calls ih =>
    rcases h.play call with ⟨stack₁, hplay, h₁⟩
    rcases ih h₁ with ⟨stack₂, hcalls, h₂⟩
    refine ⟨stack₂, ?_, h₂⟩
    rw [Kanata.playCalls, List.foldlM_append, hplay]
    exact hcalls

/-- The first item is the first one of the innermost macro. -/
theorem Unplayed.of_item {item : DynamicMacroItem} {rest : List DynamicMacroItem}
    (h : Unplayed stack (item :: rest)) (hitem : item.isEvent = true) :
    ∃ items stack', stack = (item :: items) :: stack' ∧ Unplayed (items :: stack') rest := by
  generalize hqueue : item :: rest = queue at h
  cases h with
  | outermost hevents =>
    subst hqueue
    exact ⟨rest, [], rfl, .outermost fun item' hmem => hevents item' (List.mem_cons_of_mem _ hmem)⟩
  | @inner items queue stack hevents macroId hrest =>
    rcases items with _ | ⟨first, items⟩
    · -- the end of a macro is no event
      cases hqueue
      cases hitem
    · cases hqueue
      exact ⟨items, stack, rfl,
        .inner (fun item' hmem => hevents item' (List.mem_cons_of_mem _ hmem)) macroId hrest⟩

/-- The end of a macro comes first when the innermost macro has no item left. -/
theorem Unplayed.of_endMacro {macroId : Nat} {rest : List DynamicMacroItem}
    (h : Unplayed stack (.endMacro macroId :: rest)) :
    ∃ items stack', stack = [] :: items :: stack' ∧ Unplayed (items :: stack') rest := by
  generalize hqueue : DynamicMacroItem.endMacro macroId :: rest = queue at h
  cases h with
  | outermost hevents =>
    subst hqueue
    cases hevents _ List.mem_cons_self
  | @inner items queue stack hevents macroId' hrest =>
    rcases items with _ | ⟨first, items⟩
    · cases hqueue
      cases hrest with
      | outermost hevents' => exact ⟨_, _, rfl, .outermost hevents'⟩
      | inner hevents' macroId' hrest' => exact ⟨_, _, rfl, .inner hevents' macroId' hrest'⟩
    · cases hqueue
      cases hevents _ List.mem_cons_self

theorem Unplayed.of_nil (h : Unplayed stack []) : stack = [[]] := by
  generalize hqueue : ([] : List DynamicMacroItem) = queue at h
  cases h with
  | outermost => rw [← hqueue]
  | inner => simp at hqueue

theorem isEvent_of_replayEvent {item : DynamicMacroItem} {event : ReplayEvent}
    (h : item.replayEvent = some event) : item.isEvent = true := by
  cases item with
  | press => rfl
  | release => rfl
  | endMacro => cases h

theorem Plays.ticked {pop : List Obs} {event : Option ReplayEvent} (h : Plays stack replay)
    (hticked : ReplayTicked replay replay' pop event) :
    ∃ stack', (pop ++ event.toList.map Obs.event).foldlM follow stack = some stack' ∧
      Plays stack' replay' := by
  cases hticked with
  | idle => exact ⟨stack, rfl, h⟩
  | wait => exact ⟨stack, rfl, h⟩
  | finish _ hitems =>
    rw [plays_some, hitems] at h
    rw [h.of_nil]
    exact ⟨[], rfl, rfl⟩
  | event _ hitems hitem =>
    rw [plays_some, hitems] at h
    rcases h.of_item (isEvent_of_replayEvent hitem) with ⟨items, stack', rfl, hrest⟩
    exact ⟨items :: stack', by simp [follow, hitem], hrest⟩
  | endMacro _ hitems =>
    rw [plays_some, hitems] at h
    rcases h.of_endMacro with ⟨items, stack', rfl, hrest⟩
    exact ⟨items :: stack', rfl, hrest⟩

end Follow

section Deliver

variable {σ ε : Type} {engine : ReplayEngine σ ε} {st st' : σ × Option DynamicMacroReplayState}
  {obs : List Obs}

/-- What a tick with its event does: macros are played, and the replay is ticked. -/
theorem deliverTick_cases (h : deliverTick engine .recorded st = .ok (st', obs)) :
    ∃ calls pop event, ReplayTicked (playCalls st.2 calls).1 st'.2 pop event ∧
      obs = .tick :: (playCalls st.2 calls).2 ++ (pop ++ event.toList.map Obs.event) := by
  unfold deliverTick at h
  rcases bind_eq_ok.mp h with ⟨⟨st₁, obs₁, event⟩, htick, hrest⟩
  rcases replayTick_cases htick with ⟨calls, pop, hticked, rfl⟩
  refine ⟨calls, pop, event, ?_⟩
  rcases event with _ | event
  · cases hrest
    exact ⟨hticked, by simp⟩
  · cases hrest
    exact ⟨hticked, by simp⟩

theorem Plays.deliverTick {stack : List (List DynamicMacroItem)} (h : Plays stack st.2)
    (htick : Kanata.deliverTick engine .recorded st = .ok (st', obs)) :
    ∃ stack', obs.foldlM follow stack = some stack' ∧ Plays stack' st'.2 := by
  rcases deliverTick_cases htick with ⟨calls, pop, event, hticked, rfl⟩
  rcases h.playCalls calls with ⟨stack₁, hcalls, h₁⟩
  rcases h₁.ticked hticked with ⟨stack₂, hpop, h₂⟩
  refine ⟨stack₂, ?_, h₂⟩
  have htick : follow stack .tick = some stack := rfl
  rw [List.cons_append, List.foldlM_cons, htick, Option.bind_eq_bind, Option.bind_some,
    List.foldlM_append, hcalls]
  exact hpop

/-- The stack of macros follows all ticks. -/
theorem Plays.deliverTicks : ∀ {n : Nat} {st st' : σ × Option DynamicMacroReplayState}
    {obs : List Obs} {stack : List (List DynamicMacroItem)}, Plays stack st.2 →
    Kanata.deliverTicks engine .recorded n st = .ok (st', obs) →
    ∃ stack', obs.foldlM follow stack = some stack' ∧ Plays stack' st'.2
  | 0, st, st', obs, stack, h, hticks => by
    cases hticks
    exact ⟨stack, rfl, h⟩
  | n + 1, st, st', obs, stack, h, hticks => by
    rcases andThen_eq_ok.mp hticks with ⟨st₁, obs₁, obs₂, hfirst, hrest, rfl⟩
    rcases h.deliverTick hfirst with ⟨stack₁, hfollow₁, h₁⟩
    rcases h₁.deliverTicks hrest with ⟨stack₂, hfollow₂, h₂⟩
    refine ⟨stack₂, ?_, h₂⟩
    rw [List.foldlM_append, hfollow₁]
    exact hfollow₂

end Deliver

/-! ## The ticks between events -/

/-- What has happened in the replay since its last event: the ticks, and the macros
that ended. -/
structure Since where
  delay : Nat
  ticks : Nat
  ends : Nat
deriving DecidableEq, Repr

def Obs.isEvent : Obs → Bool
  | .event _ => true
  | _ => false

def since : Option Since → Obs → Option Since
  | _, .event event => some ⟨event.delay, 0, 0⟩
  | _, .finished => none
  | c, .tick => c.map fun c => { c with ticks := c.ticks + 1 }
  | c, .endMacro => c.map fun c => { c with ends := c.ends + 1 }
  | c, _ => c

/-- Each event that is not the first one of its replay comes when `P` holds of what has
happened since the one before it. -/
def EventsWhen (P : Since → Prop) : Option Since → List Obs → Prop
  | _, [] => True
  | c, o :: trace => (o.isEvent = true → ∀ s ∈ c, P s) ∧ EventsWhen P (since c o) trace

instance decidableEventsWhen (P : Since → Prop) [DecidablePred P] :
    ∀ c trace, Decidable (EventsWhen P c trace)
  | _, [] => .isTrue trivial
  | c, o :: trace =>
    have := decidableEventsWhen P (since c o) trace
    inferInstanceAs (Decidable (_ ∧ _))

theorem eventsWhen_append {P : Since → Prop} {c : Option Since} {trace trace' : List Obs} :
    EventsWhen P c (trace ++ trace') ↔
      EventsWhen P c trace ∧ EventsWhen P (trace.foldl since c) trace' := by
  induction trace generalizing c with
  | nil => simp [EventsWhen]
  | cons o trace ih => simp only [List.cons_append, EventsWhen, List.foldl_cons, ih, and_assoc]

theorem EventsWhen.mono {P Q : Since → Prop} (hPQ : ∀ s, P s → Q s) {c : Option Since}
    {trace : List Obs} (h : EventsWhen P c trace) : EventsWhen Q c trace := by
  induction trace generalizing c with
  | nil => trivial
  | cons o trace ih => exact ⟨fun ho s hs => hPQ s (h.1 ho s hs), ih h.2⟩

theorem EventsWhen.and {P Q : Since → Prop} {c : Option Since} {trace : List Obs}
    (h : EventsWhen P c trace) (h' : EventsWhen Q c trace) :
    EventsWhen (fun s => P s ∧ Q s) c trace := by
  induction trace generalizing c with
  | nil => trivial
  | cons o trace ih => exact ⟨fun ho s hs => ⟨h.1 ho s hs, h'.1 ho s hs⟩, ih h.2 h'.2⟩

/-- The ticks after which the next item comes. The end of a macro is followed by five. -/
def Since.due (s : Since) : Nat := max 1 s.delay + 5 * s.ends

/-- The delay that remains is what is missing to the tick that is due. -/
def Timed (c : Option Since) (replay : Option DynamicMacroReplayState) : Prop :=
  ∀ s ∈ c, ∃ state, replay = some state ∧ max 1 state.delayRemaining + s.ticks = s.due

section Timing

variable {c : Option Since} {replay replay' : Option DynamicMacroReplayState}

theorem timed_none (replay : Option DynamicMacroReplayState) : Timed none replay := by
  intro s hs
  cases hs

theorem timed_some {s : Since} {state : DynamicMacroReplayState} :
    Timed (some s) (some state) ↔ max 1 state.delayRemaining + s.ticks = s.due := by
  simp [Timed]

/-- A replay that goes on keeps its delay when a macro is played. -/
theorem Timed.playMacro {macroId : Nat} {recordedMacros : Nat → Option (List DynamicMacroItem)}
    (h : Timed c replay) : Timed c (Kanata.playMacro macroId recordedMacros replay) := by
  intro s hs
  rcases h s hs with ⟨state, rfl, hdue⟩
  unfold Kanata.playMacro
  dsimp only
  split
  · exact ⟨state, rfl, hdue⟩
  · split
    · exact ⟨state, rfl, hdue⟩
    · exact ⟨_, rfl, hdue⟩

theorem Timed.playCalls (h : Timed c replay) (calls : List PlayCall) :
    Timed c (Kanata.playCalls replay calls).1 := by
  induction calls generalizing replay with
  | nil => exact h
  | cons call calls ih => exact ih h.playMacro

/-- The observations of calls that play macros are no events and end nothing. -/
theorem playCalls_since (P : Since → Prop) (c : Option Since)
    (replay : Option DynamicMacroReplayState) (calls : List PlayCall) :
    (playCalls replay calls).2.foldl since c = c ∧ EventsWhen P c (playCalls replay calls).2 := by
  induction calls generalizing replay with
  | nil => exact ⟨rfl, trivial⟩
  | cons call calls ih =>
    have hplayed :
        (played replay call).foldl since c = c ∧ EventsWhen P c (played replay call) := by
      have hplay : ∀ items : Option (List DynamicMacroItem),
          (items.toList.map Obs.play).foldl since c = c ∧
            EventsWhen P c (items.toList.map Obs.play) := by
        rintro (_ | items)
        · exact ⟨rfl, trivial⟩
        · exact ⟨rfl, nofun, trivial⟩
      unfold played
      split
      · exact hplay _
      · split
        · exact ⟨rfl, trivial⟩
        · exact hplay _
    rw [playCalls, List.foldl_append, hplayed.1, eventsWhen_append, hplayed.1]
    exact ⟨(ih _).1, hplayed.2, (ih _).2⟩

/-- A tick brings the next item nearer, and an item comes when it is due. -/
theorem Timed.ticked {pop : List Obs} {event : Option ReplayEvent} (h : Timed c replay)
    (hticked : ReplayTicked replay replay' pop event) :
    Timed ((pop ++ event.toList.map Obs.event).foldl since (since c .tick)) replay' ∧
      EventsWhen (fun s => s.ticks = s.due) (since c .tick)
        (pop ++ event.toList.map Obs.event) := by
  cases hticked with
  | idle =>
    rcases c with _ | s
    · exact ⟨timed_none none, trivial⟩
    · rcases h s rfl with ⟨_, hnone, _⟩
      cases hnone
  | wait hdelay =>
    refine ⟨?_, trivial⟩
    rcases c with _ | s
    · exact timed_none _
    · rw [timed_some] at h
      refine timed_some.mpr ?_
      simp only [Since.due] at h ⊢
      omega
  | finish => exact ⟨timed_none none, nofun, trivial⟩
  | event hdelay =>
    refine ⟨timed_some.mpr rfl, ?_, trivial⟩
    rintro - s hs
    rcases c with _ | s₀
    · cases hs
    · cases hs
      rw [timed_some] at h
      simp only [Since.due] at h ⊢
      omega
  | endMacro hdelay =>
    refine ⟨?_, nofun, trivial⟩
    rcases c with _ | s
    · exact timed_none _
    · rw [timed_some] at h
      refine timed_some.mpr ?_
      simp only [Since.due] at h ⊢
      omega

variable {σ ε : Type} {engine : ReplayEngine σ ε}

theorem Timed.deliverTick {st st' : σ × Option DynamicMacroReplayState} {obs : List Obs}
    (h : Timed c st.2) (htick : Kanata.deliverTick engine .recorded st = .ok (st', obs)) :
    Timed (obs.foldl since c) st'.2 ∧ EventsWhen (fun s => s.ticks = s.due) c obs := by
  rcases deliverTick_cases htick with ⟨calls, pop, event, hticked, rfl⟩
  have hplayed := playCalls_since (fun s => s.ticks = s.due) (since c .tick) st.2 calls
  have hticked := (h.playCalls calls).ticked hticked
  rw [List.cons_append, List.foldl_cons, List.foldl_append, hplayed.1]
  refine ⟨hticked.1, nofun, ?_⟩
  rw [eventsWhen_append, hplayed.1]
  exact ⟨hplayed.2, hticked.2⟩

/-- All events come when they are due. -/
theorem Timed.deliverTicks : ∀ {n : Nat} {st st' : σ × Option DynamicMacroReplayState}
    {obs : List Obs} {c : Option Since}, Timed c st.2 →
    Kanata.deliverTicks engine .recorded n st = .ok (st', obs) →
    EventsWhen (fun s => s.ticks = s.due) c obs
  | 0, st, st', obs, c, h, hticks => by
    cases hticks
    trivial
  | n + 1, st, st', obs, c, h, hticks => by
    rcases andThen_eq_ok.mp hticks with ⟨st₁, obs₁, obs₂, hfirst, hrest, rfl⟩
    rcases h.deliverTick hfirst with ⟨h₁, hobs₁⟩
    exact eventsWhen_append.mpr ⟨hobs₁, h₁.deliverTicks hrest⟩

end Timing

/-- The macros to play at the next ticks. -/
def scripted : ReplayEngine (List (List PlayCall)) Empty :=
  { tickStates := fun script => .ok (script.tail, script.headD [])
    event := fun script _ => script }

theorem tap_isEvent {osc : OsCode} {held after : Nat} {items : List DynamicMacroItem}
    (h : some [.press osc held, .release osc after] = some items) :
    ∀ item ∈ items, item.isEvent = true := by
  cases h
  simp [DynamicMacroItem.isEvent]

/-- A macro of two events. -/
def tapOf (osc : OsCode) (held after : Nat) : RecordedMacros :=
  { get := fun _ => some [.press osc held, .release osc after]
    isEvent := fun _ _ h => tap_isEvent h }

section Quiet

variable {state : DynamicMacroReplayState} {n m extraTicks extraTicks' : Nat}
  {st : List (List PlayCall) × Option DynamicMacroReplayState}

theorem replayTick_quiet (h : 1 < state.delayRemaining) :
    replayTick scripted .recorded ([], some state) =
      .ok (([], some { state with delayRemaining := state.delayRemaining - 1 }), [.tick],
        none) := by
  have hzero : ¬state.delayRemaining - 1 = 0 := by omega
  simp [replayTick, scripted, playCalls, tickReplayState, popped, hzero, pure, Except.pure]

/-- Ticks before the delay has passed. -/
theorem mainLoop_quiet (h : n < state.delayRemaining)
    (hrest : ∃ obs, mainLoop scripted .recorded m
      ([], some { state with delayRemaining := state.delayRemaining - n }) extraTicks =
        .ok (st, extraTicks', obs)) :
    ∃ obs, mainLoop scripted .recorded (n + m) ([], some state) extraTicks =
      .ok (st, extraTicks', obs) := by
  induction n generalizing state with
  | zero => simpa using hrest
  | succ n ih =>
    rw [Nat.add_right_comm]
    unfold mainLoop
    rw [replayTick_quiet (by omega)]
    have hnext :=
      @ih { state with delayRemaining := state.delayRemaining - 1 } (by dsimp only; omega)
    simp only [Nat.sub_sub, Nat.add_comm 1 n] at hnext
    rcases hnext hrest with ⟨obs, hobs⟩
    simp only [ok_bind, hobs]
    exact ⟨_, rfl⟩

theorem extraLoop_quiet {event : ReplayEvent} (h : n < state.delayRemaining)
    (hrest : ∃ obs, extraLoop scripted .recorded m
      ([], some { state with delayRemaining := state.delayRemaining - n }) = .ok (st, obs) ∧
        .overshot event ∈ obs) :
    ∃ obs, extraLoop scripted .recorded (n + m) ([], some state) = .ok (st, obs) ∧
      .overshot event ∈ obs := by
  induction n generalizing state with
  | zero => simpa using hrest
  | succ n ih =>
    rw [Nat.add_right_comm]
    unfold extraLoop
    rw [replayTick_quiet (by omega)]
    have hnext :=
      @ih { state with delayRemaining := state.delayRemaining - 1 } (by dsimp only; omega)
    simp only [Nat.sub_sub, Nat.add_comm 1 n] at hnext
    rcases hnext hrest with ⟨obs, hobs, hmem⟩
    simp only [ok_bind, hobs]
    exact ⟨_, rfl, List.mem_append_right _ hmem⟩

/-- A macro is played at the third tick, and its delay goes on for two ticks after the
first loop. -/
theorem mainLoop_long (h : n + 2 ≤ u16Max) :
    ∃ obs, mainLoop scripted .recorded (n + 1 + 1 + 1)
      ([[], [], [⟨1, tapOf keyA (n + 2) 0⟩]], none) 0 =
        .ok (([], some ⟨[1], 2, [.release keyA 0]⟩), n + 2, obs) := by
  have hfirst : replayTick scripted .recorded ([[], [], [⟨1, tapOf keyA (n + 2) 0⟩]], none) =
      .ok (([[], [⟨1, tapOf keyA (n + 2) 0⟩]], none), [.tick], none) := rfl
  have hsecond : replayTick scripted .recorded ([[], [⟨1, tapOf keyA (n + 2) 0⟩]], none) =
      .ok (([[⟨1, tapOf keyA (n + 2) 0⟩]], none), [.tick], none) := rfl
  have hthird : replayTick scripted .recorded ([[⟨1, tapOf keyA (n + 2) 0⟩]], none) =
      .ok (([], some ⟨[1], n + 2, [.release keyA 0]⟩),
        [.tick, .play [.press keyA (n + 2), .release keyA 0]],
        some ⟨.press 0 keyA.code, n + 2⟩) := rfl
  have hend : n + 2 - n = 2 := by omega
  have hquiet : ∃ obs, mainLoop scripted .recorded (n + 0)
      ([], some ⟨[1], n + 2, [.release keyA 0]⟩) (n + 2) =
        .ok (([], some ⟨[1], 2, [.release keyA 0]⟩), n + 2, obs) := by
    refine mainLoop_quiet (by dsimp only; omega) ⟨[], ?_⟩
    simp only [hend]
    rfl
  rcases hquiet with ⟨obs, hobs⟩
  have hsat : satAdd 0 (n + 2) = n + 2 := by
    simp only [satAdd]
    omega
  rw [mainLoop, hfirst]
  simp only [ok_bind]
  rw [mainLoop, hsecond]
  simp only [ok_bind]
  rw [mainLoop, hthird]
  simp only [ok_bind, hsat]
  rw [Nat.add_zero] at hobs
  change ∃ obs, (mainLoop scripted .recorded n
    ([], some ⟨[1], n + 2, [.release keyA 0]⟩) (n + 2) >>= _ >>= _ >>= _) = _
  rw [hobs]
  exact ⟨_, rfl⟩

/-- The second loop goes on until the next event, if the milliseconds are taken for none. -/
theorem tickMs_overshoots (h : n + 2 ≤ u16Max) (hcast : (n + 1 + 1 + 1) % (u16Max + 1) = 0) :
    ∃ st trace, tickChunks scripted .recorded [n + 1 + 1 + 1]
        ([[], [], [⟨1, tapOf keyA (n + 2) 0⟩]], none) = .ok (st, trace) ∧
      .overshot ⟨.release 0 keyA.code, 0⟩ ∈ trace := by
  rcases mainLoop_long h with ⟨obs, hmain⟩
  have hlast : ∃ obs, extraLoop scripted .recorded (n + 1)
      ([], some ⟨[1], 1, [.release keyA 0]⟩) = .ok (([], some ⟨[1], 0, []⟩), obs) ∧
        .overshot ⟨.release 0 keyA.code, 0⟩ ∈ obs :=
    ⟨[.tick, .overshot ⟨.release 0 keyA.code, 0⟩], rfl, by simp⟩
  rcases @extraLoop_quiet ⟨[1], 2, [.release keyA 0]⟩ 1 (n + 1) _ _ (by decide) hlast with
    ⟨obs', hextra, hmem⟩
  refine ⟨([], some ⟨[1], 0, []⟩), (obs ++ obs') ++ [], ?_, ?_⟩
  · refine andThen_eq_ok.mpr ⟨_, obs ++ obs', [], ?_, rfl, rfl⟩
    unfold tickMs
    rw [hmain, hcast]
    simp only [ok_bind, Nat.sub_zero]
    rw [Nat.add_comm 1 (n + 1)] at hextra
    rw [hextra]
    rfl
  · simp [hmem]

end Quiet

end Kanata
