import Mathlib.Data.List.Range
import Kanata.Chord.Ledger

/-!
# Kanata.Chord.Conservation — where every event goes

Over a run every event that was pushed is emitted once, or waits in the queue,
or was consumed by one chord. Events are followed by their numbers:
`Conserved` counts all numbers handed out so far.

The drain queue holds sixteen events and drops the oldest silently, so the law
needs room in it (`RoomToDrain`).
-/

namespace Kanata.Chord

open Fallible ChordsV2 Machine Session

variable {A : Type}

/-! ## The condition -/

/-- The events that leave in the tick, with the trigger events, fit in the drain
queue: `leaving` counts them on the state before. -/
def RoomToDrain (cfg : ChordsConfig A) (activeLayer : Nat) (s : ChordsV2 A) : Prop :=
  leaving cfg activeLayer s.age ≤ smolQLen

/-- Pushes find room, and every tick is quiet and has room to drain. -/
def Unhurried (cfg : ChordsConfig A) (s : Session A) : Op → Prop
  | .push _ => s.chv2.queue.items.length < queueSize
  | .tick activeLayer => Quiet cfg activeLayer s.chv2.age ∧ RoomToDrain cfg activeLayer s.chv2
  | .getAction => True

instance (cfg : ChordsConfig A) (activeLayer : Nat) (s : ChordsV2 A) :
    Decidable (RoomToDrain cfg activeLayer s) :=
  inferInstanceAs (Decidable (leaving cfg activeLayer s.age ≤ smolQLen))

instance (cfg : ChordsConfig A) (s : Session A) (op : Op) : Decidable (Unhurried cfg s op) :=
  match op with
  | .push _ => inferInstanceAs (Decidable (s.chv2.queue.items.length < queueSize))
  | .tick activeLayer =>
    inferInstanceAs (Decidable (Quiet cfg activeLayer s.chv2.age ∧
      RoomToDrain cfg activeLayer s.chv2))
  | .getAction => .isTrue trivial

/-! ## Emitted events -/

/-- The pushed events that a step emits; trigger events and chord releases have
no number. -/
def emittedBy (l : Log A) : List Queued :=
  match l.out with
  | .ticked q => q.items.filter (·.origin.isSome)
  | _ => []

/-- The pushed events that a run emits, in order. -/
def emitted (ls : List (Log A)) : List Queued := ls.flatMap emittedBy

theorem emitted_append (ls : List (Log A)) (l : Log A) :
    emitted (ls ++ [l]) = emitted ls ++ emittedBy l := by
  simp [emitted]

theorem triggerEvents_origin (n : Nat) (s : ChordsV2 A) :
    (triggerEvents n s).filter (·.origin.isSome) = [] := by
  rw [List.filter_eq_nil_iff]
  intro qd hqd
  rcases List.mem_append.mp hqd with hqd | hqd <;> split at hqd <;>
    simp_all [Queued.newPress, Queued.newRelease]

theorem chordReleases_origin (achs : List (ActiveChord A)) :
    (chordReleases achs).filter (·.origin.isSome) = [] := by
  rw [List.filter_eq_nil_iff]
  intro qd hqd
  rcases List.mem_map.mp hqd with ⟨ach, _, rfl⟩
  simp [Queued.newRelease]

/-- With room, a tick emits exactly what it drained. -/
theorem tick_emits {cfg : ChordsConfig A} {activeLayer : Nat} {s s₁ : ChordsV2 A}
    (haged : Aged s.age.queue.items) (hdrained : Drained cfg activeLayer s.age s₁)
    (hroom : (pushAll .empty (announced activeLayer s s₁)).items.length +
      (releasedChords s₁).length ≤ smolQLen)
    (hfits : RoomToDrain cfg activeLayer s)
    (hnum : ∀ qd ∈ drainedEvents activeLayer s.age, qd.origin.isSome = true) :
    (pushAll .empty (announced activeLayer s s₁ ++
      chordReleases (releasedChords s₁))).items.filter (·.origin.isSome) =
        drainedEvents activeLayer s.age := by
  rw [RoomToDrain, ← hdrained.leaving haged] at hfits
  have hannounced := pushAll_items (q := .empty) (by simpa using hfits)
  rw [hannounced, Bounded.empty_items, List.nil_append] at hroom
  rw [pushAll_items (by simpa [chordReleases] using hroom), Bounded.empty_items, List.nil_append,
    List.filter_append, announced, List.filter_append, triggerEvents_origin, chordReleases_origin,
    List.append_nil, List.append_nil]
  exact List.filter_eq_self.mpr hnum

/-! ## Conservation -/

/-- Every number handed out is emitted, queued or consumed, once in all. -/
structure Conserved (ls : List (Log A)) (s : Session A) : Prop where
  ordered : s.Ordered
  all : (arrivalsOf (emitted ls) ++ (arrivalsOf s.chv2.queue.items ++ consumed ls)).Perm
    (List.range s.arrived.length)
  inOrder : (realArrivals (emitted ls) ++ realArrivals s.chv2.queue.items).Pairwise (· < ·)
  unchanged : ∀ qd ∈ emitted ls, ∃ n, qd.origin = some n ∧ s.arrived[n]? = some qd.event
  presses : ∀ n ∈ consumed ls, ∃ j, s.arrived[n]? = some (.press 0 j)

theorem Conserved.tick {cfg : ChordsConfig A} {ls : List (Log A)} {s s' : Session A}
    {activeLayer : Nat} {l : Log A} (h : Conserved ls s)
    (hcond : Unhurried cfg s (.tick activeLayer))
    (hstep : stepLogged cfg s (.tick activeLayer) = .ok (s', l)) : Conserved (ls ++ [l]) s' := by
  have hord : s'.Ordered := step_ordered h.ordered (stepLogged_eq_ok.mp hstep).1
  rcases stepLogged_tick hstep with ⟨s₁, hdrained, hroom, rfl, hout, hact, _⟩
  rcases hcond with ⟨hquiet, hfits⟩
  have hage : QueueOrdered s.arrived s.chv2.age.queue.items := QueueOrdered.tick h.ordered
  have hsplit := hdrained.split hage hquiet
  have hsub := drainedEvents_subset activeLayer s.chv2.age
  have hlen : s.chv2.age.activeChords.items.length = s.chv2.activeChords.items.length := by
    simp [age]
  rw [hlen, ← hact] at hsplit
  have hem : emittedBy l = drainedEvents activeLayer s.chv2.age := by
    simp only [emittedBy, hout]
    refine tick_emits hage.aged hdrained hroom hfits fun qd hqd => ?_
    rcases hage.numbered qd (hsub qd hqd) with ⟨n, hn, _⟩
    simp [hn]
  have harrivals : arrivalsOf s.chv2.age.queue.items = arrivalsOf s.chv2.queue.items :=
    arrivalsOf_map_tickQd _
  have hreal : realArrivals s.chv2.age.queue.items = realArrivals s.chv2.queue.items := by
    show arrivalsOf ((s.chv2.queue.items.map Queued.tickQd).filter isReal) = _
    rw [List.filter_map, arrivalsOf_map_tickQd]
    rfl
  refine ⟨hord, ?_, ?_, ?_, ?_⟩
  · -- the queue is split into drained, kept and consumed
    refine List.Perm.trans ?_ h.all
    rw [emitted_append, arrivalsOf_append, hem, consumed_append, ← harrivals, List.append_assoc]
    refine List.Perm.append_left _ ?_
    refine List.Perm.trans ?_ (hsplit.perm.append_right (consumed ls))
    simp only [List.append_assoc]
    refine List.Perm.append_left _ (List.Perm.append_left _ ?_)
    exact List.perm_append_comm
  · rw [emitted_append, realArrivals, List.filter_append, arrivalsOf_append, List.append_assoc, hem]
    refine h.inOrder.sublist ?_
    rw [← hreal]
    exact List.Sublist.append (List.Sublist.refl _) hsplit.inOrder
  · intro qd hqd
    rw [emitted_append, hem] at hqd
    rcases List.mem_append.mp hqd with hqd | hqd
    · exact h.unchanged qd hqd
    · exact hage.numbered qd (hsub qd hqd)
  · intro n hn
    rw [consumed_append] at hn
    rcases List.mem_append.mp hn with hn | hn
    · exact h.presses n hn
    · rcases hsplit.presses n hn with ⟨qd, hqd, ho, j, hev⟩
      rcases hage.numbered qd hqd with ⟨m, hm, harr⟩
      rw [ho, Option.some.injEq] at hm
      exact ⟨j, by rw [hm, harr, hev]⟩

theorem Conserved.push {cfg : ChordsConfig A} {ls : List (Log A)} {s s' : Session A}
    {event : Event} {l : Log A} (h : Conserved ls s) (hcond : Unhurried cfg s (.push event))
    (hstep : stepLogged cfg s (.push event) = .ok (s', l)) : Conserved (ls ++ [l]) s' := by
  have hord : s'.Ordered := step_ordered h.ordered (stepLogged_eq_ok.mp hstep).1
  rcases stepLogged_eq_ok.mp hstep with ⟨hpush, hact, _⟩
  simp only [Session.step, stepWith, pure_eq_ok, Prod.mk.injEq] at hpush
  rcases hpush with ⟨rfl, hout⟩
  simp only [activatedBy] at hact
  have hroom := (Bounded.pushBack_of_lt hcond ⟨event, 0, some s.arrived.length⟩).1
  have hqueue : (s.chv2.pushBackChv2 ⟨event, 0, some s.arrived.length⟩).1.queue.items =
      s.chv2.queue.items ++ [⟨event, 0, some s.arrived.length⟩] := hroom
  have hem : emitted (ls ++ [l]) = emitted ls := by simp [emitted_append, emittedBy, ← hout]
  have hcon : consumed (ls ++ [l]) = consumed ls := by simp [consumed_append, hact]
  have hold : ∀ {n : Nat} {e : Event}, s.arrived[n]? = some e →
      (s.arrived ++ [event])[n]? = some e := by
    intro n e hn
    rw [List.getElem?_append_left (List.getElem?_eq_some_iff.mp hn).1, hn]
  refine ⟨hord, ?_, ?_, ?_, ?_⟩
  · -- the new number joins the queue
    simp only [hem, hcon, hqueue, arrivalsOf_append, List.length_append, List.length_singleton,
      List.range_succ]
    refine List.Perm.trans ?_ (h.all.append_right [s.arrived.length])
    simp only [List.append_assoc]
    refine List.Perm.append_left _ (List.Perm.append_left _ ?_)
    exact List.perm_append_comm
  · -- and is greater than all before it
    have hnum := QueueOrdered.lt h.ordered
    simp only [hem, hqueue, realArrivals, List.filter_append, arrivalsOf_append]
    rw [← List.append_assoc]
    refine List.pairwise_append.mpr ⟨h.inOrder, ?_, ?_⟩
    · simp only [List.filter_cons, List.filter_nil]
      split <;> simp [arrivalsOf]
    · intro a ha b hb
      have hb : b = s.arrived.length := by
        have := ((List.filter_sublist (p := isReal)
          (l := [⟨event, 0, some s.arrived.length⟩])).filterMap (·.origin)).subset hb
        simpa using this
      have hmem : a ∈ List.range s.arrived.length := by
        refine h.all.subset ?_
        rcases List.mem_append.mp ha with ha | ha
        · exact List.mem_append_left _ ((List.filter_sublist.filterMap _).subset ha)
        · exact List.mem_append_right _
            (List.mem_append_left _ ((List.filter_sublist.filterMap _).subset ha))
      rw [hb]
      exact List.mem_range.mp hmem
  · intro qd hqd
    rw [hem] at hqd
    rcases h.unchanged qd hqd with ⟨n, hn, hev⟩
    exact ⟨n, hn, hold hev⟩
  · intro n hn
    rw [hcon] at hn
    rcases h.presses n hn with ⟨j, hj⟩
    exact ⟨j, hold hj⟩

theorem Conserved.step {cfg : ChordsConfig A} {ls : List (Log A)} {s s' : Session A} {op : Op}
    {l : Log A} (h : Conserved ls s) (hcond : Unhurried cfg s op)
    (hstep : stepLogged cfg s op = .ok (s', l)) : Conserved (ls ++ [l]) s' := by
  cases op with
  | push event => exact h.push hcond hstep
  | tick activeLayer => exact h.tick hcond hstep
  | getAction =>
    -- handing out an action moves no event
    have hord : s'.Ordered := step_ordered h.ordered (stepLogged_eq_ok.mp hstep).1
    rcases stepLogged_eq_ok.mp hstep with ⟨haction, hact, _⟩
    simp only [Session.step, stepWith, pure_eq_ok, Prod.mk.injEq] at haction
    rcases haction with ⟨rfl, hout⟩
    simp only [activatedBy] at hact
    have hem : emitted (ls ++ [l]) = emitted ls := by simp [emitted_append, emittedBy, ← hout]
    have hcon : consumed (ls ++ [l]) = consumed ls := by simp [consumed_append, hact]
    refine ⟨hord, ?_, ?_, ?_, ?_⟩
    · rw [hem, hcon]
      exact h.all
    · rw [hem]
      exact h.inOrder
    · rw [hem]
      exact h.unchanged
    · rw [hcon]
      exact h.presses

/-- In an unhurried run every pushed event is emitted once and unchanged, or
still waits, or is a real press that one chord consumed; and real events come out
in order of arrival. -/
theorem events_conserved (cfg : ChordsConfig A) (ops : List Op)
    (h : Along (Session.step cfg) (Unhurried cfg) Session.new ops) :
    ∀ s ls, run (stepLogged cfg) Session.new ops = .ok (s, ls) → Conserved ls s := by
  intro s ls hrun
  have hstart : Conserved ([] : List (Log A)) Session.new :=
    ⟨new_ordered, List.Perm.refl _, List.Pairwise.nil, by simp [emitted], by simp [consumed]⟩
  exact run_history (fun _ _ _ _ _ hinv hP hstep => Conserved.step hinv hP hstep) hstart
    (along_stepLogged h) hrun

/-! ## A lost event -/

/-- A key without chords starts the ignore timer; in the next tick it leaves the
queue together with sixteen more events. -/
def seventeenLeave : List Op :=
  [.push (.press 0 99), .tick 0] ++ (List.range 16).map (fun j => .push (.press 0 (100 + j))) ++
    [.tick 0]

/-- The first event is neither emitted nor queued nor consumed. -/
theorem seventeenLeave_log :
    (run (stepLogged oneChord) Session.new seventeenLeave).map (fun r =>
      (arrivalsOf (emitted r.2), arrivalsOf r.1.chv2.queue.items, consumed r.2,
        r.1.arrived.length)) = .ok (List.range' 1 16, [], [], 17) := by
  decide +kernel

theorem events_conserved_fails :
    ¬ ∀ s ls, run (stepLogged oneChord) Session.new seventeenLeave = .ok (s, ls) →
      Conserved ls s := by
  intro h
  have hlog := seventeenLeave_log
  rcases hr : run (stepLogged oneChord) Session.new seventeenLeave with e | ⟨s, ls⟩
  · simp [hr, Except.map] at hlog
  · simp only [hr, Except.map, Except.ok.injEq, Prod.mk.injEq] at hlog
    rcases hlog with ⟨hem, hq, hcon, hlen⟩
    have hall := (h s ls hr).all.length_eq
    rw [hem, hq, hcon, hlen] at hall
    simp at hall

/-- A chord and a key without chords. -/
def chordAndKey : List Op :=
  [.push (.press 0 30), .push (.press 0 48), .tick 0, .push (.press 0 99), .tick 0, .tick 0]

theorem events_conserved_chord :
    ∃ s ls, run (stepLogged oneChord) Session.new chordAndKey = .ok (s, ls) ∧ Conserved ls s := by
  obtain ⟨⟨s, ls⟩, hrun⟩ : ∃ r, run (stepLogged oneChord) Session.new chordAndKey = .ok r :=
    exists_ok_of_isOk (by decide)
  exact ⟨s, ls, hrun, events_conserved oneChord chordAndKey (by decide) s ls hrun⟩

end Kanata.Chord
