import Kanata.Chord.Ledger
import Kanata.Parser.ChordFile

/-!
# Kanata.Chord.Capacity — when a tick has room

The fixed capacities of chords v2: sixteen events in the drain queue, sixteen
presses in a scan, sixteen keys to release, ten active chords. `HasRoom` says on
the state before a tick when they suffice, and `tick_ok_iff` that the tick panics
exactly when they do not.

`never_panics_iff` carries this to runs. The parser puts no upper bound on the
keys of a chord (`never_panics_fails`).
-/

namespace Kanata.Chord

open Fallible ChordsV2 Machine Session

variable {A : Type}

/-- The same chords with debug assertions, which check that no press is lost. -/
def ChordsConfig.checked (cfg : ChordsConfig A) : ChordsConfig A :=
  { cfg with debugAssertions := true }

/-! ## Room -/

/-- The tick looks at the presses. -/
def Looks (activeLayer : Nat) (s : ChordsV2 A) : Prop :=
  s.ticksToIgnoreChord = 0 ∧ canSkip activeLayer s = false

/-- Room for the virtual events, the presses, the keys of the chords to activate
and these chords. -/
structure RoomToLook (cfg : ChordsConfig A) (activeLayer : Nat) (s : ChordsV2 A) : Prop where
  virtual : (virtualEvents s.queue.items).length ≤ smolQLen
  presses : (s.queue.items.filter isReal).countP isPress ≤ smolQLen
  keys : ∀ c ∈ (queueDecision cfg activeLayer 0 (pendingOf s.queue.items)).activations, KeysFit c
  chords : s.activeChords.items.length +
    (queueDecision cfg activeLayer 0 (pendingOf s.queue.items)).activations.length ≤
      activeChordsLen

/-- The tick has room for everything it pushes. -/
def HasRoom (cfg : ChordsConfig A) (activeLayer : Nat) (s : ChordsV2 A) : Prop :=
  (Looks activeLayer s → RoomToLook cfg activeLayer s) ∧
    (releasing cfg activeLayer s = 0 ∨
      leaving cfg activeLayer s + releasing cfg activeLayer s ≤ smolQLen)

/-! ## One tick -/

theorem pending_presses_le (queue : List Queued) :
    (pendingOf queue).countP isPress ≤ (queue.filter isReal).countP isPress :=
  (List.dropWhile_sublist _).countP_le

/-- Draining does not panic exactly when there is room to look. -/
theorem drained_iff {cfg : ChordsConfig A} {activeLayer : Nat} {s : ChordsV2 A}
    (haged : Aged s.queue.items) :
    (∃ s₁, Drained cfg.checked activeLayer s s₁) ↔
      (Looks activeLayer s → RoomToLook cfg activeLayer s) := by
  have hqueue := settled_queue activeLayer s
  have hpending : Aged (settled activeLayer s).queue.items :=
    haged.sublist (hqueue ▸ pendingOf_sublist _)
  have hlen : (settled activeLayer s).activeChords.items.length =
      s.activeChords.items.length := by simp [settled]
  constructor
  · rintro ⟨s₁, hdrained⟩ ⟨hignore, hskip⟩
    cases hdrained with
    | ignoring hne => omega
    | skipped _ hskip' => simp [hskip] at hskip'
    | processed _ _ hroom hfit hpresses =>
      have hperform := processPresses_ok hpending hpresses
      rw [hqueue] at hperform
      rcases perform_eq_ok.mp hperform with ⟨hkeys, hle, _⟩
      rw [hlen] at hle
      exact ⟨hroom, hfit rfl, hkeys, hle⟩
  · intro h
    by_cases hignore : 0 < s.ticksToIgnoreChord
    · exact ⟨_, .ignoring hignore⟩
    · have hzero : s.ticksToIgnoreChord = 0 := by omega
      by_cases hskip : canSkip activeLayer s = true
      · exact ⟨_, .skipped hzero hskip⟩
      · have hskip := Bool.eq_false_iff.mpr hskip
        have hroom := h ⟨hzero, hskip⟩
        have hfit : PressesFit cfg.checked
            ((settled activeLayer s).queue.items.countP isPress) := by
          intro _
          rw [hqueue]
          exact Nat.le_trans (pending_presses_le _) hroom.presses
        have heq : processPresses cfg.checked activeLayer (settled activeLayer s) =
            perform cfg.checked (headSince (settled activeLayer s).queue.items)
              (releaseFound (settled activeLayer s).queue.items)
              (queueDecision cfg.checked activeLayer 0 (settled activeLayer s).queue.items)
              (settled activeLayer s) := processPresses_of_fit hpending hfit
        rw [hqueue] at heq
        -- the active chords with those that are activated
        let achs : Bounded activeChordsLen (ActiveChord A) :=
          ⟨(settled activeLayer s).activeChords.items ++
            spawnAll (headSince (pendingOf s.queue.items)) (releaseFound (pendingOf s.queue.items))
              (queueDecision cfg activeLayer 0 (pendingOf s.queue.items)).taken
              (coordAfter^[(queueDecision cfg activeLayer 0 (pendingOf s.queue.items)).burned]
                s.nextCoord)
              (queueDecision cfg activeLayer 0 (pendingOf s.queue.items)).activations, by
            rw [List.length_append, spawnAll_length, hlen]
            exact hroom.chords⟩
        have hperform : perform cfg.checked (headSince (pendingOf s.queue.items))
            (releaseFound (pendingOf s.queue.items))
            (queueDecision cfg activeLayer 0 (pendingOf s.queue.items)) (settled activeLayer s) =
              .ok (performed cfg.checked
                (queueDecision cfg activeLayer 0 (pendingOf s.queue.items)) achs
                (settled activeLayer s)) :=
          perform_eq_ok.mpr ⟨hroom.keys, hlen ▸ hroom.chords, achs, rfl, rfl⟩
        exact ⟨_, .processed hzero hskip hroom.virtual (fun _ => hroom.presses)
          (heq.trans hperform)⟩

theorem pushAll_length (q : SmolQueue) (qds : List Queued) :
    (pushAll q qds).items.length = min smolQLen (q.items.length + qds.length) := by
  induction qds generalizing q with
  | nil =>
    have := q.length_le
    simp only [pushAll_nil, List.length_nil]
    omega
  | cons qd qds ih =>
    have hle := q.length_le
    rw [pushAll_cons, ih, List.length_cons]
    rcases Bounded.pushBack_cases (by decide) q qd with ⟨hitems, _⟩ | ⟨_, _, hq, hfull, hitems⟩
    · rw [hitems, List.length_append, List.length_singleton]
      omega
    · have hfull := Bounded.isFull_iff.mp hfull
      rw [hq, List.length_cons] at hfull
      rw [hitems, hq, List.length_append, List.length_singleton, List.length_cons]
      omega

/-- A tick does not panic exactly when it has room. -/
theorem tick_ok_iff {cfg : ChordsConfig A} {activeLayer : Nat} {s : ChordsV2 A}
    (haged : Aged s.age.queue.items) :
    (∃ r, tickChv2 cfg.checked activeLayer s = .ok r) ↔ HasRoom cfg activeLayer s.age := by
  -- the pushes of a tick, once it is known where draining leads
  have hroom : ∀ s₁, Drained cfg.checked activeLayer s.age s₁ →
      ((pushAll .empty (announced activeLayer s s₁)).items.length + (releasedChords s₁).length ≤
        smolQLen ↔ releasing cfg activeLayer s.age = 0 ∨
          leaving cfg activeLayer s.age + releasing cfg activeLayer s.age ≤ smolQLen) := by
    intro s₁ hdrained
    -- the debug assertions change neither count
    have hreleasing : (releasedChords s₁).length = releasing cfg activeLayer s.age :=
      (hdrained.releasing haged).trans rfl
    have hleaving : (announced activeLayer s s₁).length = leaving cfg activeLayer s.age :=
      (hdrained.leaving haged).trans rfl
    rw [pushAll_length, hreleasing, hleaving, Bounded.empty_items, List.length_nil, Nat.zero_add]
    omega
  constructor
  · rintro ⟨r, h⟩
    rcases tick_eq_ok.mp h with ⟨s₁, hdrained, hfit, _⟩
    exact ⟨(drained_iff haged).mp ⟨s₁, hdrained⟩, (hroom s₁ hdrained).mp hfit⟩
  · rintro ⟨hlook, hfit⟩
    rcases (drained_iff haged).mpr hlook with ⟨s₁, hdrained⟩
    exact ⟨_, tick_eq_ok.mpr ⟨s₁, hdrained, (hroom s₁ hdrained).mpr hfit, rfl⟩⟩

/-- Without debug assertions the same happens. -/
theorem tick_of_checked {cfg : ChordsConfig A} {activeLayer : Nat} {s : ChordsV2 A}
    {r : ChordsV2 A × SmolQueue} (haged : Aged s.age.queue.items)
    (h : tickChv2 cfg.checked activeLayer s = .ok r) : tickChv2 cfg activeLayer s = .ok r := by
  rcases tick_eq_ok.mp h with ⟨s₁, hdrained, hfit, hr⟩
  refine tick_eq_ok.mpr ⟨s₁, ?_, hfit, hr⟩
  cases hdrained with
  | ignoring hignore => exact .ignoring hignore
  | skipped hignore hskip => exact .skipped hignore hskip
  | processed hignore hskip hroom hpressed hpresses =>
    have hqueue := settled_queue activeLayer s.age
    have hpending : Aged (settled activeLayer s.age).queue.items :=
      haged.sublist (hqueue ▸ pendingOf_sublist _)
    have hperform := processPresses_ok hpending hpresses
    have hle : (settled activeLayer s.age).queue.items.countP isPress ≤ smolQLen := by
      rw [hqueue]
      exact Nat.le_trans (pending_presses_le _) (hpressed rfl)
    refine .processed hignore hskip hroom (fun _ => hpressed rfl) ?_
    rw [processPresses_of_fit hpending fun _ => hle]
    exact hperform

/-! ## Runs -/

/-- Every tick has room. -/
def StepHasRoom (cfg : ChordsConfig A) (s : Session A) : Op → Prop
  | .tick activeLayer => HasRoom cfg activeLayer s.chv2.age
  | _ => True

theorem step_ok_iff {cfg : ChordsConfig A} {s : Session A} (hs : s.Ordered) (op : Op) :
    (∃ r, Session.step cfg.checked s op = .ok r) ↔ StepHasRoom cfg s op := by
  cases op with
  | push event => exact ⟨fun _ => trivial, fun _ => ⟨_, rfl⟩⟩
  | getAction => exact ⟨fun _ => trivial, fun _ => ⟨_, rfl⟩⟩
  | tick activeLayer =>
    have haged : Aged s.chv2.age.queue.items := (QueueOrdered.tick hs).aged
    have htick : (∃ r, tickChv2 cfg.checked activeLayer s.chv2 = .ok r) ↔
        HasRoom cfg activeLayer s.chv2.age := tick_ok_iff haged
    constructor
    · rintro ⟨⟨s', o⟩, h⟩
      rcases step_tick_eq_ok.mp h with ⟨chv2, q, h, _, _⟩
      exact htick.mp ⟨(chv2, q), h⟩
    · intro h
      rcases htick.mpr h with ⟨⟨chv2, q⟩, h⟩
      exact ⟨({ s with chv2 }, .ticked q), step_tick_eq_ok.mpr ⟨chv2, q, h, rfl, rfl⟩⟩

theorem run_of_checked {cfg : ChordsConfig A} {ops : List Op} {s : Session A}
    {r : Session A × List (Out A)} (hs : s.Ordered)
    (h : run (Session.step cfg.checked) s ops = .ok r) : run (Session.step cfg) s ops = .ok r := by
  rcases r with ⟨s', os⟩
  induction ops generalizing s os with
  | nil => exact h
  | cons op ops ih =>
    rcases run_cons_eq_ok.mp h with ⟨s₁, o, os', h₁, h₂, rfl⟩
    refine run_cons_eq_ok.mpr ⟨s₁, o, os', ?_, ih (step_ordered hs h₁) os' h₂, rfl⟩
    cases op with
    | push event => exact h₁
    | getAction => exact h₁
    | tick activeLayer =>
      rcases step_tick_eq_ok.mp h₁ with ⟨chv2, q, htick, hs₁, ho⟩
      have haged : Aged s.chv2.age.queue.items := (QueueOrdered.tick hs).aged
      exact step_tick_eq_ok.mpr ⟨chv2, q, tick_of_checked haged htick, hs₁, ho⟩

/-- A run does not panic, and loses no press, exactly when every tick has room. -/
theorem never_panics_iff (cfg : ChordsConfig A) (ops : List Op) :
    ((∃ r, run (Session.step cfg.checked) Session.new ops = .ok r) ↔
      Along (Session.step cfg.checked) (StepHasRoom cfg) Session.new ops) ∧
    ∀ r, run (Session.step cfg.checked) Session.new ops = .ok r →
      run (Session.step cfg) Session.new ops = .ok r := by
  refine ⟨run_ok_iff (fun _ _ _ _ hs h => step_ordered hs h)
    (fun s op hs => step_ok_iff hs op) new_ordered, ?_⟩
  exact fun r h => run_of_checked new_ordered h

/-! ## A chord with too many keys -/

/-- The text position of every item below. -/
def somewhere : Span := default

/-- The names of two keys, and an action that is a number. -/
def twoKeyNames : ChordParserState Nat where
  vars := none
  layerIdxs := []
  strToOscode
    | "a" => some keyA
    | "b" => some keyB
    | _ => none
  parseAction _ := pure 1

/-- No file can be read. -/
def noFiles : ChordFile.ChordFiles Nat where
  readToString _ := none
  firstLayer := []
  keyCodeToString _ := ""
  fromU16 _ := none
  osCodeToString _ := ""
  toLowercase := id
  isUppercase := Char.isUpper

/-- `(defchordsv2 (a b b … b) x 1 all-released ())` with seventeen keys listed. -/
def manyKeys : List SExpr :=
  let atom (t : String) : SExpr := .atomNode t somewhere
  [atom "defchordsv2", .listNode (atom "a" :: List.replicate 16 (atom "b")) somewhere,
    atom "x", atom "1", atom "all-released", .listNode [] somewhere]

/-- A configuration with the given chords. -/
def withChords (chords : ChordsForKeys Nat) : ChordsConfig Nat where
  chords := chords
  configuredTicksToIgnoreChord := minTicksToIgnoreChord
  debugAssertions := false
  ticks_ge := five_le_minTicks

/-- The parser accepts the chord, and pressing its two keys panics. -/
theorem manyKeys_panics :
    (match ChordFile.parseDefchordv2 twoKeyNames noFiles manyKeys with
      | .ok chords => match run (Session.step (withChords chords)) Session.new
          [.push (.press 0 30), .push (.press 0 48), .tick 0] with
        | .ok _ => none
        | .error p => some p.msg
      | .error _ => none) = some "extend: vector is full" := by
  decide +kernel

theorem never_panics_fails :
    ¬ ∀ chords, ChordFile.parseDefchordv2 twoKeyNames noFiles manyKeys = .ok chords →
      ∃ r, run (Session.step (withChords chords)) Session.new
        [.push (.press 0 30), .push (.press 0 48), .tick 0] = .ok r := by
  intro h
  have hpanics := manyKeys_panics
  rcases hparse : ChordFile.parseDefchordv2 twoKeyNames noFiles manyKeys with e | chords
  · simp [hparse] at hpanics
  · rcases h chords hparse with ⟨r, hr⟩
    simp [hparse, hr] at hpanics

end Kanata.Chord
