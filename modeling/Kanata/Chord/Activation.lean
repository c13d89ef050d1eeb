import Mathlib.Data.List.Nodup
import Kanata.Chord.Session

/-!
# Kanata.Chord.Activation — which chord is activated

What a call of `process_presses` activates, under which condition it is at most
one chord, and that over a run no press is consumed twice.

* `ActivationLaw`: the call activates nothing, or one enabled chord whose keys
  are those of the first presses, and exactly these presses leave the queue;
* `Rushed`: the last key of a chord that stands alone comes when a decision is
  due anyway. The loop activates the chord and so does the block after it;
* `Repressed`: a key of a completed chord has two presses in the queue, and the
  final `retain` removes both.
-/

namespace Kanata.Chord

open Fallible ChordsV2 Machine Session

variable {A : Type}

/-! ## Where the scan stops -/

/-- A chord that is found is enabled and has just these keys. -/
theorem findCompleted_some {activeLayer : Nat} {presses : List PressWithTime}
    {chords : List (ChordV2 A)} {c : ChordV2 A}
    (h : findCompleted activeLayer presses chords = some c) :
    c ∈ chords ∧ isEnabled activeLayer c = true ∧ sameKeys presses c = true := by
  have hmem := List.mem_of_find?_eq_some h
  rcases List.mem_filter.mp hmem with ⟨hmem, henabled⟩
  exact ⟨hmem, henabled, List.find?_some h⟩

/-- The chords that the presses may still become. -/
theorem mem_candidates {possibleChords : List (ChordV2 A)} {activeLayer : Nat}
    {presses : List PressWithTime} {c : ChordV2 A} :
    c ∈ candidates possibleChords activeLayer presses ↔
      c ∈ possibleChords ∧ isEnabled activeLayer c = true ∧ coversPresses presses c = true ∧
        spread presses ≤ c.pendingDuration := by
  simp only [candidates, List.mem_filter, Bool.and_eq_true, decide_eq_true_eq]
  constructor
  · rintro ⟨⟨hmem, hen⟩, hcov, hsp⟩
    exact ⟨hmem, hen, hcov, hsp⟩
  · rintro ⟨hmem, hen, hcov, hsp⟩
    exact ⟨⟨hmem, hen⟩, hcov, hsp⟩

/-- The presses taken are the first ones. -/
theorem scan_taken {possibleChords : List (ChordV2 A)} {activeLayer since : Nat}
    {rest taken : List PressWithTime} {left : List (ChordV2 A)} {ticks : Nat} :
    (scan possibleChords activeLayer since taken left ticks rest).taken <+: taken ++ rest := by
  induction rest generalizing taken left ticks with
  | nil => simp [scan]
  | cons press rest ih =>
    have hcons : taken ++ press :: rest = taken ++ [press] ++ rest := List.append_cons ..
    unfold scan
    dsimp only
    split
    · -- backtracked
      exact List.prefix_append _ _
    · split
      · exact hcons ▸ List.prefix_append _ _
      · exact hcons ▸ ih
    · exact hcons ▸ ih

/-- No chord is left that was not possible. -/
theorem scan_left_subset {possibleChords : List (ChordV2 A)} {activeLayer since : Nat}
    {rest taken : List PressWithTime} {left : List (ChordV2 A)} {ticks : Nat}
    (hleft : ∀ c ∈ left, c ∈ possibleChords) :
    ∀ c ∈ (scan possibleChords activeLayer since taken left ticks rest).left,
      c ∈ possibleChords := by
  induction rest generalizing taken left ticks with
  | nil => exact hleft
  | cons press rest ih =>
    have hnext : ∀ c ∈ candidates possibleChords activeLayer (taken ++ [press]),
        c ∈ possibleChords := fun c hc => (mem_candidates.mp hc).1
    unfold scan
    dsimp only
    split
    · intro c hc
      simp at hc
    · split
      · exact hnext
      · exact ih hnext
    · exact ih hnext

/-- A chord that is gone back to has just the keys that were taken. -/
theorem scan_backtracked {possibleChords : List (ChordV2 A)} {activeLayer since : Nat}
    {rest taken : List PressWithTime} {left : List (ChordV2 A)} {ticks : Nat} {c : ChordV2 A}
    (h : (scan possibleChords activeLayer since taken left ticks rest).stop =
      .backtracked (some c)) :
    findCompleted activeLayer
      (scan possibleChords activeLayer since taken left ticks rest).taken possibleChords =
        some c := by
  induction rest generalizing taken left ticks with
  | nil => simp [scan] at h
  | cons press rest ih =>
    unfold scan at h ⊢
    dsimp only at h ⊢
    split at h
    · exact Stop.backtracked.inj h
    · split at h
      · simp at h
      · rename_i hall
        simp only [hall]
        exact ih h
    · exact ih h

/-- A chord completed in the loop was the only candidate left, and the timer is
that of the presses before. -/
theorem scan_completed {possibleChords : List (ChordV2 A)} {activeLayer since : Nat}
    {rest taken : List PressWithTime} {left : List (ChordV2 A)} {ticks : Nat} {c : ChordV2 A}
    (h : (scan possibleChords activeLayer since taken left ticks rest).stop = .completed c) :
    ∃ k, taken.length ≤ k ∧ k < (taken ++ rest).length ∧
      (scan possibleChords activeLayer since taken left ticks rest).taken =
        (taken ++ rest).take (k + 1) ∧
      candidates possibleChords activeLayer ((taken ++ rest).take (k + 1)) = [c] ∧
      allPressed ((taken ++ rest).take (k + 1)) c = true ∧
      (scan possibleChords activeLayer since taken left ticks rest).ticksUntil =
        if k = taken.length then ticks
        else timer since (candidates possibleChords activeLayer ((taken ++ rest).take k)) := by
  induction rest generalizing taken left ticks with
  | nil => simp [scan] at h
  | cons press rest ih =>
    -- the press that is looked at is the last one taken
    have htake : (taken ++ press :: rest).take (taken.length + 1) = taken ++ [press] := by
      rw [List.append_cons, List.take_left' (by simp)]
    -- a stop further on, with the timer that this press sets
    have hfurther : ∀ left', (scan possibleChords activeLayer since (taken ++ [press]) left'
          (timer since (candidates possibleChords activeLayer (taken ++ [press]))) rest).stop =
          .completed c →
        ∃ k, taken.length ≤ k ∧ k < (taken ++ press :: rest).length ∧
          (scan possibleChords activeLayer since (taken ++ [press]) left'
            (timer since (candidates possibleChords activeLayer (taken ++ [press]))) rest).taken =
            (taken ++ press :: rest).take (k + 1) ∧
          candidates possibleChords activeLayer ((taken ++ press :: rest).take (k + 1)) = [c] ∧
          allPressed ((taken ++ press :: rest).take (k + 1)) c = true ∧
          (scan possibleChords activeLayer since (taken ++ [press]) left'
            (timer since (candidates possibleChords activeLayer (taken ++ [press])))
              rest).ticksUntil
            = if k = taken.length then ticks
              else timer since
                (candidates possibleChords activeLayer ((taken ++ press :: rest).take k)) := by
      intro left' hstop
      rcases ih hstop with ⟨k, hle, hlt, htaken, hcand, hall, hticks⟩
      simp only [List.append_assoc, List.singleton_append, List.length_append,
        List.length_singleton] at hle hlt htaken hcand hall hticks
      refine ⟨k, by omega, by simpa using hlt, htaken, hcand, hall, ?_⟩
      rw [hticks, if_neg (by omega : ¬ k = taken.length)]
      by_cases hk : k = taken.length + 1
      · rw [if_pos hk, hk, htake]
      · rw [if_neg hk]
    unfold scan at h ⊢
    dsimp only at h ⊢
    split at h
    · simp at h
    · rename_i cch hcand
      split at h
      · -- completed here
        rename_i hall
        simp only [hall]
        rw [Stop.completed.inj h] at hcand hall
        refine ⟨taken.length, Nat.le_refl _, by simp, ?_, ?_, ?_, by simp⟩
        · simp [htake]
        · rw [htake, hcand]
        · rw [htake, hall]
      · rename_i hall
        simp only [hall]
        exact hfurther _ h
    · exact hfurther _ h

/-! ## The decision -/

/-- The presses so far complete a chord of the first press. -/
structure Completes (cfg : ChordsConfig A) (activeLayer : Nat) (presses taken : List PressWithTime)
    (c : ChordV2 A) : Prop where
  taken_initial : taken <+: presses
  configured : ∃ possibleChords ∈ possibleFor cfg presses, c ∈ possibleChords
  enabled : isEnabled activeLayer c = true
  keys : sameKeys taken c = true

/-- The last key of the only candidate comes when a decision is due anyway: a
press is released already, no candidate for the presses before would time out
later, or it is the first press. -/
def Rushed (cfg : ChordsConfig A) (activeLayer : Nat) (queue : List Queued) : Prop :=
  ∃ possibleChords ∈ possibleFor cfg (pressesOf queue), ∃ k < (pressesOf queue).length,
    ∃ c ∈ candidates possibleChords activeLayer ((pressesOf queue).take (k + 1)),
      (candidates possibleChords activeLayer ((pressesOf queue).take (k + 1))).length = 1 ∧
      allPressed ((pressesOf queue).take (k + 1)) c = true ∧
      (releaseFound queue = true ∨ k = 0 ∨
        timer (headSince queue)
          (candidates possibleChords activeLayer ((pressesOf queue).take k)) = 0)

/-- Without possible chords there is no activation. -/
theorem decision_of_none {cfg : ChordsConfig A} {activeLayer since ticks : Nat} {rel : Bool}
    {presses : List PressWithTime} (h : possibleFor cfg presses = none) :
    (decision cfg activeLayer since ticks rel presses).activations = [] := by
  cases presses with
  | nil => rfl
  | cons first rest =>
    have hmap : cfg.chords.mapping first.key = none := h
    simp [decision, hmap]

/-- Otherwise the scan decides. -/
theorem decision_of_some {cfg : ChordsConfig A} {activeLayer since ticks : Nat} {rel : Bool}
    {presses : List PressWithTime} {possibleChords : List (ChordV2 A)}
    (h : possibleFor cfg presses = some possibleChords) :
    decision cfg activeLayer since ticks rel presses =
      (scan possibleChords activeLayer since [] [] ticks presses).decision possibleChords
        activeLayer rel := by
  rcases possibleFor_eq_some.mp h with ⟨first, rest, rfl, hmap⟩
  exact decision_cons hmap

/-- Every chord that is activated is completed by the presses taken. -/
theorem decision_completes {cfg : ChordsConfig A} {activeLayer since ticks : Nat} {rel : Bool}
    {presses : List PressWithTime} {c : ChordV2 A}
    (h : c ∈ (decision cfg activeLayer since ticks rel presses).activations) :
    Completes cfg activeLayer presses
      (decision cfg activeLayer since ticks rel presses).taken c := by
  rcases hpossible : possibleFor cfg presses with _ | possibleChords
  · simp [decision_of_none hpossible] at h
  · rw [decision_of_some hpossible] at h ⊢
    have hinitial : (scan possibleChords activeLayer since [] [] ticks presses).taken <+: presses :=
      scan_taken
    have hleft : ∀ c ∈ (scan possibleChords activeLayer since [] [] ticks presses).left,
        c ∈ possibleChords := scan_left_subset (by simp)
    generalize hv : scan possibleChords activeLayer since [] [] ticks presses = v at *
    -- the chord was found in the loop or in the block after it
    have hchosen : c ∈ possibleChords ∧ isEnabled activeLayer c = true ∧
        sameKeys v.taken c = true := by
      rcases List.mem_append.mp h with hloop | hafter
      · -- chosen in the loop
        rcases hst : v.stop with _ | c' | c' <;> simp [Scan.inLoop, hst] at hloop
        · subst hloop
          rcases scan_completed (hv ▸ hst) with ⟨k, _, _, htaken, hcand, hall, _⟩
          have hmem : c ∈ candidates possibleChords activeLayer v.taken := by
            rw [← hv, htaken, hcand]
            exact List.mem_singleton_self c
          rcases mem_candidates.mp hmem with ⟨hpos, hen, hcov, _⟩
          refine ⟨hpos, hen, ?_⟩
          rw [← htaken, hv] at hall
          simp [sameKeys, hcov, hall]
        · subst hloop
          exact findCompleted_some (hv ▸ scan_backtracked (hv ▸ hst))
      · -- chosen after it
        split at hafter
        · rw [Option.mem_toList] at hafter
          rcases findCompleted_some hafter with ⟨hmem, hen, hkeys⟩
          refine ⟨?_, hen, hkeys⟩
          split at hmem
          · exact hmem
          · exact hleft c hmem
        · simp at hafter
    exact ⟨hinitial, ⟨possibleChords, hpossible, hchosen.1⟩, hchosen.2.1, hchosen.2.2⟩

/-- Without a rush at most one chord is activated. -/
theorem decision_length_le_one {cfg : ChordsConfig A} {activeLayer : Nat} {queue : List Queued}
    (h : ¬ Rushed cfg activeLayer queue) :
    (queueDecision cfg activeLayer 0 queue).activations.length ≤ 1 := by
  unfold queueDecision
  rcases hpossible : possibleFor cfg (pressesOf queue) with _ | possibleChords
  · simp [decision_of_none hpossible]
  · rw [decision_of_some hpossible]
    generalize hv : scan possibleChords activeLayer (headSince queue) [] [] 0 (pressesOf queue) = v
    have hlen : ∀ o : Option (ChordV2 A), o.toList.length ≤ 1 := fun o => by cases o <;> simp
    simp only [Scan.decision, List.length_append]
    rcases hst : v.stop with _ | c | c
    · -- exhausted: only the block after the loop activates
      simp only [Scan.inLoop, hst, Option.toList_none, List.length_nil, Nat.zero_add]
      split
      · exact hlen _
      · exact Nat.zero_le _
    · -- completed: the block after the loop is not forced
      rcases scan_completed (hv ▸ hst) with ⟨k, _, hk, htaken, hcand, hall, hticks⟩
      simp only [List.nil_append, List.length_nil] at hk htaken hcand hall hticks
      -- a chord that completes in the loop is not found once more after it
      have hforced : v.forced (releaseFound queue) = false := by
        by_contra hforced
        refine h ⟨possibleChords, hpossible, k, hk, c, by simp [hcand], by simp [hcand], hall, ?_⟩
        rw [hv] at hticks
        simp only [Scan.forced, hticks, Bool.not_eq_false, Bool.or_eq_true, beq_iff_eq] at hforced
        rcases hforced with hzero | hrel
        · right
          by_cases hk0 : k = 0
          · exact Or.inl hk0
          · rw [if_neg hk0] at hzero
            exact Or.inr hzero
        · exact Or.inl hrel
      simp only [hforced, Bool.false_eq_true, if_false, List.length_nil, Nat.add_zero]
      exact hlen _
    · -- backtracked: no candidate is left for the block after the loop
      have hleft : v.left = [] := hv ▸ scan_left_of_backtracked (hv ▸ hst)
      have hafter : v.after possibleChords activeLayer = none := by
        simp [Scan.after, hleft, findCompleted, smolQLen]
      simp only [hafter, Option.toList_none, ite_self, List.length_nil, Nat.add_zero]
      exact hlen _

/-! ## Presses -/

/-- Whether an event is one of some presses. -/
def isTaken (presses : List PressWithTime) (qd : Queued) : Bool :=
  isPress qd && presses.any fun p => p.origin == qd.origin

/-- A key of a chord that the presses complete has two presses in the queue. -/
def Repressed (cfg : ChordsConfig A) (activeLayer : Nat) (queue : List Queued) : Prop :=
  ∃ possibleChords ∈ possibleFor cfg (pressesOf queue), ∃ c ∈ possibleChords,
    isEnabled activeLayer c = true ∧
    ∃ k < (pressesOf queue).length + 1, sameKeys ((pressesOf queue).take k) c = true ∧
      ∃ key ∈ c.participatingKeys, 2 ≤ ((pressEvents queue).map (·.key)).count key

/-- The keys of a chord are those of the presses, as sets. -/
theorem sameKeys_iff {presses : List PressWithTime} {c : ChordV2 A} :
    sameKeys presses c = true ↔ ∀ key, key ∈ c.participatingKeys ↔ key ∈ presses.map (·.key) := by
  simp only [sameKeys, coversPresses, allPressed, Bool.and_eq_true, List.all_eq_true,
    List.any_eq_true, List.contains_iff_mem, beq_iff_eq, List.mem_map]
  constructor
  · rintro ⟨hcov, hall⟩ key
    refine ⟨hall key, ?_⟩
    rintro ⟨p, hp, rfl⟩
    exact hcov p hp
  · intro h
    exact ⟨fun p hp => (h p.key).mpr ⟨p, hp, rfl⟩, fun key hkey => (h key).mp hkey⟩

/-- With one press a key, the presses taken are those of the keys taken. -/
theorem key_eq_of_count {presses rest : List PressWithTime} {p p' : PressWithTime}
    (hcount : ∀ key ∈ presses.map (·.key), ((presses ++ rest).map (·.key)).count key ≤ 1)
    (hp : p ∈ presses) (hp' : p' ∈ presses ++ rest) (hkey : p'.key = p.key) : p' ∈ presses := by
  by_contra hnot
  have hrest : p' ∈ rest := (List.mem_append.mp hp').resolve_left hnot
  have hle := hcount p.key (List.mem_map_of_mem hp)
  rw [List.map_append, List.count_append] at hle
  have h₁ : 0 < (presses.map (·.key)).count p.key :=
    List.count_pos_iff.mpr (List.mem_map_of_mem hp)
  have h₂ : 0 < (rest.map (·.key)).count p.key :=
    List.count_pos_iff.mpr (hkey ▸ List.mem_map_of_mem hrest)
  omega

/-- The presses are those of the queue. -/
theorem mem_pressEvents {queue : List Queued} {p : PressWithTime} :
    p ∈ pressEvents queue ↔ ∃ qd ∈ queue, ∃ i, qd.event = .press i p.key ∧ p.since = qd.since ∧
      p.origin = qd.origin := by
  simp only [pressEvents, List.mem_filterMap]
  constructor
  · rintro ⟨qd, hqd, h⟩
    rcases hev : qd.event with ⟨i, j⟩ | ⟨i, j⟩ <;> simp [hev] at h
    subst h
    exact ⟨qd, hqd, i, hev, rfl, rfl⟩
  · rintro ⟨qd, hqd, i, hev, hs, ho⟩
    refine ⟨qd, hqd, ?_⟩
    simp [hev, ← hs, ← ho]

/-- What `retain` keeps is everything but the presses taken. -/
theorem keepsEvent_eq {arrived : List Event} {queue : List Queued}
    {presses rest : List PressWithTime} (hord : QueueOrdered arrived queue)
    (hsplit : presses ++ rest = pressEvents queue)
    (hcount : ∀ key ∈ presses.map (·.key), ((pressEvents queue).map (·.key)).count key ≤ 1)
    {qd : Queued} (hqd : qd ∈ queue) : keepsEvent presses qd = !isTaken presses qd := by
  rcases hev : qd.event with ⟨i, j⟩ | ⟨i, j⟩
  · have hpress : (⟨j, qd.since, qd.origin⟩ : PressWithTime) ∈ pressEvents queue :=
      mem_pressEvents.mpr ⟨qd, hqd, i, hev, rfl, rfl⟩
    have hiff : presses.any (fun p => p.key == j) =
        presses.any fun p => p.origin == qd.origin := by
      rw [Bool.eq_iff_iff, List.any_eq_true, List.any_eq_true]
      constructor
      · -- the press with this key is this press
        rintro ⟨p, hp, hkey⟩
        rw [beq_iff_eq] at hkey
        rw [← hsplit] at hpress hcount
        refine ⟨_, key_eq_of_count hcount hp hpress hkey.symm, ?_⟩
        simp
      · rintro ⟨p, hp, horigin⟩
        rw [beq_iff_eq] at horigin
        rcases mem_pressEvents.mp (hsplit ▸ List.mem_append_left rest hp) with
          ⟨qd', hqd', i', hev', _, ho'⟩
        have hsame := hord.eq_of_origin hqd' hqd (ho'.symm.trans horigin)
        rw [hsame, hev] at hev'
        refine ⟨p, hp, ?_⟩
        simp [(Event.press.inj hev').2]
    simp only [keepsEvent, isTaken, isPress_of_press hev, hev, Bool.true_and, hiff]
  · simp [keepsEvent, isTaken, isPress_of_release hev, hev]

/-! ## One call -/

/-- The call activates `c`, whose keys are those of the first presses, and
exactly these presses leave the queue. -/
structure ActivatesOne (cfg : ChordsConfig A) (activeLayer : Nat) (s s' : ChordsV2 A)
    (c : ChordV2 A) (presses : List PressWithTime) : Prop where
  configured : ∃ possibleChords ∈ possibleFor cfg (pressEvents s.queue.items), c ∈ possibleChords
  enabled : activeLayer ∉ c.disabledLayers
  first : presses <+: pressEvents s.queue.items
  keys : ∀ key, key ∈ c.participatingKeys ↔ key ∈ presses.map (·.key)
  onePerKey : (presses.map (·.key)).Nodup
  activated : ∃ ach : ActiveChord A, s'.activeChords.items = s.activeChords.items ++ [ach] ∧
    ach.participatingKeys = c.participatingKeys ∧ ach.action = c.action ∧
    ach.history.presses = presses
  removed : s'.queue.items = s.queue.items.filter fun qd => !isTaken presses qd

/-- The queue loses nothing, or the presses of one chord. -/
def ActivationLaw (cfg : ChordsConfig A) (activeLayer : Nat) (s s' : ChordsV2 A) : Prop :=
  s'.activeChords.items = s.activeChords.items ∧ s'.queue.items = s.queue.items ∨
    ∃ c presses, ActivatesOne cfg activeLayer s s' c presses

/-- More presses do not change which chords are possible. -/
theorem possibleFor_mono {cfg : ChordsConfig A} {presses presses' : List PressWithTime}
    {possibleChords : List (ChordV2 A)} (hpre : presses <+: presses')
    (h : possibleFor cfg presses = some possibleChords) :
    possibleFor cfg presses' = some possibleChords := by
  rcases possibleFor_eq_some.mp h with ⟨first, rest, rfl, hmap⟩
  rcases hpre with ⟨more, rfl⟩
  exact possibleFor_eq_some.mpr ⟨first, rest ++ more, rfl, hmap⟩

/-- Each key of a chord that completes is pressed once in the queue. -/
theorem Completes.count_le {cfg : ChordsConfig A} {activeLayer : Nat} {queue : List Queued}
    {taken : List PressWithTime} {c : ChordV2 A} (hre : ¬ Repressed cfg activeLayer queue)
    (h : Completes cfg activeLayer (pressesOf queue) taken c) :
    ∀ key ∈ taken.map (·.key), ((pressEvents queue).map (·.key)).count key ≤ 1 := by
  intro key hkey
  by_contra hcount
  rcases h.configured with ⟨possibleChords, hpossible, hmem⟩
  have htake : (pressesOf queue).take taken.length = taken :=
    (List.prefix_iff_eq_take.mp h.taken_initial).symm
  refine hre ⟨possibleChords, hpossible, c, hmem, h.enabled, taken.length, ?_, ?_, key, ?_, ?_⟩
  · exact Nat.lt_succ_of_le h.taken_initial.length_le
  · rw [htake]
    exact h.keys
  · exact (sameKeys_iff.mp h.keys key).mpr hkey
  · omega

/-- One call activates at most one chord, for the first presses. -/
theorem processPresses_law {cfg : ChordsConfig A} {activeLayer : Nat} {arrived : List Event}
    {s s' : ChordsV2 A} (hord : QueueOrdered arrived s.queue.items)
    (hticks : s.ticksUntilNextStateChange = 0)
    (hrush : ¬ Rushed cfg activeLayer s.queue.items)
    (hre : ¬ Repressed cfg activeLayer s.queue.items)
    (h : processPresses cfg activeLayer s = .ok s') : ActivationLaw cfg activeLayer s s' := by
  have hperform := processPresses_ok hord.aged h
  rw [hticks] at hperform
  -- at most one chord is activated
  have hone := decision_length_le_one hrush
  rcases perform_eq_ok.mp hperform with ⟨_, _, achs, hachs, rfl⟩
  have hcompletes : ∀ c ∈ (queueDecision cfg activeLayer 0 s.queue.items).activations,
      Completes cfg activeLayer (pressesOf s.queue.items)
        (queueDecision cfg activeLayer 0 s.queue.items).taken c :=
    fun c hc => decision_completes hc
  generalize queueDecision cfg activeLayer 0 s.queue.items = d at *
  rcases hact : d.activations with _ | ⟨c, _ | ⟨c', cs⟩⟩
  · -- nothing is activated
    left
    rw [hact] at hachs
    simp only [performed, hact, hachs, spawnAll, List.append_nil]
    exact ⟨trivial, rfl⟩
  · -- one chord
    right
    have hc := hcompletes c (by simp [hact])
    have hcount := hc.count_le hre
    have hfirst : d.taken <+: pressEvents s.queue.items :=
      hc.taken_initial.trans (pressesOf_initial _)
    rcases hfirst with ⟨rest, hsplit⟩
    refine ⟨c, d.taken, ?_, ?_, ⟨rest, hsplit⟩, sameKeys_iff.mp hc.keys, ?_, ?_, ?_⟩
    · rcases hc.configured with ⟨possibleChords, hpossible, hmem⟩
      exact ⟨possibleChords, possibleFor_mono (pressesOf_initial _) hpossible, hmem⟩
    · have := hc.enabled
      simpa [isEnabled] using this
    · -- a key taken twice would be pressed twice
      rw [List.nodup_iff_count_le_one]
      intro key
      -- a press goes if its key is one of the chord, and there is one press of each
      by_cases hkey : key ∈ d.taken.map (·.key)
      · have := hcount key hkey
        rw [← hsplit, List.map_append, List.count_append] at this
        omega
      · rw [List.count_eq_zero_of_not_mem hkey]
        exact Nat.zero_le _
    · rw [hact] at hachs
      exact ⟨_, hachs, rfl, rfl, rfl⟩
    · simp only [performed, hact, List.isEmpty_cons, Bool.false_eq_true, if_false,
        Bounded.retain_items]
      exact List.filter_congr fun qd hqd => keepsEvent_eq hord hsplit hcount hqd
  · simp [hact] at hone

/-! ## Runs -/

/-- If the presses are looked at, there is no rush and no key is pressed again. -/
def Quiet (cfg : ChordsConfig A) (activeLayer : Nat) (s : ChordsV2 A) : Prop :=
  s.ticksToIgnoreChord = 0 → canSkip activeLayer s = false →
    ¬ Rushed cfg activeLayer (pendingOf s.queue.items) ∧
      ¬ Repressed cfg activeLayer (pendingOf s.queue.items)

/-- Every tick is quiet. -/
def Undisturbed (cfg : ChordsConfig A) (s : Session A) : Op → Prop
  | .tick activeLayer => Quiet cfg activeLayer s.chv2.age
  | _ => True

/-- The call of `process_presses` in a tick obeys the law. -/
def ActivatesLawfully (cfg : ChordsConfig A) (s : Session A) : Op → Prop
  | .tick activeLayer =>
    s.chv2.ticksToIgnoreChord = 0 → canSkip activeLayer s.chv2.age = false →
      ∀ s', processPresses cfg activeLayer (settled activeLayer s.chv2.age) = .ok s' →
        ActivationLaw cfg activeLayer (settled activeLayer s.chv2.age) s'
  | _ => True

/-- Settling the queue keeps its order. -/
theorem QueueOrdered.settled {arrived : List Event} {s : ChordsV2 A} (activeLayer : Nat)
    (h : QueueOrdered arrived s.queue.items) :
    QueueOrdered arrived (Chord.settled activeLayer s).queue.items := by
  rw [settled_queue]
  exact h.sublist (pendingOf_sublist _)

/-- A tick that is quiet keeps the law. -/
theorem Quiet.law {cfg : ChordsConfig A} {activeLayer : Nat} {arrived : List Event}
    {s s' : ChordsV2 A} (hord : QueueOrdered arrived s.queue.items)
    (h : Quiet cfg activeLayer s) (hignore : s.ticksToIgnoreChord = 0)
    (hskip : canSkip activeLayer s = false)
    (hs' : processPresses cfg activeLayer (settled activeLayer s) = .ok s') :
    ActivationLaw cfg activeLayer (settled activeLayer s) s' := by
  rcases h hignore hskip with ⟨hrush, hre⟩
  have hqueue := settled_queue activeLayer s
  exact processPresses_law (hord.settled activeLayer) rfl (by rwa [hqueue]) (by rwa [hqueue]) hs'

/-- So does an operation that is undisturbed. -/
theorem Undisturbed.lawful {cfg : ChordsConfig A} {s : Session A} {op : Op} (hs : s.Ordered)
    (h : Undisturbed cfg s op) : ActivatesLawfully cfg s op := by
  cases op with
  | tick activeLayer =>
    intro hignore hskip s' hs'
    have hage : QueueOrdered s.arrived s.chv2.age.queue.items := QueueOrdered.tick hs
    exact Quiet.law hage h hignore hskip hs'
  | push event => trivial
  | getAction => trivial

/-! ## Where the events of a tick go -/

/-- The numbers of the presses that a chord consumed. -/
def consumedBy (ach : ActiveChord A) : List Nat := ach.history.presses.filterMap (·.origin)

/-- The numbers of the real events among some events. -/
def realArrivals (qds : List Queued) : List Nat := arrivalsOf (qds.filter isReal)

/-- What stays in the queue behind the virtual keys is of the real row. -/
theorem isReal_of_mem_pendingOf {queue : List Queued} {qd : Queued} (h : qd ∈ pendingOf queue) :
    isReal qd = true :=
  (List.mem_filter.mp ((List.dropWhile_sublist _).subset h)).2

/-- Virtual events, leading releases and pending events make up the queue. -/
theorem split_perm (queue : List Queued) :
    (processedEvents queue ++ pendingOf queue).Perm queue := by
  have hreal : leadingReleases (queue.filter isReal) ++ pendingOf queue = queue.filter isReal :=
    List.takeWhile_append_dropWhile
  rw [processedEvents, List.append_assoc, hreal]
  refine (List.perm_append_comm).trans ?_
  exact List.filter_append_perm isReal queue

/-- What is drained was in the queue. -/
theorem drainedEvents_subset (activeLayer : Nat) (s : ChordsV2 A) :
    ∀ qd ∈ drainedEvents activeLayer s, qd ∈ s.queue.items := by
  intro qd hqd
  unfold drainedEvents at hqd
  split at hqd
  · exact hqd
  · split at hqd
    · simp at hqd
    · exact (split_perm s.queue.items).subset (List.mem_append_left _ hqd)

/-- The numbers of the presses, in the order of the queue. -/
theorem pressEvents_arrivals (queue : List Queued) :
    ((pressEvents queue).filterMap (·.origin)).Sublist (arrivalsOf queue) := by
  induction queue with
  | nil => simp
  | cons qd qds ih =>
    have hcons : arrivalsOf (qd :: qds) = arrivalsOf [qd] ++ arrivalsOf qds := by
      rw [← arrivalsOf_append, List.singleton_append]
    rw [hcons]
    rcases hev : qd.event with ⟨i, j⟩ | ⟨i, j⟩
    · rw [pressEvents_press hev, ← List.singleton_append, List.filterMap_append]
      exact List.Sublist.append (List.Sublist.refl _) ih
    · rw [pressEvents_release hev]
      exact ih.trans (List.sublist_append_right _ _)

/-- The presses taken, as numbers. -/
theorem taken_arrivals {arrived : List Event} {queue : List Queued}
    {presses : List PressWithTime} (hord : QueueOrdered arrived queue)
    (hfirst : presses <+: pressEvents queue) :
    (arrivalsOf (queue.filter (isTaken presses))).Perm (presses.filterMap (·.origin)) := by
  have hnodup : (presses.filterMap (·.origin)).Nodup :=
    hord.nodup.sublist ((hfirst.sublist.filterMap _).trans (pressEvents_arrivals queue))
  refine (List.perm_ext_iff_of_nodup (hord.sublist List.filter_sublist).nodup hnodup).mpr ?_
  intro m
  constructor
  · intro hm
    rcases List.mem_filterMap.mp hm with ⟨qd, hqd, hqm⟩
    have htaken := (List.mem_filter.mp hqd).2
    rw [isTaken, Bool.and_eq_true, List.any_eq_true] at htaken
    rcases htaken.2 with ⟨p, hp, hpo⟩
    exact List.mem_filterMap.mpr ⟨p, hp, (beq_iff_eq.mp hpo).trans hqm⟩
  · intro hm
    rcases List.mem_filterMap.mp hm with ⟨p, hp, hpm⟩
    rcases mem_pressEvents.mp (hfirst.subset hp) with ⟨qd, hqd, i, hev, _, ho⟩
    refine List.mem_filterMap.mpr ⟨qd, List.mem_filter.mpr ⟨hqd, ?_⟩, by rw [← ho, hpm]⟩
    rw [isTaken, isPress_of_press hev, Bool.true_and, List.any_eq_true]
    exact ⟨p, hp, by simp [ho]⟩

/-- The events of the queue before a tick are drained, kept or consumed. -/
structure Split (s s₁ : ChordsV2 A) (drained : List Queued) (new : List (ActiveChord A)) :
    Prop where
  perm : (arrivalsOf drained ++
    (arrivalsOf s₁.queue.items ++ new.flatMap consumedBy)).Perm (arrivalsOf s.queue.items)
  inOrder : (realArrivals drained ++ realArrivals s₁.queue.items).Sublist
    (realArrivals s.queue.items)
  presses : ∀ m ∈ new.flatMap consumedBy,
    ∃ qd ∈ s.queue.items, qd.origin = some m ∧ ∃ j, qd.event = .press 0 j

/-- The events of the queue leave it, stay in it, or are presses of the chord. -/
theorem Drained.split {cfg : ChordsConfig A} {activeLayer : Nat} {arrived : List Event}
    {s s₁ : ChordsV2 A} (hord : QueueOrdered arrived s.queue.items)
    (hquiet : Quiet cfg activeLayer s) (h : Drained cfg activeLayer s s₁) :
    Split s s₁ (drainedEvents activeLayer s)
      (s₁.activeChords.items.drop s.activeChords.items.length) := by
  cases h with
  | ignoring hignore =>
    simp only [drainedEvents, hignore, if_true]
    have hdrop : ((s.activeChords.map (releaseBy s.queue.items)).items.drop
        s.activeChords.items.length) = [] := List.drop_eq_nil_of_le (by simp)
    rw [hdrop]
    exact ⟨by simp, by simp [realArrivals], by simp⟩
  | skipped hignore hskip =>
    have hdrained : drainedEvents activeLayer s = [] := by
      simp [drainedEvents, hignore, hskip]
    rw [hdrained]
    simp only [List.drop_length]
    exact ⟨by simp, by simp [realArrivals], by simp⟩
  | processed hignore hskip _ _ hpresses =>
    have hdrained : drainedEvents activeLayer s = processedEvents s.queue.items := by
      simp [drainedEvents, hignore, hskip]
    have hlen : (settled activeLayer s).activeChords.items.length =
        s.activeChords.items.length := by simp [settled]
    have hqueue := settled_queue activeLayer s
    have hperm := (split_perm s.queue.items).filterMap (·.origin)
    rw [List.filterMap_append] at hperm
    -- the leading releases are the real events that leave
    have hreal : realArrivals (processedEvents s.queue.items) ++
        arrivalsOf (pendingOf s.queue.items) = realArrivals s.queue.items := by
      have hleading : (processedEvents s.queue.items).filter isReal =
          leadingReleases (s.queue.items.filter isReal) := by
        rw [processedEvents, List.filter_append, List.filter_eq_nil_iff.mpr, List.nil_append,
          List.filter_eq_self.mpr]
        · intro qd hqd
          exact (List.mem_filter.mp ((List.takeWhile_sublist _).subset hqd)).2
        · intro qd hqd
          have := (List.mem_filter.mp hqd).2
          simpa using this
      rw [realArrivals, hleading, ← arrivalsOf_append, realArrivals]
      congr 1
      exact List.takeWhile_append_dropWhile
    have hpending : ∀ queue : List Queued, queue.Sublist (pendingOf s.queue.items) →
        realArrivals queue = arrivalsOf queue := by
      intro queue hsub
      rw [realArrivals, List.filter_eq_self.mpr]
      exact fun qd hqd => isReal_of_mem_pendingOf (hsub.subset hqd)
    rw [hdrained]
    rcases hquiet.law hord hignore hskip hpresses with ⟨hsame, hkeep⟩ | ⟨c, presses, hone⟩
    · -- no activation: the pending events stay
      rw [List.drop_eq_nil_of_le (Nat.le_of_eq (by rw [hsame, hlen]))]
      refine ⟨?_, ?_, by simp⟩
      · rw [hkeep, hqueue, List.flatMap_nil, List.append_nil]
        exact hperm
      · rw [hkeep, hqueue, hpending _ (List.Sublist.refl _), hreal]
    · -- one activation: the pending events are kept or taken
      rcases hone.activated with ⟨ach, hachs, _, _, hpressed⟩
      have hfirst := hone.first
      have hremoved := hone.removed
      rw [hqueue] at hfirst hremoved
      have hpord : QueueOrdered arrived (pendingOf s.queue.items) :=
        hord.sublist (pendingOf_sublist _)
      have hnew : s₁.activeChords.items.drop s.activeChords.items.length = [ach] := by
        rw [hachs, ← hlen, List.drop_left]
      have hconsumed : [ach].flatMap consumedBy = presses.filterMap (·.origin) := by
        simp [consumedBy, hpressed]
      have htaken := taken_arrivals hpord hfirst
      rw [hnew]
      refine ⟨?_, ?_, ?_⟩
      · rw [hconsumed, hremoved]
        refine List.Perm.trans ?_ hperm
        refine List.Perm.append_left _ ?_
        refine (List.Perm.append_left _ htaken.symm).trans ?_
        refine List.perm_append_comm.trans ?_
        rw [← arrivalsOf_append]
        exact (List.filter_append_perm (isTaken presses) _).filterMap _
      · rw [hremoved, hpending _ List.filter_sublist, ← hreal]
        exact List.Sublist.append (List.Sublist.refl _) (List.filter_sublist.filterMap _)
      · intro m hm
        rw [hconsumed] at hm
        rcases List.mem_filterMap.mp hm with ⟨p, hp, hpm⟩
        rcases mem_pressEvents.mp (hfirst.subset hp) with ⟨qd, hqd, i, hev, _, ho⟩
        have hrow := isReal_of_mem_pendingOf hqd
        simp only [isReal, hev, Event.coord, beq_iff_eq] at hrow
        exact ⟨qd, (pendingOf_sublist _).subset hqd, by rw [← ho, hpm], p.key, by rw [hev, hrow]⟩

/-! ## No press is consumed twice -/

/-- The numbers of the presses consumed in a run. -/
def consumed (ls : List (Log A)) : List Nat := ls.flatMap fun l => l.activated.flatMap consumedBy

/-- What chords have consumed after one more step. -/
theorem consumed_append (ls : List (Log A)) (l : Log A) :
    consumed (ls ++ [l]) = consumed ls ++ l.activated.flatMap consumedBy := by
  simp [consumed]

/-- Consumed presses are gone from the queue and are never consumed again. -/
structure ConsumedOnce (ls : List (Log A)) (s : Session A) : Prop where
  ordered : s.Ordered
  nodup : (consumed ls ++ arrivalsOf s.chv2.queue.items).Nodup
  old : ∀ m ∈ consumed ls, m < s.arrived.length

/-- A step that takes numbers from the queue and leaves the rest. -/
theorem ConsumedOnce.consume {ls : List (Log A)} {s s' : Session A} {l : Log A} (gone : List Nat)
    (h : ConsumedOnce ls s) (hord : s'.Ordered) (harr : s.arrived = s'.arrived)
    (hperm : (gone ++ (arrivalsOf s'.chv2.queue.items ++ l.activated.flatMap consumedBy)).Perm
      (arrivalsOf s.chv2.queue.items)) : ConsumedOnce (ls ++ [l]) s' := by
  refine ⟨hord, ?_, ?_⟩
  · have hall := (List.Perm.append_left (consumed ls) hperm).nodup_iff.mpr h.nodup
    have hsub : (consumed ls ++ (arrivalsOf s'.chv2.queue.items ++
        l.activated.flatMap consumedBy)).Nodup :=
      hall.sublist (List.Sublist.append (List.Sublist.refl _) (List.sublist_append_right _ _))
    rw [consumed_append, List.append_assoc]
    exact (List.Perm.append_left _ List.perm_append_comm).nodup_iff.mp hsub
  · intro m hm
    rw [consumed_append] at hm
    rw [← harr]
    rcases List.mem_append.mp hm with hm | hm
    · exact h.old m hm
    · refine QueueOrdered.lt h.ordered m (hperm.subset ?_)
      exact List.mem_append_right _ (List.mem_append_right _ hm)

/-- A step consumes what nothing has consumed before. -/
theorem ConsumedOnce.step {cfg : ChordsConfig A} {ls : List (Log A)} {s s' : Session A} {op : Op}
    {l : Log A} (h : ConsumedOnce ls s) (hquiet : Undisturbed cfg s op)
    (hstep : stepLogged cfg s op = .ok (s', l)) : ConsumedOnce (ls ++ [l]) s' := by
  have hord : s'.Ordered := step_ordered h.ordered (stepLogged_eq_ok.mp hstep).1
  cases op with
  | push event =>
    rcases stepLogged_eq_ok.mp hstep with ⟨hpush, hact, _⟩
    simp only [Session.step, stepWith, pure_eq_ok, Prod.mk.injEq] at hpush
    rcases hpush with ⟨rfl, _⟩
    simp only [activatedBy] at hact
    -- the new number is larger than all that were consumed
    have hold := h.old
    have hconsumed : consumed (ls ++ [l]) = consumed ls := by simp [consumed_append, hact]
    refine ⟨hord, ?_, ?_⟩
    · -- the new event has a number of its own
      rw [hconsumed, List.nodup_append]
      refine ⟨(List.nodup_append.mp h.nodup).1, QueueOrdered.nodup hord, ?_⟩
      intro a ha b hb hab
      have hsub := (Bounded.pushBack_sublist s.chv2.queue
        ⟨event, 0, some s.arrived.length⟩).filterMap (·.origin)
      have hb := hsub.subset hb
      rw [List.filterMap_append, List.mem_append] at hb
      rcases hb with hb | hb
      · exact (List.nodup_append.mp h.nodup).2.2 a ha b hb hab
      · simp only [List.filterMap_cons, List.filterMap_nil, List.mem_singleton] at hb
        have := hold a ha
        omega
    · intro m hm
      rw [hconsumed] at hm
      have := hold m hm
      simp only [List.length_append, List.length_singleton]
      omega
  | getAction =>
    rcases stepLogged_eq_ok.mp hstep with ⟨haction, hact, _⟩
    simp only [Session.step, stepWith, pure_eq_ok, Prod.mk.injEq] at haction
    rcases haction with ⟨rfl, _⟩
    simp only [activatedBy] at hact
    exact h.consume [] hord rfl (by simp [hact, getActionChv2])
  | tick activeLayer =>
    rcases stepLogged_tick hstep with ⟨s₁, hdrained, _, rfl, _, hact, _⟩
    have hage : QueueOrdered s.arrived s.chv2.age.queue.items := QueueOrdered.tick h.ordered
    -- what a tick consumes was in the queue, where each number is once
    have hsplit := (hdrained.split hage hquiet).perm
    have harrivals : arrivalsOf s.chv2.age.queue.items = arrivalsOf s.chv2.queue.items :=
      arrivalsOf_map_tickQd _
    have hlen : s.chv2.age.activeChords.items.length = s.chv2.activeChords.items.length := by
      simp [age]
    rw [harrivals, hlen, ← hact] at hsplit
    exact h.consume _ hord rfl hsplit

/-- In an undisturbed run every call of `process_presses` obeys the activation
law, and no press is consumed twice. -/
theorem activation_law (cfg : ChordsConfig A) (ops : List Op)
    (h : Along (Session.step cfg) (Undisturbed cfg) Session.new ops) :
    Along (Session.step cfg) (ActivatesLawfully cfg) Session.new ops ∧
      ∀ s' ls, run (stepLogged cfg) Session.new ops = .ok (s', ls) → (consumed ls).Nodup := by
  constructor
  · exact along_of_invariant (fun _ _ _ _ hs _ hstep => step_ordered hs hstep)
      (fun _ _ hs hquiet => hquiet.lawful hs) new_ordered h
  · intro s' ls hrun
    have hstart : ConsumedOnce ([] : List (Log A)) Session.new :=
      ⟨new_ordered, List.nodup_nil, by simp [consumed]⟩
    have hend := run_history (fun _ _ _ _ _ hinv hP hstep => ConsumedOnce.step hinv hP hstep)
      hstart (along_stepLogged h) hrun
    exact (List.nodup_append.mp hend.nodup).1

/-! ## A press consumed twice -/

/-- One chord, of the keys `a` (30) and `b` (48), pending for five ticks. -/
def oneChord : ChordsConfig Nat where
  chords := ⟨fun key =>
    if key = 30 ∨ key = 48 then some [.pair 1 30 48 5] else none⟩
  configuredTicksToIgnoreChord := minTicksToIgnoreChord
  debugAssertions := true
  ticks_ge := five_le_minTicks

/-- `b` comes in the last tick in which it can. -/
def lateSecondKey : List Op :=
  [.push (.press 0 30), .tick 0, .tick 0, .tick 0, .tick 0, .push (.press 0 48), .tick 0]

/-- Both activations of the last tick consume both presses. -/
theorem consumed_lateSecondKey :
    (run (stepLogged oneChord) Session.new lateSecondKey).map (fun r => consumed r.2) =
      .ok [0, 1, 0, 1] := by
  decide

/-- In this run a press is consumed twice. -/
theorem activation_law_fails :
    ¬ ∀ s' ls, run (stepLogged oneChord) Session.new lateSecondKey = .ok (s', ls) →
      (consumed ls).Nodup := by
  intro h
  have hrun := consumed_lateSecondKey
  rcases hr : run (stepLogged oneChord) Session.new lateSecondKey with e | ⟨s', ls⟩
  · simp [hr, Except.map] at hrun
  · have hls : consumed ls = [0, 1, 0, 1] := by simpa [hr, Except.map] using hrun
    have := h s' ls hr
    rw [hls] at this
    exact absurd this (by decide)

instance (cfg : ChordsConfig A) (activeLayer : Nat) (queue : List Queued) :
    Decidable (Rushed cfg activeLayer queue) := by
  unfold Rushed
  infer_instance

instance (cfg : ChordsConfig A) (activeLayer : Nat) (queue : List Queued) :
    Decidable (Repressed cfg activeLayer queue) := by
  unfold Repressed
  infer_instance

instance (cfg : ChordsConfig A) (activeLayer : Nat) (s : ChordsV2 A) :
    Decidable (Quiet cfg activeLayer s) := by
  unfold Quiet
  infer_instance

instance (cfg : ChordsConfig A) (s : Session A) (op : Op) : Decidable (Undisturbed cfg s op) :=
  match op with
  | .push _ => .isTrue trivial
  | .tick activeLayer => inferInstanceAs (Decidable (Quiet cfg activeLayer s.chv2.age))
  | .getAction => .isTrue trivial

/-- Pressed in the same tick, the two keys make the chord once. -/
theorem activation_law_together :
    let ops := [.push (.press 0 30), .push (.press 0 48), .tick 0]
    Along (Session.step oneChord) (ActivatesLawfully oneChord) Session.new ops ∧
      ∀ s' ls, run (stepLogged oneChord) Session.new ops = .ok (s', ls) → (consumed ls).Nodup :=
  activation_law oneChord _ (by decide)

end Kanata.Chord
