import Kanata.Chord.Tracking

/-!
# Kanata.Chord.Release — the release law of chords

Over a run the ledger is kept and every chord is released by its own keys. This
needs that the releases a chord sees are its own:

* `OwnReleases`: when a chord is activated, no release of one of its keys waits
  that is older than a press of the chord, and a release that is taken into
  account at once comes with one of the chord's keys;
* no virtual key with the number of a participating key is released while chords
  are ignored;
* no release that an active chord waits for is driven out of a full queue.
-/

namespace Kanata.Chord

open Fallible ChordsV2 Machine Session

variable {A : Type}

/-! ## Where a decision stops -/

/-- Why the scan of `presses` took no more. -/
def Scan.Stops (possibleChords : List (ChordV2 A)) (activeLayer since : Nat)
    (presses : List PressWithTime) (v : Scan A) : Prop :=
  match v.stop with
  | .exhausted => v.taken = presses ∧ (presses ≠ [] →
      v.ticksUntil = timer since (candidates possibleChords activeLayer presses))
  | .completed _ => (candidates possibleChords activeLayer v.taken).length = 1
  | .backtracked _ => ∃ press more, presses = v.taken ++ press :: more ∧
      candidates possibleChords activeLayer (v.taken ++ [press]) = []

theorem scan_stops_of {possibleChords : List (ChordV2 A)} {activeLayer since : Nat}
    {rest taken : List PressWithTime} {left : List (ChordV2 A)} {ticks : Nat}
    (hticks : taken ≠ [] → ticks = timer since (candidates possibleChords activeLayer taken)) :
    (scan possibleChords activeLayer since taken left ticks rest).Stops possibleChords activeLayer
      since (taken ++ rest) := by
  induction rest generalizing taken left ticks with
  | nil => simpa [scan, Scan.Stops] using hticks
  | cons press rest ih =>
    have hfurther : ∀ left' ticks',
        ticks' = timer since (candidates possibleChords activeLayer (taken ++ [press])) →
        (scan possibleChords activeLayer since (taken ++ [press]) left' ticks' rest).Stops
          possibleChords activeLayer since (taken ++ press :: rest) := by
      intro left' ticks' hticks'
      rw [List.append_cons]
      exact ih fun _ => hticks'
    unfold scan
    dsimp only
    split
    · -- no candidate is left
      rename_i hnone
      exact ⟨press, rest, rfl, hnone⟩
    · rename_i cch hone
      split
      · -- the only candidate is complete
        simp [Scan.Stops, hone]
      · exact hfurther _ _ (by rw [hone])
    · exact hfurther _ _ rfl

theorem scan_stops (possibleChords : List (ChordV2 A)) (activeLayer since ticks : Nat)
    (presses : List PressWithTime) :
    (scan possibleChords activeLayer since [] [] ticks presses).Stops possibleChords activeLayer
      since presses :=
  scan_stops_of (by simp)

/-- The first `k` presses are those of the chord, and there the scan may stop:
everything is pressed and a decision is due, or the next press leaves no
candidate, or there is one candidate only. -/
def StopsAt (possibleChords : List (ChordV2 A)) (activeLayer : Nat) (queue : List Queued)
    (c : ChordV2 A) (k : Nat) : Prop :=
  isEnabled activeLayer c = true ∧ sameKeys ((pressesOf queue).take k) c = true ∧
    (k = (pressesOf queue).length ∧ (releaseFound queue = true ∨
        timer (headSince queue) (candidates possibleChords activeLayer (pressesOf queue)) = 0) ∨
      k < (pressesOf queue).length ∧
        candidates possibleChords activeLayer ((pressesOf queue).take (k + 1)) = [] ∨
      (candidates possibleChords activeLayer ((pressesOf queue).take k)).length = 1)

/-- An activated chord is one at which the scan may stop. -/
theorem decision_stopsAt {cfg : ChordsConfig A} {activeLayer : Nat} {queue : List Queued}
    {c : ChordV2 A} (h : c ∈ (queueDecision cfg activeLayer 0 queue).activations) :
    ∃ possibleChords ∈ possibleFor cfg (pressesOf queue), c ∈ possibleChords ∧
      ∃ k < (pressesOf queue).length + 1, StopsAt possibleChords activeLayer queue c k ∧
        (queueDecision cfg activeLayer 0 queue).taken = (pressesOf queue).take k := by
  have hcompletes : Completes cfg activeLayer (pressesOf queue)
      (queueDecision cfg activeLayer 0 queue).taken c := decision_completes h
  rcases hcompletes.configured with ⟨possibleChords, hpossible, hmem⟩
  have htake := List.prefix_iff_eq_take.mp hcompletes.taken_initial
  have hlen := hcompletes.taken_initial.length_le
  have hkeys := hcompletes.keys
  refine ⟨possibleChords, hpossible, hmem, _, Nat.lt_succ_of_le hlen,
    ⟨hcompletes.enabled, ?_, ?_⟩, htake⟩
  · rw [← htake]
    exact hkeys
  · have hdecision : queueDecision cfg activeLayer 0 queue =
        (scan possibleChords activeLayer (headSince queue) [] [] 0 (pressesOf queue)).decision
          possibleChords activeLayer (releaseFound queue) := decision_of_some hpossible
    have hne : pressesOf queue ≠ [] := by
      rcases possibleFor_eq_some.mp hpossible with ⟨first, rest, heq, _⟩
      simp [heq]
    have hstops := scan_stops possibleChords activeLayer (headSince queue) 0 (pressesOf queue)
    rw [← htake]
    rw [hdecision] at h ⊢
    generalize scan possibleChords activeLayer (headSince queue) [] [] 0 (pressesOf queue) = v
      at h hstops ⊢
    have htaken :
        (v.decision possibleChords activeLayer (releaseFound queue)).taken = v.taken := rfl
    rw [htaken]
    unfold Scan.Stops at hstops
    rcases hst : v.stop with _ | c' | c' <;> simp only [hst] at hstops
    · -- all presses are taken, so the block after the loop decided
      left
      refine ⟨by rw [hstops.1], ?_⟩
      simp only [Scan.decision, Scan.inLoop, hst, Option.toList_none, List.nil_append] at h
      split at h
      · rename_i hforced
        simp only [Scan.forced, hstops.2 hne, Bool.or_eq_true, beq_iff_eq] at hforced
        exact hforced.symm
      · simp at h
    · right
      right
      exact hstops
    · right
      left
      rcases hstops with ⟨press, more, hsplit, hnone⟩
      refine ⟨by rw [hsplit]; simp, ?_⟩
      have htake' : (pressesOf queue).take (v.taken.length + 1) = v.taken ++ [press] := by
        rw [hsplit, List.append_cons]
        exact List.take_left' (by simp)
      rw [htake', hnone]

/-- An event releases a key of the chord. -/
def releasesKeyOf (c : ChordV2 A) (qd : Queued) : Bool :=
  match qd.event with
  | .press _ _ => false
  | .release _ j => c.participatingKeys.contains j

/-- The releases of the chord's keys in the queue come after the first `k` presses,
and if `onFirstRelease` takes a release into account there is one of them. -/
def SeesOwn (queue : List Queued) (c : ChordV2 A) (k : Nat) : Prop :=
  (∀ i < queue.length, ∀ qd ∈ queue[i]?, releasesKeyOf c qd = true →
    k ≤ (queue.take i).countP isPress) ∧
  (c.releaseBehaviour = .onFirstRelease → releaseFound queue = true →
    ∃ qd ∈ queue, releasesKeyOf c qd = true)

/-- Where the scan may stop at a chord, the chord sees own releases only. -/
def OwnReleases (cfg : ChordsConfig A) (activeLayer : Nat) (queue : List Queued) : Prop :=
  ∀ possibleChords ∈ possibleFor cfg (pressesOf queue), ∀ c ∈ possibleChords,
    ∀ k < (pressesOf queue).length + 1, StopsAt possibleChords activeLayer queue c k →
      SeesOwn queue c k

theorem pressEvents_append (queue queue' : List Queued) :
    pressEvents (queue ++ queue') = pressEvents queue ++ pressEvents queue' :=
  List.filterMap_append

theorem pressEvents_length (queue : List Queued) :
    (pressEvents queue).length = queue.countP isPress := by
  induction queue with
  | nil => rfl
  | cons qd qds ih =>
    rcases hev : qd.event with ⟨i, j⟩ | ⟨i, j⟩
    · rw [pressEvents_press hev, List.countP_cons_of_pos (isPress_of_press hev),
        List.length_cons, ih]
    · rw [pressEvents_release hev, List.countP_cons_of_neg (by simp [isPress_of_release hev]), ih]

/-- An event that comes after the first `k` presses has a greater number. -/
theorem QueueOrdered.after_presses {arrived : List Event} {queue : List Queued}
    (hord : QueueOrdered arrived queue) {i k n : Nat} {qd : Queued} (hqd : queue[i]? = some qd)
    (hn : qd.origin = some n) (hk : k ≤ (queue.take i).countP isPress) :
    ∀ p ∈ (pressEvents queue).take k, ∃ m < n, p.origin = some m := by
  intro p hp
  have hsplit : queue = queue.take i ++ queue.drop i := (List.take_append_drop i queue).symm
  have hmem : p ∈ pressEvents (queue.take i) := by
    rw [hsplit, pressEvents_append, List.take_append_of_le_length] at hp
    · exact List.mem_of_mem_take hp
    · rw [pressEvents_length]
      exact hk
  rcases mem_pressEvents.mp hmem with ⟨qd', hqd', _, _, _, horigin⟩
  rcases hord.numbered qd' (List.mem_of_mem_take hqd') with ⟨m, hm, _⟩
  refine ⟨m, ?_, by rw [horigin, hm]⟩
  -- the press is in the part before, the event in the part after
  have hlt := hord.sorted
  rw [hsplit, arrivalsOf_append, List.append_assoc] at hlt
  have hdrop : qd ∈ queue.drop i := by
    rw [List.mem_iff_getElem?]
    exact ⟨0, by simpa using hqd⟩
  refine (List.pairwise_append.mp hlt).2.2 m ?_ n (List.mem_append_left _ ?_)
  · exact List.mem_filterMap.mpr ⟨qd', hqd', hm⟩
  · exact List.mem_filterMap.mpr ⟨qd, hdrop, hn⟩

/-! ## Where releases go -/

/-- Processing takes only presses from the pending events. -/
theorem Drained.pending_stays {cfg : ChordsConfig A} {activeLayer : Nat} {s s₁ : ChordsV2 A}
    (haged : Aged s.queue.items) (h : Drained cfg activeLayer s s₁)
    (hignore : s.ticksToIgnoreChord = 0) (hskip : canSkip activeLayer s = false) :
    s₁.queue.items.Sublist (pendingOf s.queue.items) ∧
      ∀ qd ∈ pendingOf s.queue.items, isPress qd = false → qd ∈ s₁.queue.items := by
  cases h with
  | ignoring hne => omega
  | skipped _ hskip' => simp [hskip] at hskip'
  | processed _ _ _ _ hpresses =>
    have hqueue := settled_queue activeLayer s
    have hperform := processPresses_ok (haged.sublist (hqueue ▸ pendingOf_sublist _)) hpresses
    rcases perform_eq_ok.mp hperform with ⟨_, _, achs, _, rfl⟩
    simp only [performed]
    split
    · rw [hqueue]
      exact ⟨List.Sublist.refl _, fun qd hqd _ => hqd⟩
    · rw [Bounded.retain_items, hqueue]
      refine ⟨List.filter_sublist, ?_⟩
      intro qd hqd hpress
      refine List.mem_filter.mpr ⟨hqd, ?_⟩
      rcases hev : qd.event with ⟨i, j⟩ | ⟨i, j⟩
      · simp [isPress_of_press hev] at hpress
      · simp [keepsEvent, hev]

theorem leading_append_pending (queue : List Queued) :
    leadingReleases (queue.filter isReal) ++ pendingOf queue = queue.filter isReal :=
  List.takeWhile_append_dropWhile

/-- A release of a real key is counted or stays. -/
theorem Drained.releases {cfg : ChordsConfig A} {activeLayer : Nat} {arrived : List Event}
    {s s₁ : ChordsV2 A} (hord : QueueOrdered arrived s.queue.items)
    (h : Drained cfg activeLayer s s₁) :
    (∀ qd ∈ s.queue.items, ∀ key, qd.event = .release 0 key →
      qd ∈ countedEvents activeLayer s ∨ qd ∈ s₁.queue.items) ∧
    ∀ qd ∈ countedEvents activeLayer s, qd ∈ s.queue.items ∧ qd ∉ s₁.queue.items := by
  by_cases hignore : 0 < s.ticksToIgnoreChord
  · -- everything is counted
    have hempty : s₁.queue.items = [] := by
      cases h with
      | ignoring _ => rfl
      | skipped hzero _ => omega
      | processed hzero _ _ _ _ => omega
    simp only [countedEvents, hignore, if_true, hempty]
    exact ⟨fun qd hqd _ _ => Or.inl hqd, fun qd hqd => ⟨hqd, by simp⟩⟩
  · have hzero : s.ticksToIgnoreChord = 0 := by omega
    by_cases hskip : canSkip activeLayer s = true
    · -- everything stays
      have hsame : s₁.queue.items = s.queue.items := by
        cases h with
        | ignoring hne => omega
        | skipped _ _ => rfl
        | processed _ hskip' _ _ _ => simp [hskip] at hskip'
      simp only [countedEvents, hignore, if_false, hskip, if_true, hsame]
      exact ⟨fun qd hqd _ _ => Or.inr hqd, fun qd hqd => by simp at hqd⟩
    · have hskip := Bool.eq_false_iff.mpr hskip
      rcases h.pending_stays hord.aged hzero hskip with ⟨hsub, hstay⟩
      have hsplit := leading_append_pending s.queue.items
      simp only [countedEvents, hignore, if_false, hskip, Bool.false_eq_true]
      constructor
      · intro qd hqd key hev
        have hreal : qd ∈ s.queue.items.filter isReal :=
          List.mem_filter.mpr ⟨hqd, by simp [isReal, hev, Event.coord]⟩
        rw [← hsplit] at hreal
        rcases List.mem_append.mp hreal with hleading | hpending
        · exact Or.inl hleading
        · exact Or.inr (hstay qd hpending (isPress_of_release hev))
      · intro qd hqd
        have hin : qd ∈ s.queue.items.filter isReal := hsplit ▸ List.mem_append_left _ hqd
        refine ⟨(List.mem_filter.mp hin).1, ?_⟩
        intro hstays
        -- leading and pending events have different numbers
        have hreal : QueueOrdered arrived (s.queue.items.filter isReal) :=
          hord.sublist List.filter_sublist
        have hnodup := hreal.nodup
        rw [← hsplit, arrivalsOf_append] at hnodup
        rcases hord.numbered qd (List.mem_filter.mp hin).1 with ⟨n, hn, _⟩
        exact (List.nodup_append.mp hnodup).2.2 n (List.mem_filterMap.mpr ⟨qd, hqd, hn⟩) n
          (List.mem_filterMap.mpr ⟨qd, hsub.subset hstays, hn⟩) rfl

/-- Releases of real keys wait as long as an older press does. -/
def Tidy (arrived : List Event) (queue : List Queued) : Prop :=
  ∀ m ∈ arrivalsOf queue, ∀ j, arrived[m]? = some (.press 0 j) →
    ∀ n key, m < n → arrived[n]? = some (.release 0 key) → n ∈ arrivalsOf queue

theorem Tidy.push {arrived : List Event} {queue : Queue} {event : Event}
    (hord : QueueOrdered arrived queue.items) (h : Tidy arrived queue.items) :
    Tidy (arrived ++ [event]) (queue.pushBack ⟨event, 0, some arrived.length⟩).1.items := by
  have hnew : arrivalsOf [(⟨event, 0, some arrived.length⟩ : Queued)] = [arrived.length] := rfl
  -- the queue loses its first event, if any
  have hcases : ∃ lost kept, arrivalsOf queue.items = lost ++ kept ∧
      arrivalsOf (queue.pushBack ⟨event, 0, some arrived.length⟩).1.items =
        kept ++ [arrived.length] := by
    rcases Bounded.pushBack_cases (by decide) queue ⟨event, 0, some arrived.length⟩ with
      ⟨hitems, _⟩ | ⟨qd, qds, hcons, _, hitems⟩
    · exact ⟨[], arrivalsOf queue.items, rfl, by rw [hitems, arrivalsOf_append, hnew]⟩
    · refine ⟨arrivalsOf [qd], arrivalsOf qds, ?_, by rw [hitems, arrivalsOf_append, hnew]⟩
      rw [hcons, ← arrivalsOf_append, List.singleton_append]
  rcases hcases with ⟨lost, kept, hold, hitems⟩
  have hsorted := hord.sorted
  intro m hm j hpress n key hlt hrel
  rw [hitems] at hm ⊢
  have hn : n < arrived.length + 1 := by
    have := (List.getElem?_eq_some_iff.mp hrel).1
    simpa using this
  by_cases hlast : n = arrived.length
  · exact List.mem_append_right _ (by simp [hlast])
  · have hn' : n < arrived.length := by omega
    have hkept : m ∈ kept := by
      rcases List.mem_append.mp hm with hm | hm
      · exact hm
      · rw [List.mem_singleton] at hm
        omega
    rw [List.getElem?_append_left (by omega)] at hpress hrel
    have hin := h m (hold ▸ List.mem_append_right _ hkept) j hpress n key hlt hrel
    rw [hold] at hin hsorted
    refine List.mem_append_left _ ((List.mem_append.mp hin).resolve_left ?_)
    intro hlost
    rw [List.append_assoc] at hsorted
    have := (List.pairwise_append.mp hsorted).2.2 n hlost m (List.mem_append_left _ hkept)
    omega

/-- A release that comes after a pending press stays in the queue. -/
theorem Drained.release_stays {cfg : ChordsConfig A} {activeLayer : Nat} {arrived : List Event}
    {s s₁ : ChordsV2 A} (hord : QueueOrdered arrived s.queue.items)
    (h : Drained cfg activeLayer s s₁) (hignore : s.ticksToIgnoreChord = 0)
    (hskip : canSkip activeLayer s = false) {m n key : Nat}
    (hm : m ∈ arrivalsOf (pendingOf s.queue.items)) (hlt : m < n)
    (hn : n ∈ arrivalsOf s.queue.items) (hrel : arrived[n]? = some (.release 0 key)) :
    n ∈ arrivalsOf s₁.queue.items := by
  rcases h.pending_stays hord.aged hignore hskip with ⟨_, hstay⟩
  rcases hord.event_of_arrival hn with ⟨qd, hqd, horigin, hev⟩
  rw [hrel, Option.some.injEq] at hev
  have hreal : qd ∈ s.queue.items.filter isReal :=
    List.mem_filter.mpr ⟨hqd, by simp [isReal, ← hev, Event.coord]⟩
  have hsplit := leading_append_pending s.queue.items
  have hsorted := (hord.sublist (List.filter_sublist (p := isReal))).sorted
  rw [← hsplit] at hreal hsorted
  refine List.mem_filterMap.mpr ⟨qd, hstay qd ?_ (isPress_of_release hev.symm), horigin⟩
  refine (List.mem_append.mp hreal).resolve_left ?_
  intro hleading
  rw [arrivalsOf_append, List.append_assoc] at hsorted
  have := (List.pairwise_append.mp hsorted).2.2 n
    (List.mem_filterMap.mpr ⟨qd, hleading, horigin⟩) m (List.mem_append_left _ hm)
  omega

theorem Drained.tidy {cfg : ChordsConfig A} {activeLayer : Nat} {arrived : List Event}
    {s s₁ : ChordsV2 A} (hord : QueueOrdered arrived s.queue.items)
    (h : Drained cfg activeLayer s s₁) (htidy : Tidy arrived s.queue.items) :
    Tidy arrived s₁.queue.items := by
  by_cases hlook : s.ticksToIgnoreChord = 0 ∧ canSkip activeLayer s = false
  · rcases hlook with ⟨hignore, hskip⟩
    intro m hm j hpress n key hlt hrel
    have hsub := (h.pending_stays hord.aged hignore hskip).1
    have hpending := (hsub.filterMap (·.origin)).subset hm
    have hin := ((pendingOf_sublist _).filterMap (·.origin)).subset hpending
    exact h.release_stays hord hignore hskip hpending hlt (htidy m hin j hpress n key hlt hrel) hrel
  · cases h with
    | ignoring _ =>
      intro m hm
      simp at hm
    | skipped _ _ => exact htidy
    | processed hignore hskip _ _ _ => exact absurd ⟨hignore, hskip⟩ hlook

/-! ## Activation -/

/-- The keys of the chords that a tick activates fit in the vector of keys to
release. -/
theorem Drained.keysFit {cfg : ChordsConfig A} {activeLayer : Nat} {s s₁ : ChordsV2 A}
    (haged : Aged s.queue.items) (h : Drained cfg activeLayer s s₁)
    (hignore : s.ticksToIgnoreChord = 0) (hskip : canSkip activeLayer s = false) :
    ∀ c ∈ (queueDecision cfg activeLayer 0 (pendingOf s.queue.items)).activations, KeysFit c := by
  cases h with
  | ignoring hne => omega
  | skipped _ hskip' => simp [hskip] at hskip'
  | processed _ _ _ _ hpresses =>
    have hqueue := settled_queue activeLayer s
    have hperform := processPresses_ok (haged.sublist (hqueue ▸ pendingOf_sublist _)) hpresses
    rw [hqueue] at hperform
    exact (perform_eq_ok.mp hperform).1

/-- A chord is tracked from its activation on. -/
theorem Tracked.spawn {cfg : ChordsConfig A} {activeLayer : Nat} {arrived : List Event}
    {s s₁ : ChordsV2 A} {ach : ActiveChord A} (hord : QueueOrdered arrived s.queue.items)
    (htidy : Tidy arrived s.queue.items) (hdrained : Drained cfg activeLayer s s₁)
    (hnext : keyMax < s.nextCoord)
    (hown : OwnReleases cfg activeLayer (pendingOf s.queue.items))
    (hach : ach ∈ spawned cfg activeLayer s) : Tracked arrived s₁.queue.items ach := by
  rcases mem_spawned hnext hach with ⟨hignore, hskip, c, hc, coord, _, rfl⟩
  rcases decision_stopsAt hc with ⟨possibleChords, hpossible, hmem, k, hk, hstops, htaken⟩
  rcases hown possibleChords hpossible c hmem k hk hstops with ⟨hlate, hforced⟩
  have hfit := hdrained.keysFit hord.aged hignore hskip c hc
  have hstay := hdrained.pending_stays hord.aged hignore hskip
  have hpord : QueueOrdered arrived (pendingOf s.queue.items) :=
    hord.sublist (pendingOf_sublist _)
  generalize hq : pendingOf s.queue.items = queue at *
  rw [htaken]
  have hkeys_ne : c.participatingKeys ≠ [] := by
    intro hnil
    have := c.two_le
    simp [hnil] at this
  -- the presses of the chord are the first presses of the queue
  have hinitial : (pressesOf queue).take k = (pressEvents queue).take k := by
    have hle : k ≤ (pressesOf queue).length := Nat.le_of_lt_succ hk
    rw [List.prefix_iff_eq_take.mp (pressesOf_initial queue), List.take_take, Nat.min_eq_left hle]
  have hnumbered : ∀ p ∈ (pressesOf queue).take k, ∃ m ∈ arrivalsOf queue, p.origin = some m ∧
      arrived[m]? = some (.press 0 p.key) := by
    intro p hp
    rw [hinitial] at hp
    rcases mem_pressEvents.mp (List.mem_of_mem_take hp) with ⟨qd, hqd, i, hev, _, horigin⟩
    rcases hpord.numbered qd hqd with ⟨m, hm, harr⟩
    have hrow : i = 0 := by
      have hreal := isReal_of_mem_pendingOf (hq ▸ hqd)
      simpa [isReal, hev, Event.coord] using hreal
    refine ⟨m, List.mem_filterMap.mpr ⟨qd, hqd, hm⟩, by rw [horigin, hm], ?_⟩
    rw [harr, hev, hrow]
  -- a release of one of its keys that waits comes after them
  have hafter : ∀ qd ∈ queue, releasesKeyOf c qd = true → ∀ n, qd.origin = some n →
      ∀ p ∈ (pressesOf queue).take k, ∃ m < n, p.origin = some m := by
    intro qd hqd hrel n hn
    rcases List.mem_iff_getElem?.mp hqd with ⟨i, hi⟩
    rw [hinitial]
    exact hpord.after_presses hi hn
      (hlate i (List.getElem?_eq_some_iff.mp hi).1 qd hi hrel)
  refine ⟨hkeys_ne, ?_, ?_, ⟨?_, ?_, ?_⟩, ?_⟩
  · intro p hp
    rcases hnumbered p hp with ⟨m, hm, horigin, _⟩
    exact ⟨m, hpord.lt m hm, horigin⟩
  · intro n hn key hkey hev
    rcases hpord.event_of_arrival ((hstay.1.filterMap _).subset hn) with ⟨qd, hqd, horigin, harr⟩
    rw [hev, Option.some.injEq] at harr
    have hkey : key ∈ c.participatingKeys := hkey
    refine ⟨hev, hafter qd hqd ?_ n horigin⟩
    simpa [releasesKeyOf, ← harr] using hkey
  · intro hfirst
    have hbehaviour : c.releaseBehaviour = .onFirstRelease := hfirst
    simp [Chord.spawn, hbehaviour]
  · -- no release of its keys has left the queue since its presses came
    intro hlast key
    have hbehaviour : c.releaseBehaviour = .onLastRelease := hlast
    have hremaining : (Chord.spawn c (headSince queue) coord (releaseFound queue)
        ((pressesOf queue).take k)).remainingKeysToRelease.items = c.participatingKeys := by
      simp [Chord.spawn, hbehaviour, List.take_of_length_le (hfit hbehaviour)]
    have hkeys : (Chord.spawn c (headSince queue) coord (releaseFound queue)
        ((pressesOf queue).take k)).participatingKeys = c.participatingKeys := rfl
    rw [hremaining, hkeys]
    refine ⟨fun hkey => ⟨hkey, ?_⟩, fun hkey => hkey.1⟩
    rintro ⟨n, ⟨hrel, hpresses⟩, hout⟩
    have hne : (pressesOf queue).take k ≠ [] := by
      intro hnil
      have hsame := sameKeys_iff.mp hstops.2.1
      rw [hnil] at hsame
      rcases List.exists_mem_of_ne_nil _ hkeys_ne with ⟨key', hkey'⟩
      simpa using (hsame key').mp hkey'
    rcases List.exists_mem_of_ne_nil _ hne with ⟨p, hp⟩
    rcases hnumbered p hp with ⟨m, hm, horigin, hpress⟩
    rcases hpresses p hp with ⟨m', hlt, horigin'⟩
    rw [horigin, Option.some.injEq] at horigin'
    subst horigin'
    have hin : m ∈ arrivalsOf s.queue.items :=
      ((pendingOf_sublist _).filterMap (·.origin)).subset (hq ▸ hm)
    have hwaits := htidy m hin _ hpress n key hlt hrel
    exact hout (hdrained.release_stays hord hignore hskip (hq ▸ hm) hlt hwaits hrel)
  · intro hlast
    have hbehaviour : c.releaseBehaviour = .onLastRelease := hlast
    simp [Chord.spawn, hbehaviour, ActiveChordStatus.isReleased, hkeys_ne,
      smolQLen]
  · intro hfirst hreleased
    have hbehaviour : c.releaseBehaviour = .onFirstRelease := hfirst
    have hfound : releaseFound queue = true := by
      by_contra hnot
      simp [Chord.spawn, hnot, ActiveChordStatus.isReleased] at hreleased
    rcases hforced hbehaviour hfound with ⟨qd, hqd, hrel⟩
    rcases hpord.numbered qd hqd with ⟨n, hn, harr⟩
    rcases hev : qd.event with ⟨i, j⟩ | ⟨i, j⟩
    · simp [releasesKeyOf, hev] at hrel
    · have hrow : i = 0 := by
        have hreal := isReal_of_mem_pendingOf (hq ▸ hqd)
        simpa [isReal, hev, Event.coord] using hreal
      have hkey : j ∈ c.participatingKeys := by simpa [releasesKeyOf, hev] using hrel
      exact ⟨j, hkey, n, by rw [harr, hev, hrow], hafter qd hqd hrel n hn⟩

/-! ## Runs -/

/-- While chords are ignored no virtual key with the number of a participating key
is released; a tick that looks at the presses sees own releases only. -/
def OrderlyTick (cfg : ChordsConfig A) (activeLayer : Nat) (s : ChordsV2 A) : Prop :=
  if 0 < s.ticksToIgnoreChord then
    ∀ key ∈ releasedKeys (virtualEvents s.queue.items), ∀ ach ∈ s.activeChords.items,
      key ∉ ach.participatingKeys
  else canSkip activeLayer s = false → OwnReleases cfg activeLayer (pendingOf s.queue.items)

/-- Ticks are orderly, and a full queue does not lose a release that an active chord
waits for. -/
def Orderly (cfg : ChordsConfig A) (s : Session A) : Op → Prop
  | .push _ => s.chv2.queue.isFull = true → ∀ qd ∈ s.chv2.queue.items.head?,
    ∀ ach ∈ s.chv2.activeChords.items, ∀ key ∈ ach.remainingKeysToRelease.items,
      qd.event ≠ .release 0 key
  | .tick activeLayer => OrderlyTick cfg activeLayer s.chv2.age
  | .getAction => True

/-- The ledger is kept, and the statuses of the chords that are active or were
removed follow the law. -/
structure ReleaseLaw (ls : List (Log A)) (s : Session A) : Prop where
  ledger : Ledger ls s
  statuses : ∀ ach ∈ removed ls ++ s.chv2.activeChords.items,
    StatusLaw s.arrived s.chv2.queue.items ach

/-- The invariant of a session. -/
structure Tracking (ls : List (Log A)) (s : Session A) : Prop where
  ordered : s.Ordered
  ledger : Ledger ls s
  tidy : Tidy s.arrived s.chv2.queue.items
  tracked : ∀ ach ∈ s.chv2.activeChords.items, Tracked s.arrived s.chv2.queue.items ach
  gone : ∀ ach ∈ removed ls, StatusLaw s.arrived s.chv2.queue.items ach

theorem Tracking.law {ls : List (Log A)} {s : Session A} (h : Tracking ls s) : ReleaseLaw ls s := by
  refine ⟨h.ledger, ?_⟩
  intro ach hach
  rcases List.mem_append.mp hach with hach | hach
  · exact h.gone ach hach
  · exact (h.tracked ach hach).law

/-- Only the identity, the keys to release and the status matter. -/
theorem Tracked.congr {arrived : List Event} {queue : List Queued} {ach ach' : ActiveChord A}
    (h : Tracked arrived queue ach) (hid : ach'.identity = ach.identity)
    (hremaining : ach'.remainingKeysToRelease = ach.remainingKeysToRelease)
    (hstatus : ach'.status.isReleased = ach.status.isReleased) : Tracked arrived queue ach' := by
  have hkeys : ach'.participatingKeys = ach.participatingKeys :=
    congrArg ChordIdentity.participatingKeys hid
  have hpresses : ach'.history.presses = ach.history.presses := congrArg ChordIdentity.presses hid
  have hbehaviour : ach'.history.releaseBehaviour = ach.history.releaseBehaviour :=
    congrArg ChordIdentity.releaseBehaviour hid
  refine ⟨hkeys ▸ h.keys_ne, hpresses ▸ h.old, ?_, ⟨?_, ?_, ?_⟩, ?_⟩
  · rw [hkeys, hpresses]
    exact h.own
  · rw [hbehaviour, hremaining]
    exact h.counts.first
  · rw [hbehaviour, hremaining, hkeys, hpresses]
    exact h.counts.last
  · rw [hbehaviour, hremaining, hstatus]
    exact h.counts.status
  · rw [hbehaviour, hstatus, hkeys, hpresses]
    exact h.first

/-- The law of a removed chord stays true. -/
theorem StatusLaw.later {arrived more : List Event} {queue queue' : List Queued}
    {ach : ActiveChord A} (h : StatusLaw arrived queue ach) (hreleased : ach.status = .released)
    (hsub : ∀ n ∈ arrivalsOf queue', n ∈ arrivalsOf queue ∨ arrived.length ≤ n) :
    StatusLaw (arrived ++ more) queue' ach := by
  have hstatus : ach.status.isReleased = true := by rw [hreleased]; rfl
  have hmore : ∀ key n, ReleasedAfter arrived ach.history.presses key n →
      ReleasedAfter (arrived ++ more) ach.history.presses key n := by
    intro key n hafter
    have hlt := (List.getElem?_eq_some_iff.mp hafter.1).1
    exact ⟨by rw [List.getElem?_append_left hlt, hafter.1], hafter.2⟩
  refine ⟨?_, ?_⟩
  · intro hfirst _
    rcases h.first hfirst hstatus with ⟨key, hkey, n, hafter⟩
    exact ⟨key, hkey, n, hmore key n hafter⟩
  · intro hlast
    refine ⟨fun _ key hkey => ?_, fun _ => hstatus⟩
    rcases (h.last hlast).mp hstatus key hkey with ⟨n, hafter, hout⟩
    refine ⟨n, hmore key n hafter, ?_⟩
    intro hin
    have hlt := (List.getElem?_eq_some_iff.mp hafter.1).1
    rcases hsub n hin with hin | hle
    · exact hout hin
    · omega

theorem Tracking.push {cfg : ChordsConfig A} {ls : List (Log A)} {s s' : Session A}
    {event : Event} {l : Log A} (h : Tracking ls s) (hcond : Orderly cfg s (.push event))
    (hstep : stepLogged cfg s (.push event) = .ok (s', l)) : Tracking (ls ++ [l]) s' := by
  have hord : s'.Ordered := step_ordered h.ordered (stepLogged_eq_ok.mp hstep).1
  have hledger := h.ledger.step h.ordered hstep
  rcases stepLogged_eq_ok.mp hstep with ⟨hpush, _, hrem⟩
  simp only [Session.step, stepWith, pure_eq_ok, Prod.mk.injEq] at hpush
  rcases hpush with ⟨rfl, _⟩
  have hremoved : removed (ls ++ [l]) = removed ls := by simp [removed_append, hrem, removedBy]
  refine ⟨hord, hledger, h.tidy.push h.ordered, ?_, ?_⟩
  · intro ach hach
    refine (h.tracked ach hach).push h.ordered ?_
    exact fun hfull qd hqd key hkey => hcond hfull qd hqd ach hach key hkey
  · rw [hremoved]
    intro ach hach
    refine (h.gone ach hach).later (h.ledger.gone ach hach) ?_
    intro n hn
    have hmem := ((Bounded.pushBack_sublist s.chv2.queue
      ⟨event, 0, some s.arrived.length⟩).filterMap (·.origin)).subset hn
    rw [List.filterMap_append, List.mem_append] at hmem
    rcases hmem with hmem | hmem
    · exact Or.inl hmem
    · right
      simp only [List.filterMap_cons, List.filterMap_nil, List.mem_singleton] at hmem
      omega

theorem Tracking.getAction {cfg : ChordsConfig A} {ls : List (Log A)} {s s' : Session A}
    {l : Log A} (h : Tracking ls s) (hstep : stepLogged cfg s .getAction = .ok (s', l)) :
    Tracking (ls ++ [l]) s' := by
  have hord : s'.Ordered := step_ordered h.ordered (stepLogged_eq_ok.mp hstep).1
  have hledger := h.ledger.step h.ordered hstep
  rcases stepLogged_eq_ok.mp hstep with ⟨haction, _, hrem⟩
  simp only [Session.step, stepWith, pure_eq_ok, Prod.mk.injEq] at haction
  rcases haction with ⟨rfl, _⟩
  have hremoved : removed (ls ++ [l]) = removed ls := by simp [removed_append, hrem, removedBy]
  refine ⟨hord, hledger, h.tidy, ?_, by rw [hremoved]; exact h.gone⟩
  have htracked := h.tracked
  show ∀ ach ∈ (findUnread s.chv2.activeChords.items).1, _
  rcases findUnread_cases s.chv2.activeChords.items with
    hnone | ⟨before, ach, after, st, hachs, hst, hfound⟩
  · rw [hnone]
    exact htracked
  · rw [hfound]
    rw [hachs] at htracked
    intro a ha
    rcases List.mem_append.mp ha with ha | ha
    · exact htracked a (by simp [ha])
    · rcases List.mem_cons.mp ha with rfl | ha
      · exact (htracked ach (by simp)).congr rfl rfl (read_eq_some hst).2.2
      · exact htracked a (by simp [ha])

/-- After draining, the old chords and the new ones are tracked. -/
theorem Drained.tracked {cfg : ChordsConfig A} {activeLayer : Nat} {arrived : List Event}
    {s s₁ : ChordsV2 A} (hord : QueueOrdered arrived s.queue.items)
    (htidy : Tidy arrived s.queue.items) (hnext : keyMax < s.nextCoord)
    (htracked : ∀ ach ∈ s.activeChords.items, Tracked arrived s.queue.items ach)
    (hcond : OrderlyTick cfg activeLayer s) (h : Drained cfg activeLayer s s₁) :
    ∀ ach ∈ s₁.activeChords.items, Tracked arrived s₁.queue.items ach := by
  rw [h.activeChords hord.aged]
  intro ach hach
  rcases List.mem_append.mp hach with hach | hach
  · -- releases are counted for an old chord
    rcases List.mem_map.mp hach with ⟨old, hold, rfl⟩
    rcases h.releases hord with ⟨hgo, hgone⟩
    refine (htracked old hold).release hord (fun qd hqd => (hgone qd hqd).1)
      (h.queue_sublist hord.aged) ?_ hgo fun qd hqd => (hgone qd hqd).2
    intro qd hqd i j hj hev
    by_contra hrow
    have hvirtual : isReal qd = false := by simp [isReal, hev, Event.coord, hrow]
    by_cases hignore : 0 < s.ticksToIgnoreChord
    · simp only [OrderlyTick, hignore, if_true] at hcond
      refine hcond j (mem_releasedKeys.mpr ⟨qd, ?_, i, hev⟩) old hold hj
      exact List.mem_filter.mpr ⟨(hgone qd hqd).1, by simp [hvirtual]⟩
    · simp only [countedEvents, hignore, if_false] at hqd
      split at hqd
      · simp at hqd
      · have hreal := (List.mem_filter.mp ((List.takeWhile_sublist _).subset hqd)).2
        simp [hvirtual] at hreal
  · rcases mem_spawned hnext hach with ⟨hignore, hskip, _⟩
    have hnot : ¬ 0 < s.ticksToIgnoreChord := by omega
    simp only [OrderlyTick, hnot, if_false] at hcond
    exact Tracked.spawn hord htidy h hnext (hcond hskip) hach

theorem Tracking.tick {cfg : ChordsConfig A} {ls : List (Log A)} {s s' : Session A}
    {activeLayer : Nat} {l : Log A} (h : Tracking ls s)
    (hcond : Orderly cfg s (.tick activeLayer))
    (hstep : stepLogged cfg s (.tick activeLayer) = .ok (s', l)) : Tracking (ls ++ [l]) s' := by
  have hord : s'.Ordered := step_ordered h.ordered (stepLogged_eq_ok.mp hstep).1
  have hledger := h.ledger.step h.ordered hstep
  rcases stepLogged_tick hstep with ⟨s₁, hdrained, _, rfl, _, _, hrem⟩
  have hage : QueueOrdered s.arrived s.chv2.age.queue.items := QueueOrdered.tick h.ordered
  have harrivals : arrivalsOf s.chv2.age.queue.items = arrivalsOf s.chv2.queue.items :=
    arrivalsOf_map_tickQd _
  have htidy : Tidy s.arrived s.chv2.age.queue.items := by
    unfold Tidy
    rw [harrivals]
    exact h.tidy
  have hold : ∀ ach ∈ s.chv2.age.activeChords.items,
      Tracked s.arrived s.chv2.age.queue.items ach := by
    intro ach hach
    rcases List.mem_map.mp hach with ⟨ach', hach', rfl⟩
    have htracked : Tracked s.arrived s.chv2.queue.items (tickAch ach') :=
      (h.tracked ach' hach').congr rfl rfl rfl
    have hreceived : Received s.arrived s.chv2.age.queue.items =
        Received s.arrived s.chv2.queue.items := by
      funext presses key
      simp only [Received, harrivals]
    refine ⟨htracked.keys_ne, htracked.old, ?_, ?_, htracked.first⟩
    · rw [harrivals]
      exact htracked.own
    · rw [hreceived]
      exact htracked.counts
  have htracked := hdrained.tracked hage htidy h.ledger.next hold hcond
  have htidy₁ : Tidy s.arrived s₁.queue.items := hdrained.tidy hage htidy
  refine ⟨hord, hledger, htidy₁, ?_, ?_⟩
  · intro ach hach
    exact htracked ach (List.mem_filter.mp hach).1
  · rw [removed_append, hrem]
    intro ach hach
    rcases List.mem_append.mp hach with hach | hach
    · have hlater : StatusLaw (s.arrived ++ []) s₁.queue.items ach := by
        refine (h.gone ach hach).later (h.ledger.gone ach hach) ?_
        intro n hn
        have hin := ((hdrained.queue_sublist hage.aged).filterMap (·.origin)).subset hn
        exact Or.inl (harrivals ▸ hin)
      rwa [List.append_nil] at hlater
    · exact (htracked ach (List.mem_filter.mp hach).1).law

/-- In an orderly run the ledger of the chords is kept, and the statuses follow
the releases of the chords' own keys. -/
theorem release_law (cfg : ChordsConfig A) (ops : List Op)
    (h : Along (Session.step cfg) (Orderly cfg) Session.new ops) :
    ∀ s ls, run (stepLogged cfg) Session.new ops = .ok (s, ls) → ReleaseLaw ls s := by
  intro s ls hrun
  have hstart : Tracking ([] : List (Log A)) Session.new := by
    refine ⟨new_ordered, ⟨List.Perm.refl _, List.Perm.refl _, rfl, ?_, ?_, ?_, ?_⟩, ?_, ?_, ?_⟩
    · simp [removed, Session.new, ChordsV2.new]
    · simp [removed]
    · simp [Session.new, ChordsV2.new]
    · simp [Session.new, ChordsV2.new]
    · intro m hm
      simp [Session.new, ChordsV2.new] at hm
    · simp [Session.new, ChordsV2.new]
    · simp [removed]
  have hend : Tracking ls s := by
    refine run_history (fun done s op s' l hinv hP hstep => ?_) hstart (along_stepLogged h) hrun
    cases op with
    | push event => exact hinv.push hP hstep
    | getAction => exact hinv.getAction hstep
    | tick activeLayer => exact hinv.tick hP hstep
  exact hend.law

/-! ## A foreign release -/

instance (possibleChords : List (ChordV2 A)) (activeLayer : Nat) (queue : List Queued)
    (c : ChordV2 A) (k : Nat) : Decidable (StopsAt possibleChords activeLayer queue c k) := by
  unfold StopsAt
  infer_instance

instance (queue : List Queued) (c : ChordV2 A) (k : Nat) : Decidable (SeesOwn queue c k) := by
  unfold SeesOwn
  infer_instance

instance (cfg : ChordsConfig A) (activeLayer : Nat) (queue : List Queued) :
    Decidable (OwnReleases cfg activeLayer queue) := by
  unfold OwnReleases
  infer_instance

instance (cfg : ChordsConfig A) (activeLayer : Nat) (s : ChordsV2 A) :
    Decidable (OrderlyTick cfg activeLayer s) := by
  unfold OrderlyTick
  infer_instance

instance (cfg : ChordsConfig A) (s : Session A) (op : Op) : Decidable (Orderly cfg s op) :=
  match op with
  | .push _ =>
    inferInstanceAs (Decidable (s.chv2.queue.isFull = true → ∀ qd ∈ s.chv2.queue.items.head?,
      ∀ ach ∈ s.chv2.activeChords.items, ∀ key ∈ ach.remainingKeysToRelease.items,
        qd.event ≠ .release 0 key))
  | .tick activeLayer => inferInstanceAs (Decidable (OrderlyTick cfg activeLayer s.chv2.age))
  | .getAction => .isTrue trivial

/-- The chord of `a` (30) and `b` (48) is contained in one with `d` (32) too. -/
def nestedChords : ChordsConfig Nat where
  chords := ⟨fun key =>
    let ab : ChordV2 Nat := .pair 1 30 48 50
    let abd : ChordV2 Nat := ⟨2, [30, 32, 48], 50, [], .onFirstRelease, Nat.le_succ 2, by decide⟩
    if key = 30 ∨ key = 48 then some [ab, abd] else if key = 32 then some [abd] else none⟩
  configuredTicksToIgnoreChord := minTicksToIgnoreChord
  debugAssertions := true
  ticks_ge := five_le_minTicks

/-- After `a` and `b` a key `c` (46) without chords is tapped. -/
def foreignTap : List Op :=
  [.push (.press 0 30), .push (.press 0 48), .push (.press 0 46), .push (.release 0 46), .tick 0]

/-- The chord counts as released although `a` and `b` are held. -/
theorem foreignTap_status :
    (run (stepLogged nestedChords) Session.new foreignTap).map (fun r =>
      (r.1.arrived, r.1.chv2.activeChords.items.map fun ach =>
        (ach.participatingKeys, ach.history.releaseBehaviour, ach.status.isReleased))) =
      .ok ([.press 0 30, .press 0 48, .press 0 46, .release 0 46],
        [([30, 48], .onFirstRelease, true)]) := by
  decide

theorem release_law_fails :
    ¬ ∀ s ls, run (stepLogged nestedChords) Session.new foreignTap = .ok (s, ls) →
      ReleaseLaw ls s := by
  intro h
  have hstatus := foreignTap_status
  rcases hr : run (stepLogged nestedChords) Session.new foreignTap with e | ⟨s, ls⟩
  · simp [hr, Except.map] at hstatus
  · simp only [hr, Except.map, Except.ok.injEq, Prod.mk.injEq] at hstatus
    rcases hstatus with ⟨harrived, hachs⟩
    rcases hitems : s.chv2.activeChords.items with _ | ⟨ach, achs⟩
    · simp [hitems] at hachs
    · rw [hitems, List.map_cons, List.cons.injEq, Prod.mk.injEq, Prod.mk.injEq] at hachs
      rcases hachs with ⟨⟨hkeys, hbehaviour, hreleased⟩, _⟩
      have hlaw := (h s ls hr).statuses ach (by simp [hitems])
      rcases hlaw.first hbehaviour hreleased with ⟨key, hkey, n, hafter⟩
      have hmem := List.mem_of_getElem? hafter.1
      rw [harrived] at hmem
      rw [hkeys] at hkey
      have hforeign : ∀ key ∈ [30, 48], Event.release 0 key ∉
          [Event.press 0 30, .press 0 48, .press 0 46, .release 0 46] := by decide
      exact hforeign key hkey hmem

/-- The chord of `a` and `b` is made, handed out and released by `a`. -/
def ownTap : List Op :=
  [.push (.press 0 30), .push (.press 0 48), .push (.release 0 30), .tick 0, .getAction, .tick 0]

theorem release_law_own :
    ∃ s ls, run (stepLogged nestedChords) Session.new ownTap = .ok (s, ls) ∧ ReleaseLaw ls s := by
  obtain ⟨⟨s, ls⟩, hrun⟩ : ∃ r, run (stepLogged nestedChords) Session.new ownTap = .ok r :=
    exists_ok_of_isOk (by decide)
  exact ⟨s, ls, hrun, release_law nestedChords ownTap (by decide) s ls hrun⟩

end Kanata.Chord
