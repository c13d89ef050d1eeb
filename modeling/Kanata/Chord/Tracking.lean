import Kanata.Chord.Ledger

/-!
# Kanata.Chord.Tracking — following one active chord

`StatusLaw` says when a chord counts as released: with `onFirstRelease` only
because one of its own keys was released after its presses, with `onLastRelease`
exactly when all of its keys were.

`Counts` is the arithmetic behind it: the keys to release are the participating
keys that were not counted. `Tracked` is the invariant of one active chord, kept
when releases leave the queue (`Tracked.release`) and when an event arrives
(`Tracked.push`).
-/

namespace Kanata.Chord

open Fallible ChordsV2 Machine Session

variable {A : Type}

/-! ## The law -/

/-- The arrival `n` is a release of `key` after all the presses. -/
def ReleasedAfter (arrived : List Event) (presses : List PressWithTime) (key n : Nat) : Prop :=
  arrived[n]? = some (.release 0 key) ∧ ∀ p ∈ presses, ∃ m < n, p.origin = some m

/-- A release of `key` after all the presses has left the queue. -/
def Received (arrived : List Event) (queue : List Queued) (presses : List PressWithTime)
    (key : Nat) : Prop :=
  ∃ n, ReleasedAfter arrived presses key n ∧ n ∉ arrivalsOf queue

structure StatusLaw (arrived : List Event) (queue : List Queued) (ach : ActiveChord A) :
    Prop where
  first : ach.history.releaseBehaviour = .onFirstRelease → ach.status.isReleased = true →
    ∃ key ∈ ach.participatingKeys, ∃ n, ReleasedAfter arrived ach.history.presses key n
  last : ach.history.releaseBehaviour = .onLastRelease →
    (ach.status.isReleased = true ↔
      ∀ key ∈ ach.participatingKeys, Received arrived queue ach.history.presses key)

/-! ## Counting keys -/

/-- The keys to release are those that were not counted yet, where `counted` says
which were. -/
structure Counts (counted : Nat → Prop) (ach : ActiveChord A) : Prop where
  first : ach.history.releaseBehaviour = .onFirstRelease → ach.remainingKeysToRelease.items = []
  last : ach.history.releaseBehaviour = .onLastRelease → ∀ key,
    key ∈ ach.remainingKeysToRelease.items ↔ key ∈ ach.participatingKeys ∧ ¬ counted key
  status : ach.history.releaseBehaviour = .onLastRelease →
    (ach.status.isReleased = true ↔ ach.remainingKeysToRelease.items = [])

/-- The keys that are released in some events. -/
def releasedKeys (qds : List Queued) : List Nat :=
  qds.filterMap fun qd =>
    match qd.event with
    | .press _ _ => none
    | .release _ j => some j

theorem releasedKeys_press {qd : Queued} {i j : Nat} (h : qd.event = .press i j)
    (qds : List Queued) : releasedKeys (qd :: qds) = releasedKeys qds := by
  simp [releasedKeys, h]

theorem releasedKeys_release {qd : Queued} {i j : Nat} (h : qd.event = .release i j)
    (qds : List Queued) : releasedKeys (qd :: qds) = j :: releasedKeys qds := by
  simp [releasedKeys, h]

theorem mem_releasedKeys {qds : List Queued} {key : Nat} :
    key ∈ releasedKeys qds ↔ ∃ qd ∈ qds, ∃ i, qd.event = .release i key := by
  simp only [releasedKeys, List.mem_filterMap]
  constructor
  · rintro ⟨qd, hqd, h⟩
    rcases hev : qd.event with ⟨i, j⟩ | ⟨i, j⟩ <;> simp [hev] at h
    subst h
    exact ⟨qd, hqd, i, hev⟩
  · rintro ⟨qd, hqd, i, hev⟩
    exact ⟨qd, hqd, by simp [hev]⟩

theorem Counts.congr {counted counted' : Nat → Prop} {ach : ActiveChord A}
    (h : Counts counted ach)
    (hiff : ach.history.releaseBehaviour = .onLastRelease →
      ∀ key ∈ ach.participatingKeys, counted key ↔ counted' key) : Counts counted' ach := by
  refine ⟨h.first, ?_, h.status⟩
  intro hlast key
  rw [h.last hlast key]
  constructor
  · intro hkey
    exact ⟨hkey.1, fun hc => hkey.2 ((hiff hlast key hkey.1).mpr hc)⟩
  · intro hkey
    exact ⟨hkey.1, fun hc => hkey.2 ((hiff hlast key hkey.1).mp hc)⟩

theorem Counts.releaseKey {counted : Nat → Prop} {ach : ActiveChord A} (h : Counts counted ach)
    (qd : Queued) (j : Nat) : Counts (fun key => counted key ∨ key = j) (releaseKey qd j ach) := by
  unfold ChordsV2.releaseKey
  by_cases hj : j ∈ ach.participatingKeys
  · -- a key of the chord
    have hcontains : (!ach.participatingKeys.contains j) = false := by simpa using hj
    simp only [hcontains, Bool.false_eq_true, if_false]
    refine ⟨?_, ?_, ?_⟩
    · intro hfirst
      simp [h.first hfirst]
    · intro hlast key
      simp only [Bounded.retain_items, List.mem_filter, h.last hlast key, bne_iff_ne, ne_eq, not_or,
        and_assoc]
    · intro hlast
      have hstatus := h.status hlast
      simp only [Bounded.retain_items, List.isEmpty_iff]
      split
      · rename_i hnil
        simp [hnil]
      · rename_i hnil
        -- a key is left, so there was one before
        have hne : ¬ ach.remainingKeysToRelease.items = [] := by
          intro heq
          simp [heq] at hnil
        simp [hnil, hstatus, hne]
  · -- a key of no interest
    have hcontains : (!ach.participatingKeys.contains j) = true := by simpa using hj
    simp only [hcontains, if_true]
    refine h.congr fun _ key hkey => ?_
    have hne : key ≠ j := fun heq => hj (heq ▸ hkey)
    simp [hne]

theorem Counts.releaseBy {counted : Nat → Prop} {ach : ActiveChord A} (h : Counts counted ach)
    (qds : List Queued) :
    Counts (fun key => counted key ∨ key ∈ releasedKeys qds) (releaseBy qds ach) := by
  induction qds generalizing ach counted with
  | nil => simpa [releasedKeys] using h
  | cons qd qds ih =>
    rcases hev : qd.event with ⟨i, j⟩ | ⟨i, j⟩
    · rw [releaseBy_press hev, releasedKeys_press hev]
      exact ih h
    · rw [releaseBy_release hev, releasedKeys_release hev]
      refine (ih (h.releaseKey qd j)).congr fun _ key _ => ?_
      rw [List.mem_cons, or_assoc]

/-- A chord is released by one of its own keys. -/
theorem isReleased_releaseBy {qds : List Queued} {ach : ActiveChord A}
    (h : (releaseBy qds ach).status.isReleased = true) :
    ach.status.isReleased = true ∨ ∃ key ∈ ach.participatingKeys, key ∈ releasedKeys qds := by
  induction qds generalizing ach with
  | nil => exact Or.inl h
  | cons qd qds ih =>
    rcases hev : qd.event with ⟨i, j⟩ | ⟨i, j⟩
    · rw [releaseBy_press hev] at h
      rw [releasedKeys_press hev]
      exact ih h
    · rw [releaseBy_release hev] at h
      rw [releasedKeys_release hev]
      have hkeys : (releaseKey qd j ach).participatingKeys = ach.participatingKeys :=
        congrArg ChordIdentity.participatingKeys (releaseKey_identity qd j ach)
      by_cases hj : j ∈ ach.participatingKeys
      · exact Or.inr ⟨j, hj, List.mem_cons_self⟩
      · have hsame : releaseKey qd j ach = ach := by simp [releaseKey, hj]
        rw [hsame] at h
        rcases ih h with hrel | ⟨key, hkey, hmem⟩
        · exact Or.inl hrel
        · exact Or.inr ⟨key, hkey, List.mem_cons_of_mem _ hmem⟩

/-! ## Tracking an active chord -/

theorem QueueOrdered.event_of_arrival {arrived : List Event} {queue : List Queued}
    (h : QueueOrdered arrived queue) {n : Nat} (hn : n ∈ arrivalsOf queue) :
    ∃ qd ∈ queue, qd.origin = some n ∧ arrived[n]? = some qd.event := by
  rcases List.mem_filterMap.mp hn with ⟨qd, hqd, horigin⟩
  rcases h.numbered qd hqd with ⟨m, hm, hev⟩
  rw [horigin, Option.some.injEq] at hm
  exact ⟨qd, hqd, horigin, hm ▸ hev⟩

/-- What holds of an active chord: its presses have arrived, every release of its
keys that waits is later, and the statuses follow the releases received. -/
structure Tracked (arrived : List Event) (queue : List Queued) (ach : ActiveChord A) : Prop where
  keys_ne : ach.participatingKeys ≠ []
  old : ∀ p ∈ ach.history.presses, ∃ m < arrived.length, p.origin = some m
  own : ∀ n ∈ arrivalsOf queue, ∀ key ∈ ach.participatingKeys,
    arrived[n]? = some (.release 0 key) → ReleasedAfter arrived ach.history.presses key n
  counts : Counts (Received arrived queue ach.history.presses) ach
  first : ach.history.releaseBehaviour = .onFirstRelease → ach.status.isReleased = true →
    ∃ key ∈ ach.participatingKeys, ∃ n, ReleasedAfter arrived ach.history.presses key n

theorem Tracked.law {arrived : List Event} {queue : List Queued} {ach : ActiveChord A}
    (h : Tracked arrived queue ach) : StatusLaw arrived queue ach := by
  refine ⟨h.first, ?_⟩
  intro hlast
  rw [h.counts.status hlast, List.eq_nil_iff_forall_not_mem]
  constructor
  · intro hnil key hkey
    by_contra hnot
    exact hnil key ((h.counts.last hlast key).mpr ⟨hkey, hnot⟩)
  · intro hall key hmem
    rcases (h.counts.last hlast key).mp hmem with ⟨hkey, hnot⟩
    exact hnot (hall key hkey)

/-- Some releases leave the queue and are counted. -/
theorem Tracked.release {arrived : List Event} {queue queue' qds : List Queued}
    {ach : ActiveChord A} (hord : QueueOrdered arrived queue) (h : Tracked arrived queue ach)
    (hqds : ∀ qd ∈ qds, qd ∈ queue) (hsub : queue'.Sublist queue)
    (hreal : ∀ qd ∈ qds, ∀ i, ∀ j ∈ ach.participatingKeys, qd.event = .release i j → i = 0)
    (hgo : ∀ qd ∈ queue, ∀ key, qd.event = .release 0 key → qd ∈ qds ∨ qd ∈ queue')
    (hgone : ∀ qd ∈ qds, qd ∉ queue') : Tracked arrived queue' (releaseBy qds ach) := by
  have hid := releaseBy_identity qds ach
  have hkeys : (releaseBy qds ach).participatingKeys = ach.participatingKeys :=
    congrArg ChordIdentity.participatingKeys hid
  have hpresses : (releaseBy qds ach).history.presses = ach.history.presses :=
    congrArg ChordIdentity.presses hid
  have hbehaviour : (releaseBy qds ach).history.releaseBehaviour =
      ach.history.releaseBehaviour := congrArg ChordIdentity.releaseBehaviour hid
  -- a key of the chord that is released now is received
  have hnow : ∀ key ∈ ach.participatingKeys, key ∈ releasedKeys qds →
      Received arrived queue' ach.history.presses key := by
    intro key hkey hmem
    rcases mem_releasedKeys.mp hmem with ⟨qd, hqd, i, hev⟩
    have hi := hreal qd hqd i key hkey hev
    rw [hi] at hev
    rcases hord.numbered qd (hqds qd hqd) with ⟨n, hn, harr⟩
    have hin : n ∈ arrivalsOf queue := List.mem_filterMap.mpr ⟨qd, hqds qd hqd, hn⟩
    refine ⟨n, h.own n hin key hkey (by rw [harr, hev]), ?_⟩
    intro hin'
    rcases List.mem_filterMap.mp hin' with ⟨qd', hqd', hn'⟩
    have hsame := hord.eq_of_origin (hsub.subset hqd') (hqds qd hqd) (hn'.trans hn.symm)
    exact hgone qd hqd (hsame ▸ hqd')
  refine ⟨hkeys ▸ h.keys_ne, hpresses ▸ h.old, ?_, ?_, ?_⟩
  · rw [hkeys, hpresses]
    exact fun n hn => h.own n ((hsub.filterMap _).subset hn)
  · refine (h.counts.releaseBy qds).congr ?_
    rw [hkeys, hpresses]
    intro _ key hkey
    constructor
    · rintro (⟨n, hafter, hout⟩ | hmem)
      · exact ⟨n, hafter, fun hin => hout ((hsub.filterMap _).subset hin)⟩
      · exact hnow key hkey hmem
    · rintro ⟨n, hafter, hout⟩
      by_cases hin : n ∈ arrivalsOf queue
      · right
        rcases hord.event_of_arrival hin with ⟨qd, hqd, hn, harr⟩
        have hev : qd.event = .release 0 key := by
          rw [hafter.1, Option.some.injEq] at harr
          exact harr.symm
        rcases hgo qd hqd key hev with hleft | hstay
        · exact mem_releasedKeys.mpr ⟨qd, hleft, 0, hev⟩
        · exact absurd (List.mem_filterMap.mpr ⟨qd, hstay, hn⟩) hout
      · exact Or.inl ⟨n, hafter, hin⟩
  · rw [hkeys, hpresses, hbehaviour]
    intro hfirst hrel
    rcases isReleased_releaseBy hrel with hbefore | ⟨key, hkey, hmem⟩
    · exact h.first hfirst hbefore
    · rcases hnow key hkey hmem with ⟨n, hafter, _⟩
      exact ⟨key, hkey, n, hafter⟩

theorem ReleasedAfter.push {arrived : List Event} {presses : List PressWithTime} {key n : Nat}
    (event : Event) (h : ReleasedAfter arrived presses key n) :
    ReleasedAfter (arrived ++ [event]) presses key n :=
  ⟨by rw [List.getElem?_append_left (List.getElem?_eq_some_iff.mp h.1).1, h.1], h.2⟩

theorem ReleasedAfter.of_push {arrived : List Event} {presses : List PressWithTime} {key n : Nat}
    {event : Event} (h : ReleasedAfter (arrived ++ [event]) presses key n)
    (hlt : n < arrived.length) : ReleasedAfter arrived presses key n :=
  ⟨by rw [← h.1, List.getElem?_append_left hlt], h.2⟩

/-- An event arrives. If the queue is full and its first event is driven out, that
is no release the chord waits for. -/
theorem Tracked.push {arrived : List Event} {queue : Queue} {ach : ActiveChord A} {event : Event}
    (hord : QueueOrdered arrived queue.items) (h : Tracked arrived queue.items ach)
    (hkeep : queue.isFull = true → ∀ qd ∈ queue.items.head?,
      ∀ key ∈ ach.remainingKeysToRelease.items, qd.event ≠ .release 0 key) :
    Tracked (arrived ++ [event])
      (queue.pushBack ⟨event, 0, some arrived.length⟩).1.items ach := by
  set queue' := (queue.pushBack ⟨event, 0, some arrived.length⟩).1.items with hqueue
  have hsub : ∀ n ∈ arrivalsOf queue', n ∈ arrivalsOf queue.items ∨ n = arrived.length := by
    intro n hn
    have hmem := ((Bounded.pushBack_sublist queue ⟨event, 0, some arrived.length⟩).filterMap
      (·.origin)).subset hn
    simpa [arrivalsOf] using hmem
  have hnew : arrived.length ∈ arrivalsOf queue' := by
    rcases Bounded.pushBack_cases (by decide) queue ⟨event, 0, some arrived.length⟩ with
      ⟨hitems, _⟩ | ⟨_, _, _, _, hitems⟩
    · rw [hqueue, hitems]
      simp [arrivalsOf]
    · rw [hqueue, hitems]
      simp [arrivalsOf]
  refine ⟨h.keys_ne, ?_, ?_, ?_, ?_⟩
  · intro p hp
    rcases h.old p hp with ⟨m, hm, horigin⟩
    exact ⟨m, by simp only [List.length_append, List.length_singleton]; omega, horigin⟩
  · intro n hn key hkey hev
    rcases hsub n hn with hin | rfl
    · have hlt := hord.lt n hin
      rw [List.getElem?_append_left hlt] at hev
      exact (h.own n hin key hkey hev).push event
    · exact ⟨hev, h.old⟩
  · refine h.counts.congr fun hlast key hkey => ?_
    constructor
    · rintro ⟨n, hafter, hout⟩
      refine ⟨n, hafter.push event, ?_⟩
      intro hin
      rcases hsub n hin with hin | rfl
      · exact hout hin
      · have hlt := (List.getElem?_eq_some_iff.mp hafter.1).1
        omega
    · rintro ⟨n, hafter, hout⟩
      have hlt : n < arrived.length := by
        have hle := (List.getElem?_eq_some_iff.mp hafter.1).1
        have hne : n ≠ arrived.length := fun heq => hout (heq ▸ hnew)
        simp only [List.length_append, List.length_singleton] at hle
        omega
      have hafter := hafter.of_push hlt
      by_contra hnot
      have hin : n ∈ arrivalsOf queue.items := by
        by_contra hin
        exact hnot ⟨n, hafter, hin⟩
      have hremaining := (h.counts.last hlast key).mpr ⟨hkey, hnot⟩
      -- the release was driven out
      rcases Bounded.pushBack_cases (by decide) queue ⟨event, 0, some arrived.length⟩ with
        ⟨hitems, _⟩ | ⟨qd, qds, hcons, hfull, hitems⟩
      · refine hout ?_
        rw [hqueue, hitems, arrivalsOf_append]
        exact List.mem_append_left _ hin
      · rcases hord.event_of_arrival hin with ⟨qd', hqd', hn, harr⟩
        rw [hafter.1, Option.some.injEq] at harr
        rw [hcons] at hqd'
        rcases List.mem_cons.mp hqd' with rfl | hmem
        · exact hkeep hfull qd' (by simp [hcons]) key hremaining harr.symm
        · refine hout ?_
          rw [hqueue, hitems, arrivalsOf_append]
          exact List.mem_append_left _ (List.mem_filterMap.mpr ⟨qd', hmem, hn⟩)
  · intro hfirst hrel
    rcases h.first hfirst hrel with ⟨key, hkey, n, hafter⟩
    exact ⟨key, hkey, n, hafter.push event⟩

end Kanata.Chord
