import Kanata.Keyberon.Waiting
import Kanata.Lib.Incremental
import Mathlib.Data.Nat.Find

/-!
# Kanata.HoldTap.Completion — which event decides a hold-tap key

A mode does at each press of the queue what its rule says. `Completes xs i k a`
says that the press at index `i` decides for `a` and that the event at index `k`
is the one that makes it so: the press itself, or its release.

The loop over the queue takes the first press *in the queue* that decides
(`scanRuled_eq_decided_iff`). Events that come one at a time are taken by the
first *event* that decides (`firstOf_resolve_iff`). The two differ exactly when a
press is overtaken (`resolve_eq_firstOf_iff`).
-/

namespace Kanata

open Incremental

/-- An event and what the mode does at it. The rule of a release plays no role. -/
abbrev Ruled := Event × PressRule

/-- The loop of `scanPresses` over events that carry their rules. -/
def scanRuled : List Ruled → Scan
  | [] => .finished
  | (.release _ _, _) :: xs => scanRuled xs
  | (.press _ _, .pass) :: xs => scanRuled xs
  | (.press _ _, .now a) :: _ => .decided a
  | (.press i j, .onRelease a) :: xs =>
    if xs.any fun x => x.1 == .release i j then .decided a else scanRuled xs
  | (.press _ _, .giveUp) :: _ => .gaveUp

theorem scanPresses_eq_scanRuled (rule : Queued → PressRule) :
    ∀ queued : List Queued,
      scanPresses rule queued = scanRuled (queued.map fun q => (q.event, rule q))
  | [] => rfl
  | q :: queued => by
    have ih := scanPresses_eq_scanRuled rule queued
    rw [List.map_cons]
    unfold scanPresses
    cases q.event with
    | release i j => exact ih
    | press i j =>
      cases rule q with
      | pass => exact ih
      | now a => rfl
      | giveUp => rfl
      | onRelease a =>
        simp only [scanRuled, List.any_map, Function.comp_def]
        rw [ih]

/-- The loop ends at this event. -/
def Ruled.stops : Ruled → Bool
  | (.press _ _, .giveUp) => true
  | _ => false

/-- The press at index `i` decides for `a`, once the event at index `k` is there. -/
inductive Completes : List Ruled → Nat → Nat → WaitingAction → Prop where
  | now {row col : Nat} {a : WaitingAction} {xs : List Ruled} :
      Completes ((.press row col, .now a) :: xs) 0 0 a
  | onRelease {row col n : Nat} {a : WaitingAction} {xs : List Ruled}
      (hrel : xs.findIdx? (fun x => x.1 == .release row col) = some n) :
      Completes ((.press row col, .onRelease a) :: xs) 0 (n + 1) a
  | later {x : Ruled} {xs : List Ruled} {i k : Nat} {a : WaitingAction}
      (hx : x.stops = false) (h : Completes xs i k a) : Completes (x :: xs) (i + 1) (k + 1) a

theorem findIdx?_take_eq_some_iff {α : Type} {p : α → Bool} {xs : List α} {t n : Nat} :
    (xs.take t).findIdx? p = some n ↔ xs.findIdx? p = some n ∧ n < t := by
  rw [List.findIdx?_take, Option.bind_eq_some_iff]
  constructor
  · rintro ⟨m, hm, hguard⟩
    rcases Option.guard_eq_some_iff.mp hguard with ⟨rfl, hlt⟩
    exact ⟨hm, by simpa using hlt⟩
  · rintro ⟨hn, hlt⟩
    exact ⟨n, hn, Option.guard_eq_some_iff.mpr ⟨rfl, by simpa using hlt⟩⟩

namespace Completes

variable {xs : List Ruled} {i k k' : Nat} {a a' : WaitingAction}

/-- A press is decided in one way and by one event. -/
theorem unique (h : Completes xs i k a) (h' : Completes xs i k' a') : k = k' ∧ a = a' := by
  induction h generalizing k' with
  | now =>
    cases h'
    exact ⟨rfl, rfl⟩
  | onRelease hrel =>
    cases h' with
    | onRelease hrel' =>
      rw [hrel] at hrel'
      cases hrel'
      exact ⟨rfl, rfl⟩
  | later hx _ ih =>
    cases h' with
    | later _ h' =>
      rcases ih h' with ⟨hk, ha⟩
      exact ⟨congrArg (· + 1) hk, ha⟩

theorem lt_length (h : Completes xs i k a) : k < xs.length := by
  induction h with
  | now => exact Nat.zero_lt_succ _
  | onRelease hrel =>
    rcases List.findIdx?_eq_some_iff_getElem.mp hrel with ⟨hlt, _⟩
    exact Nat.succ_lt_succ hlt
  | later _ _ ih => exact Nat.succ_lt_succ ih

/-- The decision needs the events up to `k` and no others. -/
theorem take_iff : ∀ {xs : List Ruled} {i k t : Nat} {a : WaitingAction},
    Completes (xs.take t) i k a ↔ Completes xs i k a ∧ k < t
  | [], i, k, t, a => by
    rw [List.take_nil]
    constructor
    · intro h
      cases h
    · rintro ⟨h, _⟩
      cases h
  | x :: xs, i, k, 0, a => by
    constructor
    · intro h
      cases h
    · rintro ⟨_, h⟩
      exact absurd h (Nat.not_lt_zero k)
  | x :: xs, i, k, t + 1, a => by
    rw [List.take_succ_cons]
    constructor
    · intro h
      cases h with
      | now => exact ⟨.now, Nat.zero_lt_succ t⟩
      | onRelease hrel =>
        rcases findIdx?_take_eq_some_iff.mp hrel with ⟨hrel, hlt⟩
        exact ⟨.onRelease hrel, Nat.succ_lt_succ hlt⟩
      | later hx h =>
        rcases take_iff.mp h with ⟨h, hlt⟩
        exact ⟨.later hx h, Nat.succ_lt_succ hlt⟩
    · rintro ⟨h, hlt⟩
      cases h with
      | now => exact .now
      | onRelease hrel =>
        exact .onRelease (findIdx?_take_eq_some_iff.mpr ⟨hrel, Nat.lt_of_succ_lt_succ hlt⟩)
      | later hx h => exact .later hx (take_iff.mpr ⟨h, Nat.lt_of_succ_lt_succ hlt⟩)

/-- What is at the two indices. -/
theorem events (h : Completes xs i k a) :
    ∃ row col rule, xs[i]? = some (.press row col, rule) ∧
      ((rule = .now a ∧ k = i) ∨
        (rule = .onRelease a ∧ ∃ rule', xs[k]? = some (.release row col, rule'))) := by
  induction h with
  | now => exact ⟨_, _, _, rfl, .inl ⟨rfl, rfl⟩⟩
  | @onRelease row col n a xs hrel =>
    refine ⟨row, col, _, rfl, .inr ⟨rfl, ?_⟩⟩
    rcases List.findIdx?_eq_some_iff_getElem.mp hrel with ⟨hlt, hn, _⟩
    have he : xs[n].1 = .release row col := by simpa using hn
    refine ⟨xs[n].2, ?_⟩
    rw [List.getElem?_cons_succ, List.getElem?_eq_getElem hlt, ← he]
  | later _ _ ih =>
    rcases ih with ⟨row, col, rule, hi, hk⟩
    refine ⟨row, col, rule, by simpa using hi, ?_⟩
    rcases hk with ⟨hrule, hk⟩ | ⟨hrule, rule', hk⟩
    · exact .inl ⟨hrule, congrArg (· + 1) hk⟩
    · exact .inr ⟨hrule, rule', by simpa using hk⟩

end Completes

/-! ## The whole queue -/

/-- No press before the one at index `i` decides. -/
def FirstInQueue (xs : List Ruled) (i : Nat) : Prop := ∀ i' < i, ∀ k a, ¬ Completes xs i' k a

theorem firstInQueue_later {x : Ruled} {xs : List Ruled} {i : Nat} (hx : x.stops = false)
    (hhead : ∀ k a, ¬ Completes (x :: xs) 0 k a) :
    FirstInQueue (x :: xs) (i + 1) ↔ FirstInQueue xs i := by
  constructor
  · intro h i' hi' k a hc
    exact h (i' + 1) (Nat.succ_lt_succ hi') (k + 1) a (.later hx hc)
  · intro h i' hi' k a hc
    cases i' with
    | zero => exact hhead k a hc
    | succ i' =>
      cases hc with
      | later _ hc => exact h i' (Nat.lt_of_succ_lt_succ hi') _ a hc

/-- A head that does not decide is left behind by the loop. -/
theorem completes_later_iff {x : Ruled} {xs : List Ruled} {a : WaitingAction}
    (hx : x.stops = false) (hhead : ∀ k a, ¬ Completes (x :: xs) 0 k a) :
    (∃ i k, Completes (x :: xs) i k a ∧ FirstInQueue (x :: xs) i) ↔
      ∃ i k, Completes xs i k a ∧ FirstInQueue xs i := by
  constructor
  · rintro ⟨i, k, hc, hfirst⟩
    cases hc with
    | now => exact absurd .now (hhead _ _)
    | onRelease hrel => exact absurd (.onRelease hrel) (hhead _ _)
    | later _ hc => exact ⟨_, _, hc, (firstInQueue_later hx hhead).mp hfirst⟩
  · rintro ⟨i, k, hc, hfirst⟩
    exact ⟨i + 1, k + 1, .later hx hc, (firstInQueue_later hx hhead).mpr hfirst⟩

/-- A head that decides is the first to do so. -/
theorem completes_head_iff {x : Ruled} {xs : List Ruled} {k : Nat} {a b : WaitingAction}
    (h : Completes (x :: xs) 0 k a) :
    (∃ i k, Completes (x :: xs) i k b ∧ FirstInQueue (x :: xs) i) ↔ a = b := by
  constructor
  · rintro ⟨i, k', hc, hfirst⟩
    cases i with
    | zero => exact (h.unique hc).2
    | succ i => exact absurd h (hfirst 0 (Nat.succ_pos i) k a)
  · rintro rfl
    refine ⟨0, k, h, ?_⟩
    intro i' hi'
    exact absurd hi' (Nat.not_lt_zero i')

/-- The loop takes the first press in the queue that decides. -/
theorem scanRuled_eq_decided_iff {b : WaitingAction} :
    ∀ {xs : List Ruled}, scanRuled xs = .decided b ↔
      ∃ i k, Completes xs i k b ∧ FirstInQueue xs i
  | [] => by
    constructor
    · intro h
      cases h
    · rintro ⟨i, k, hc, _⟩
      cases hc
  | (.release row col, rule) :: xs => by
    rw [scanRuled, completes_later_iff rfl (by intro k a hc; cases hc)]
    exact scanRuled_eq_decided_iff
  | (.press row col, .pass) :: xs => by
    rw [scanRuled, completes_later_iff rfl (by intro k a hc; cases hc)]
    exact scanRuled_eq_decided_iff
  | (.press row col, .now a) :: xs => by
    rw [completes_head_iff .now]
    unfold scanRuled
    rw [Scan.decided.injEq]
  | (.press row col, .giveUp) :: xs => by
    constructor
    · intro h
      cases h
    · rintro ⟨i, k, hc, _⟩
      cases hc with
      | later hx _ => cases hx
  | (.press row col, .onRelease a) :: xs => by
    unfold scanRuled
    cases hrel : xs.findIdx? (fun x => x.1 == .release row col) with
    | some n =>
      have hany : (xs.any fun x => x.1 == .release row col) = true := by
        rw [← List.findIdx?_isSome, hrel]
        rfl
      rw [if_pos hany, completes_head_iff (.onRelease hrel), Scan.decided.injEq]
    | none =>
      have hany : ¬ (xs.any fun x => x.1 == .release row col) = true := by
        rw [← List.findIdx?_isSome, hrel]
        exact Bool.false_ne_true
      rw [if_neg hany, completes_later_iff rfl]
      · exact scanRuled_eq_decided_iff
      · intro k b hc
        cases hc with
        | onRelease hrel' =>
          rw [hrel] at hrel'
          cases hrel'

/-- Among the presses that decide there is a first one. -/
theorem exists_firstInQueue {xs : List Ruled} {i k : Nat} {a : WaitingAction}
    (h : Completes xs i k a) : ∃ i k a, Completes xs i k a ∧ FirstInQueue xs i := by
  classical
  have hex : ∃ i, ∃ k a, Completes xs i k a := ⟨i, k, a, h⟩
  rcases Nat.find_spec hex with ⟨k, a, hc⟩
  refine ⟨Nat.find hex, k, a, hc, ?_⟩
  intro i' hi' k' a' hc'
  exact Nat.find_min hex hi' ⟨k', a', hc'⟩

theorem scanRuled_action_eq_none_iff {xs : List Ruled} :
    (scanRuled xs).action = none ↔ ∀ i k a, ¬ Completes xs i k a := by
  constructor
  · intro h i k a hc
    rcases exists_firstInQueue hc with ⟨i, k, a, hc, hfirst⟩
    rw [scanRuled_eq_decided_iff.mpr ⟨i, k, hc, hfirst⟩] at h
    cases h
  · intro h
    cases hscan : scanRuled xs with
    | decided a =>
      rcases scanRuled_eq_decided_iff.mp hscan with ⟨i, k, hc, _⟩
      exact absurd hc (h i k a)
    | gaveUp => rfl
    | finished => rfl

theorem scanRuled_action_eq_some_iff {xs : List Ruled} {a : WaitingAction} :
    (scanRuled xs).action = some a ↔ scanRuled xs = .decided a := by
  cases scanRuled xs with
  | decided b => simp [Scan.action]
  | gaveUp => simp [Scan.action]
  | finished => simp [Scan.action]

/-! ## One event at a time -/

/-- The key itself is released by the event at index `m`. -/
def ReleasedAt (own : KCoord) (xs : List Ruled) (m : Nat) : Prop :=
  ∃ rule, xs[m]? = some (.release own.1 own.2, rule)

theorem releasedAt_take_iff {own : KCoord} {xs : List Ruled} {m t : Nat} :
    ReleasedAt own (xs.take t) m ↔ ReleasedAt own xs m ∧ m < t := by
  unfold ReleasedAt
  rw [List.getElem?_take]
  by_cases h : m < t
  · simp [h]
  · simp [h]

def isReleased (own : KCoord) (xs : List Ruled) : Bool :=
  xs.any fun x => x.1 == .release own.1 own.2

theorem isReleased_iff {own : KCoord} {xs : List Ruled} :
    isReleased own xs = true ↔ ∃ m, ReleasedAt own xs m := by
  unfold isReleased ReleasedAt
  rw [List.any_eq_true]
  constructor
  · rintro ⟨⟨e, rule⟩, hmem, he⟩
    rcases List.mem_iff_getElem?.mp hmem with ⟨m, hm⟩
    have he : e = .release own.1 own.2 := by simpa using he
    exact ⟨m, rule, by rw [hm, he]⟩
  · rintro ⟨m, rule, hm⟩
    exact ⟨_, List.mem_of_getElem? hm, by simp⟩

/-- What the events decide before any timeout: the loop of the mode, then the
release of the key itself, which makes it a tap. -/
def resolve (own : KCoord) (xs : List Ruled) : Option WaitingAction :=
  match (scanRuled xs).action with
  | some a => some a
  | none => if isReleased own xs then some .tap else none

/-- The event at index `m` decides for `b`: it completes a press, or else it is
the release of the key itself. -/
def DecidesAt (own : KCoord) (xs : List Ruled) (m : Nat) (b : WaitingAction) : Prop :=
  (∃ i, Completes xs i m b) ∨
    (b = .tap ∧ ReleasedAt own xs m ∧ ∀ i a, ¬ Completes xs i m a)

/-- No event before the one at index `m` decides. -/
def FirstInTime (own : KCoord) (xs : List Ruled) (m : Nat) : Prop :=
  ∀ m' < m, ∀ b, ¬ DecidesAt own xs m' b

/-- One event decides in one way. -/
def Agreeing (xs : List Ruled) : Prop :=
  ∀ i i' k a a', Completes xs i k a → Completes xs i' k a' → a = a'

/-- Rules that the event alone gives agree. -/
theorem agreeing_of_rule {rule : Event → PressRule} {xs : List Ruled}
    (h : ∀ x ∈ xs, x.2 = rule x.1) : Agreeing xs := by
  intro i i' k a a' hc hc'
  rcases hc.events with ⟨row, col, p, hi, hk⟩
  rcases hc'.events with ⟨row', col', p', hi', hk'⟩
  have hp : p = rule (.press row col) := h _ (List.mem_of_getElem? hi)
  have hp' : p' = rule (.press row' col') := h _ (List.mem_of_getElem? hi')
  rcases hk with ⟨hnow, rfl⟩ | ⟨hrel, q, hk⟩
  · rcases hk' with ⟨hnow', rfl⟩ | ⟨_, q', hk'⟩
    · rw [hi] at hi'
      cases hi'
      rw [hnow] at hnow'
      exact PressRule.now.inj hnow'
    · rw [hi] at hk'
      cases hk'
  · rcases hk' with ⟨_, rfl⟩ | ⟨hrel', q', hk'⟩
    · rw [hi'] at hk
      cases hk
    · rw [hk] at hk'
      cases hk'
      rw [hp, ← hp', hrel'] at hrel
      exact PressRule.onRelease.inj hrel.symm

/-- Rules that know one action only. -/
theorem Completes.action_eq {xs : List Ruled} {i k : Nat} {a b : WaitingAction}
    (h : Completes xs i k a) (hxs : ∀ x ∈ xs, x.2 = .pass ∨ x.2 = .onRelease b) : a = b := by
  rcases h.events with ⟨row, col, p, hi, hk⟩
  have hp : p = .pass ∨ p = .onRelease b := hxs _ (List.mem_of_getElem? hi)
  rcases hk with ⟨rfl, _⟩ | ⟨rfl, _⟩
  · rcases hp with hp | hp
    · cases hp
    · cases hp
  · rcases hp with hp | hp
    · cases hp
    · exact PressRule.onRelease.inj hp

section OneAtATime

variable {own : KCoord} {xs : List Ruled}

theorem resolve_eq_some_iff {b : WaitingAction} :
    resolve own xs = some b ↔
      (∃ i k, Completes xs i k b ∧ FirstInQueue xs i) ∨
        ((∀ i k a, ¬ Completes xs i k a) ∧ b = .tap ∧ ∃ m, ReleasedAt own xs m) := by
  rw [← isReleased_iff, ← scanRuled_eq_decided_iff, ← scanRuled_action_eq_some_iff,
    ← scanRuled_action_eq_none_iff]
  unfold resolve
  cases (scanRuled xs).action with
  | some a => simp
  | none =>
    cases isReleased own xs with
    | true => simp [eq_comm]
    | false => simp

/-- An event that releases the key decides. -/
theorem decidesAt_of_releasedAt {m : Nat} (h : ReleasedAt own xs m) :
    ∃ b, DecidesAt own xs m b := by
  by_cases hc : ∃ i a, Completes xs i m a
  · rcases hc with ⟨i, a, hc⟩
    exact ⟨a, .inl ⟨i, hc⟩⟩
  · refine ⟨.tap, .inr ⟨rfl, h, ?_⟩⟩
    intro i a hi
    exact hc ⟨i, a, hi⟩

theorem resolve_eq_none_iff : resolve own xs = none ↔ ∀ m b, ¬ DecidesAt own xs m b := by
  constructor
  · intro h m b hd
    rcases hd with ⟨i, hc⟩ | ⟨_, hrel, _⟩
    · rcases exists_firstInQueue hc with ⟨i, k, a, hc, hfirst⟩
      rw [resolve_eq_some_iff.mpr (.inl ⟨i, k, hc, hfirst⟩)] at h
      cases h
    · by_cases hsome : ∃ i k a, Completes xs i k a
      · rcases hsome with ⟨_, _, _, hc⟩
        rcases exists_firstInQueue hc with ⟨i, k, a, hc, hfirst⟩
        rw [resolve_eq_some_iff.mpr (.inl ⟨i, k, hc, hfirst⟩)] at h
        cases h
      · have hnone : ∀ i k a, ¬ Completes xs i k a := by
          intro i k a hc
          exact hsome ⟨i, k, a, hc⟩
        rw [resolve_eq_some_iff.mpr (.inr ⟨hnone, rfl, m, hrel⟩)] at h
        cases h
  · intro h
    cases hres : resolve own xs with
    | none => rfl
    | some b =>
      rcases resolve_eq_some_iff.mp hres with ⟨i, k, hc, _⟩ | ⟨_, _, m, hrel⟩
      · exact absurd (.inl ⟨i, hc⟩) (h k b)
      · rcases decidesAt_of_releasedAt hrel with ⟨b', hb'⟩
        exact absurd hb' (h m b')

theorem decidesAt_take_iff {m t : Nat} {b : WaitingAction} :
    DecidesAt own (xs.take t) m b ↔ DecidesAt own xs m b ∧ m < t := by
  unfold DecidesAt
  simp only [Completes.take_iff, releasedAt_take_iff]
  constructor
  · rintro (⟨i, hc, hlt⟩ | ⟨hb, ⟨hrel, hlt⟩, hnone⟩)
    · exact ⟨.inl ⟨i, hc⟩, hlt⟩
    · refine ⟨.inr ⟨hb, hrel, ?_⟩, hlt⟩
      intro i a hc
      exact hnone i a ⟨hc, hlt⟩
  · rintro ⟨⟨i, hc⟩ | ⟨hb, hrel, hnone⟩, hlt⟩
    · exact .inl ⟨i, hc, hlt⟩
    · refine .inr ⟨hb, ⟨hrel, hlt⟩, ?_⟩
      intro i a hc
      exact hnone i a hc.1

theorem resolve_take_eq_none_iff {t : Nat} :
    resolve own (xs.take t) = none ↔ FirstInTime own xs t := by
  rw [resolve_eq_none_iff]
  unfold FirstInTime
  simp only [decidesAt_take_iff]
  constructor
  · intro h m hm b hd
    exact h m b ⟨hd, hm⟩
  · intro h m b hd
    exact h m hd.2 b hd.1

/-- An event that decides is at most one index behind those that do not. -/
theorem FirstInTime.eq_of_lt {m k : Nat} {b : WaitingAction} (h : FirstInTime own xs m)
    (hd : DecidesAt own xs k b) (hlt : k < m + 1) : k = m := by
  rcases Nat.lt_or_eq_of_le (Nat.le_of_lt_succ hlt) with hlt | heq
  · exact absurd hd (h k hlt b)
  · exact heq

/-- The evaluation right after the first event that decides. -/
theorem resolve_take_succ_iff (hagree : Agreeing xs) {m : Nat} {b : WaitingAction}
    (hfirst : FirstInTime own xs m) :
    resolve own (xs.take (m + 1)) = some b ↔ DecidesAt own xs m b := by
  rw [resolve_eq_some_iff]
  constructor
  · rintro (⟨i, k, hc, _⟩ | ⟨hnone, hb, m', hrel⟩)
    · rcases Completes.take_iff.mp hc with ⟨hc, hlt⟩
      have hk : k = m := hfirst.eq_of_lt (.inl ⟨i, hc⟩) hlt
      exact .inl ⟨i, hk ▸ hc⟩
    · rcases releasedAt_take_iff.mp hrel with ⟨hrel, hlt⟩
      rcases decidesAt_of_releasedAt hrel with ⟨b', hb'⟩
      have hm' : m' = m := hfirst.eq_of_lt hb' hlt
      refine .inr ⟨hb, hm' ▸ hrel, ?_⟩
      intro i a hc
      exact hnone i m a (Completes.take_iff.mpr ⟨hc, Nat.lt_succ_self m⟩)
  · rintro (⟨i, hc⟩ | ⟨hb, hrel, hnone⟩)
    · -- the loop may stop at another press, which the same event completes
      have htake := Completes.take_iff.mpr ⟨hc, Nat.lt_succ_self m⟩
      rcases exists_firstInQueue htake with ⟨i₀, k₀, a₀, hc₀, hfirst₀⟩
      rcases Completes.take_iff.mp hc₀ with ⟨hc₀', hlt₀⟩
      have hk₀ : k₀ = m := hfirst.eq_of_lt (.inl ⟨i₀, hc₀'⟩) hlt₀
      subst hk₀
      have ha : a₀ = b := hagree _ _ _ _ _ hc₀' hc
      exact .inl ⟨i₀, k₀, ha ▸ hc₀, hfirst₀⟩
    · refine .inr ⟨?_, hb, m, releasedAt_take_iff.mpr ⟨hrel, Nat.lt_succ_self m⟩⟩
      intro i k a hc
      rcases Completes.take_iff.mp hc with ⟨hc, hlt⟩
      have hk : k = m := hfirst.eq_of_lt (.inl ⟨i, hc⟩) hlt
      exact hnone i a (hk ▸ hc)

theorem DecidesAt.lt_length {m : Nat} {b : WaitingAction} (h : DecidesAt own xs m b) :
    m < xs.length := by
  rcases h with ⟨i, hc⟩ | ⟨_, ⟨rule, hrel⟩, _⟩
  · exact hc.lt_length
  · exact (List.getElem?_eq_some_iff.mp hrel).1

/-- Delivered one at a time, the first event that decides is the one that counts. -/
theorem firstOf_resolve_iff (hagree : Agreeing xs) {b : WaitingAction} :
    firstOf (resolve own) [] xs = some b ↔ ∃ m, DecidesAt own xs m b ∧ FirstInTime own xs m := by
  rw [firstOf_eq_some_iff]
  simp only [List.nil_append, resolve_take_eq_none_iff]
  constructor
  · rintro ⟨m, _, hres, hnone⟩
    have hfirst : FirstInTime own xs m := by
      intro m' hm'
      exact hnone m' hm' m' (Nat.lt_succ_self m')
    exact ⟨m, (resolve_take_succ_iff hagree hfirst).mp hres, hfirst⟩
  · rintro ⟨m, hd, hfirst⟩
    refine ⟨m, hd.lt_length, (resolve_take_succ_iff hagree hfirst).mpr hd, ?_⟩
    intro m' hm' m'' hm''
    exact hfirst m'' (by omega)

/-- Among the events that decide there is a first one. -/
theorem exists_firstInTime {m : Nat} {b : WaitingAction} (h : DecidesAt own xs m b) :
    ∃ m' ≤ m, ∃ b', DecidesAt own xs m' b' ∧ FirstInTime own xs m' := by
  classical
  have hex : ∃ m, ∃ b, DecidesAt own xs m b := ⟨m, b, h⟩
  rcases Nat.find_spec hex with ⟨b', hd⟩
  refine ⟨Nat.find hex, Nat.find_le ⟨b, h⟩, b', hd, ?_⟩
  intro m' hm' c hc
  exact Nat.find_min hex hm' ⟨c, hc⟩

theorem firstOf_resolve_eq_none_iff :
    firstOf (resolve own) [] xs = none ↔ resolve own xs = none := by
  rw [firstOf_eq_none_iff, resolve_eq_none_iff]
  simp only [List.nil_append, resolve_take_eq_none_iff]
  constructor
  · intro h m b hd
    exact h m hd.lt_length m (Nat.lt_succ_self m) b hd
  · intro h m _ m' _ b hd
    exact h m' b hd

/-- The first press in the queue that decides, for `a`, is complete only after an
earlier event has decided otherwise. -/
def Overtaken (own : KCoord) (xs : List Ruled) : Prop :=
  ∃ i k a, Completes xs i k a ∧ FirstInQueue xs i ∧
    ∃ m < k, ∃ b, b ≠ a ∧ DecidesAt own xs m b ∧ FirstInTime own xs m

/-- One event has one decision. -/
theorem DecidesAt.unique (hagree : Agreeing xs) {m : Nat} {b b' : WaitingAction}
    (h : DecidesAt own xs m b) (h' : DecidesAt own xs m b') : b = b' := by
  rcases h with ⟨i, hc⟩ | ⟨hb, _, hnone⟩
  · rcases h' with ⟨i', hc'⟩ | ⟨_, _, hnone'⟩
    · exact hagree _ _ _ _ _ hc hc'
    · exact absurd hc (hnone' i b)
  · rcases h' with ⟨i', hc'⟩ | ⟨hb', _, _⟩
    · exact absurd hc' (hnone i' b')
    · rw [hb, hb']

/-- Evaluated at once or event by event, the decision is the same unless a press
is overtaken. -/
theorem resolve_eq_firstOf_iff (hagree : Agreeing xs) :
    resolve own xs = firstOf (resolve own) [] xs ↔ ¬ Overtaken own xs := by
  constructor
  · rintro heq ⟨i, k, a, hc, hfirst, m, _, b, hne, hd, htime⟩
    rw [resolve_eq_some_iff.mpr (.inl ⟨i, k, hc, hfirst⟩),
      (firstOf_resolve_iff hagree).mpr ⟨m, hd, htime⟩] at heq
    exact hne (Option.some.inj heq).symm
  · intro hno
    cases hres : resolve own xs with
    | none => exact (firstOf_resolve_eq_none_iff.mpr hres).symm
    | some a =>
      rcases resolve_eq_some_iff.mp hres with ⟨i, k, hc, hfirst⟩ | ⟨hnone, rfl, m, hrel⟩
      · rcases exists_firstInTime (show DecidesAt own xs k a from .inl ⟨i, hc⟩)
          with ⟨m, hm, b, hd, htime⟩
        have hb : b = a := by
          rcases Nat.lt_or_eq_of_le hm with hlt | rfl
          · by_contra hne
            exact hno ⟨i, k, a, hc, hfirst, m, hlt, b, hne, hd, htime⟩
          · exact hd.unique hagree (.inl ⟨i, hc⟩)
        exact ((firstOf_resolve_iff hagree).mpr ⟨m, hb ▸ hd, htime⟩).symm
      · rcases decidesAt_of_releasedAt hrel with ⟨b, hd⟩
        rcases exists_firstInTime hd with ⟨m', _, b', hd', htime⟩
        have hb' : b' = .tap := by
          rcases hd' with ⟨i, hc⟩ | ⟨hb', _, _⟩
          · exact absurd hc (hnone _ _ _)
          · exact hb'
        exact ((firstOf_resolve_iff hagree).mpr ⟨m', hb' ▸ hd', htime⟩).symm

/-! Rules that only hold on a release. -/

/-- At once, it is a hold if some press is released. -/
theorem resolve_of_hold (own : KCoord) (hxs : ∀ x ∈ xs, x.2 = .pass ∨ x.2 = .onRelease .hold) :
    (resolve own xs = some .hold ↔ ∃ i k a, Completes xs i k a) ∧
      (resolve own xs ≠ some .hold →
        resolve own xs = if isReleased own xs then some .tap else none) := by
  have hiff : resolve own xs = some .hold ↔ ∃ i k a, Completes xs i k a := by
    constructor
    · intro h
      rcases resolve_eq_some_iff.mp h with ⟨i, k, hc, _⟩ | ⟨_, heq, _⟩
      · exact ⟨i, k, _, hc⟩
      · cases heq
    · rintro ⟨_, _, _, hc⟩
      rcases exists_firstInQueue hc with ⟨i, k, a, hc, hfirst⟩
      have ha : a = .hold := hc.action_eq hxs
      exact resolve_eq_some_iff.mpr (.inl ⟨i, k, ha ▸ hc, hfirst⟩)
  refine ⟨hiff, ?_⟩
  intro hne
  have hnone : (scanRuled xs).action = none := by
    rw [scanRuled_action_eq_none_iff]
    intro i k a hc
    exact hne (hiff.mpr ⟨i, k, a, hc⟩)
  unfold resolve
  rw [hnone]

/-- Event by event, it is a hold if some press is released and the key itself was
not released before. -/
theorem firstOf_of_hold (own : KCoord) (hxs : ∀ x ∈ xs, x.2 = .pass ∨ x.2 = .onRelease .hold) :
    (firstOf (resolve own) [] xs = some .hold ↔
      ∃ i k a, Completes xs i k a ∧ ∀ m < k, ¬ ReleasedAt own xs m) ∧
    (firstOf (resolve own) [] xs ≠ some .hold →
      firstOf (resolve own) [] xs = if isReleased own xs then some .tap else none) := by
  have hagree : Agreeing xs := by
    intro i i' k a a' hc hc'
    rw [hc.action_eq hxs, hc'.action_eq hxs]
  have hiff : firstOf (resolve own) [] xs = some .hold ↔
      ∃ i k a, Completes xs i k a ∧ ∀ m < k, ¬ ReleasedAt own xs m := by
    rw [firstOf_resolve_iff hagree]
    constructor
    · rintro ⟨m, ⟨i, hc⟩ | ⟨heq, _⟩, hfirst⟩
      · refine ⟨i, m, _, hc, ?_⟩
        intro m' hm' hrel
        rcases decidesAt_of_releasedAt hrel with ⟨b, hd⟩
        exact hfirst m' hm' b hd
      · cases heq
    · rintro ⟨i, k, a, hc, hbefore⟩
      rcases exists_firstInTime (show DecidesAt own xs k a from .inl ⟨i, hc⟩)
        with ⟨m, hm, b, hd, hfirst⟩
      refine ⟨m, ?_, hfirst⟩
      rcases hd with ⟨i', hc'⟩ | ⟨_, hrel, hnone⟩
      · have hb : b = .hold := hc'.action_eq hxs
        exact .inl ⟨i', hb ▸ hc'⟩
      · rcases Nat.lt_or_eq_of_le hm with hlt | rfl
        · exact absurd hrel (hbefore m hlt)
        · exact absurd hc (hnone i a)
  refine ⟨hiff, ?_⟩
  intro hne
  by_cases hrel : isReleased own xs = true
  · rw [if_pos hrel]
    rcases isReleased_iff.mp hrel with ⟨m₀, hrel₀⟩
    rcases decidesAt_of_releasedAt hrel₀ with ⟨b₀, hd₀⟩
    rcases exists_firstInTime hd₀ with ⟨m, _, b, hd, hfirst⟩
    rw [firstOf_resolve_iff hagree]
    refine ⟨m, ?_, hfirst⟩
    rcases hd with ⟨i, hc⟩ | ⟨hb, hrel, hnone⟩
    · have hb : b = .hold := hc.action_eq hxs
      exact absurd ((firstOf_resolve_iff hagree).mpr ⟨m, .inl ⟨i, hb ▸ hc⟩, hfirst⟩) hne
    · exact .inr ⟨rfl, hrel, hnone⟩
  · rw [if_neg hrel, firstOf_resolve_eq_none_iff, resolve_eq_none_iff]
    rintro m b (⟨i, hc⟩ | ⟨_, hm, _⟩)
    · refine hne (hiff.mpr ⟨i, m, b, hc, ?_⟩)
      intro m' _ hm'
      exact hrel (isReleased_iff.mpr ⟨m', hm'⟩)
    · exact hrel (isReleased_iff.mpr ⟨m, hm⟩)

end OneAtATime

end Kanata
