import Mathlib.Data.List.Chain

/-!
# Kanata.Engine.MillisecondCounting — how many ticks are due

`count_ms_elapsed` turns the time since the last tick into whole milliseconds and
a remainder. The processing loop feeds the last tick and the remainder of one
call to the next. An instant is a number of nanoseconds.

A call that counts no millisecond keeps the last tick *and* carries the remainder,
so the time since the last tick is counted again by the next call.
-/

namespace Kanata

/-- `NS_IN_MS`. -/
def nsInMs : Nat := 1000000

structure MillisecondCountResult where
  lastTick : Nat
  msElapsed : Nat
  msRemainderInNs : Nat
deriving DecidableEq, Repr

/-- `count_ms_elapsed`. `duration_since` saturates at zero, as subtraction does. -/
def countMsElapsed (lastTick now prevMsRemainderInNs : Nat) : MillisecondCountResult :=
  let nsElapsedWithRem := (now - lastTick) + prevMsRemainderInNs
  let msElapsed := nsElapsedWithRem / nsInMs
  { lastTick := if msElapsed = 0 then lastTick else now
    msElapsed
    msRemainderInNs := nsElapsedWithRem % nsInMs }

/-- The calls at the instants of a list, each with the result of the one before:
the sum of the milliseconds and the last remainder. -/
def countChain : Nat → Nat → List Nat → Nat × Nat
  | _, remainder, [] => (0, remainder)
  | lastTick, remainder, now :: ts =>
    let r := countMsElapsed lastTick now remainder
    let rest := countChain r.lastTick r.msRemainderInNs ts
    (r.msElapsed + rest.1, rest.2)

/-- Two wake-ups in a row are at the same instant, or a millisecond counted from
`t₀` ends between them. -/
def Apart (t₀ a b : Nat) : Prop := a = b ∨ (a - t₀) / nsInMs < (b - t₀) / nsInMs

theorem nsInMs_pos : 0 < nsInMs := by decide

/-- The result of a call, as quotient and remainder. -/
theorem countMsElapsed_total (lastTick now remainder : Nat) :
    (countMsElapsed lastTick now remainder).msElapsed * nsInMs +
      (countMsElapsed lastTick now remainder).msRemainderInNs = (now - lastTick) + remainder := by
  unfold countMsElapsed
  simp only
  rw [Nat.mul_comm]
  exact Nat.div_add_mod _ _

theorem countMsElapsed_remainder_lt (lastTick now remainder : Nat) :
    (countMsElapsed lastTick now remainder).msRemainderInNs < nsInMs :=
  Nat.mod_lt _ nsInMs_pos

theorem countChain_remainder_lt :
    ∀ {ts : List Nat} {lastTick remainder : Nat}, remainder < nsInMs →
      (countChain lastTick remainder ts).2 < nsInMs
  | [], _, _, h => h
  | now :: ts, lastTick, remainder, _ => by
    unfold countChain
    exact countChain_remainder_lt (countMsElapsed_remainder_lt lastTick now remainder)

/-- A call that counts a millisecond moves the last tick. -/
theorem countMsElapsed_of_pos {lastTick now remainder : Nat}
    (h : (countMsElapsed lastTick now remainder).msElapsed ≠ 0) :
    (countMsElapsed lastTick now remainder).lastTick = now := if_neg h

/-- A call that counts none keeps the last tick and adds to the remainder. -/
theorem countMsElapsed_of_zero {lastTick now remainder : Nat}
    (h : (countMsElapsed lastTick now remainder).msElapsed = 0) :
    (countMsElapsed lastTick now remainder).lastTick = lastTick ∧
      (countMsElapsed lastTick now remainder).msRemainderInNs = (now - lastTick) + remainder := by
  have htotal := countMsElapsed_total lastTick now remainder
  rw [h] at htotal
  exact ⟨if_pos h, by omega⟩

theorem le_getLastD {t : Nat} {ts : List Nat} (h : (t :: ts).Pairwise (· ≤ ·)) :
    t ≤ ts.getLastD t := by
  have hmem : ts.getLastD t ∈ t :: ts := List.getLastD_mem_cons
  rcases List.mem_cons.mp hmem with heq | hmem
  · rw [heq]
  · exact (List.pairwise_cons.mp h).1 _ hmem

theorem pairwise_drop_second {t now : Nat} {ts : List Nat}
    (h : (t :: now :: ts).Pairwise (· ≤ ·)) : (t :: ts).Pairwise (· ≤ ·) :=
  h.sublist ((List.sublist_cons_self now ts).cons_cons t)

/-- No time is lost: together the calls count at least what passed. -/
theorem le_countChain :
    ∀ (ts : List Nat) {lastTick : Nat} (remainder : Nat), (lastTick :: ts).Pairwise (· ≤ ·) →
      ts.getLastD lastTick - lastTick + remainder ≤
        (countChain lastTick remainder ts).1 * nsInMs + (countChain lastTick remainder ts).2
  | [], lastTick, remainder, _ => by
    simp [countChain]
  | now :: ts, lastTick, remainder, hsorted => by
    have htotal := countMsElapsed_total lastTick now remainder
    have hle : lastTick ≤ now := (List.pairwise_cons.mp hsorted).1 _ List.mem_cons_self
    have hlast : now ≤ ts.getLastD now := le_getLastD (List.pairwise_cons.mp hsorted).2
    rw [List.getLastD_cons]
    unfold countChain
    simp only
    rw [Nat.add_mul]
    by_cases hzero : (countMsElapsed lastTick now remainder).msElapsed = 0
    · rcases countMsElapsed_of_zero hzero with ⟨htick, hrem⟩
      rw [htick, hzero, hrem]
      have ih := le_countChain ts (now - lastTick + remainder)
        (pairwise_drop_second hsorted)
      cases ts with
      | nil =>
        simp only [List.getLastD_nil] at ih ⊢
        omega
      | cons next ts =>
        rw [List.getLastD_cons] at ih ⊢
        omega
    · rw [countMsElapsed_of_pos hzero]
      have ih := le_countChain ts (countMsElapsed lastTick now remainder).msRemainderInNs
        (List.pairwise_cons.mp hsorted).2
      omega

/-- In step with `t₀`, a call counts the milliseconds that end since the last tick. -/
theorem countMsElapsed_in_step {t₀ lastTick now : Nat} (hbase : t₀ ≤ lastTick)
    (hle : lastTick ≤ now) :
    (countMsElapsed lastTick now ((lastTick - t₀) % nsInMs)).msElapsed =
        (now - t₀) / nsInMs - (lastTick - t₀) / nsInMs ∧
      (countMsElapsed lastTick now ((lastTick - t₀) % nsInMs)).msRemainderInNs =
        (now - t₀) % nsInMs := by
  unfold countMsElapsed nsInMs
  constructor
  · simp only
    omega
  · simp only
    omega

/-- From a state in step with `t₀`, the calls count what passed, no more, exactly
when all wake-ups but the last are apart. -/
theorem countChain_total_iff {t₀ : Nat} :
    ∀ (ts : List Nat) {lastTick : Nat}, t₀ ≤ lastTick → (lastTick :: ts).Pairwise (· ≤ ·) →
      ((countChain lastTick ((lastTick - t₀) % nsInMs) ts).1 * nsInMs +
          (countChain lastTick ((lastTick - t₀) % nsInMs) ts).2 =
            ts.getLastD lastTick - lastTick + (lastTick - t₀) % nsInMs ↔
        (lastTick :: ts).dropLast.IsChain (Apart t₀))
  | [], lastTick, _, _ => by
    simp [countChain]
  | [now], lastTick, _, hsorted => by
    have htotal := countMsElapsed_total lastTick now ((lastTick - t₀) % nsInMs)
    simp only [countChain, List.getLastD_cons, List.getLastD_nil, Nat.add_zero]
    exact iff_of_true htotal (List.isChain_singleton lastTick)
  | now :: next :: ts, lastTick, hbase, hsorted => by
    have hle : lastTick ≤ now := (List.pairwise_cons.mp hsorted).1 _ List.mem_cons_self
    have hsorted' := (List.pairwise_cons.mp hsorted).2
    have hlast := le_getLastD hsorted'
    have htotal := countMsElapsed_total lastTick now ((lastTick - t₀) % nsInMs)
    rcases countMsElapsed_in_step hbase hle with ⟨hms, hrem⟩
    have hmono : (lastTick - t₀) / nsInMs ≤ (now - t₀) / nsInMs :=
      Nat.div_le_div_right (Nat.sub_le_sub_right hle t₀)
    rw [List.getLastD_cons] at hlast ⊢
    rw [List.dropLast_cons_cons, List.dropLast_cons_cons, List.isChain_cons_cons, countChain]
    simp only
    rw [Nat.add_mul]
    by_cases hzero : (countMsElapsed lastTick now ((lastTick - t₀) % nsInMs)).msElapsed = 0
    · rcases countMsElapsed_of_zero hzero with ⟨htick, hkept⟩
      rw [htick]
      rcases Nat.lt_or_eq_of_le hle with hlt | rfl
      · -- the time up to `now` is counted again
        have hagain := le_countChain (next :: ts)
          (countMsElapsed lastTick now ((lastTick - t₀) % nsInMs)).msRemainderInNs
          (pairwise_drop_second hsorted)
        rw [List.getLastD_cons] at hagain
        refine iff_of_false ?_ ?_
        · rw [List.getLastD_cons]
          omega
        · rintro ⟨heq | hcross, _⟩
          · omega
          · omega
      · have ih := countChain_total_iff (next :: ts) hbase (pairwise_drop_second hsorted)
        rw [List.dropLast_cons_cons] at ih
        rw [hzero, hrem, Nat.zero_mul, Nat.zero_add, ih]
        exact ⟨fun h => ⟨.inl rfl, h⟩, fun h => h.2⟩
    · have ih := countChain_total_iff (next :: ts) (Nat.le_trans hbase hle) hsorted'
      have hcross : Apart t₀ lastTick now := .inr (by omega)
      rw [List.dropLast_cons_cons] at ih
      rw [countMsElapsed_of_pos hzero, and_iff_right hcross, ← ih]
      rw [hrem] at htotal ⊢
      rw [List.getLastD_cons]
      constructor
      · intro h
        omega
      · intro h
        omega

/-- For every non-decreasing chain of instants: the milliseconds counted are the
whole milliseconds that passed and the last remainder is the rest, exactly when
every wake-up but the last is at the instant of the one before or follows a
millisecond that ended in between. -/
theorem elapsed_exact_iff {t₀ : Nat} {ts : List Nat} (hsorted : (t₀ :: ts).Pairwise (· ≤ ·)) :
    (countChain t₀ 0 ts = ((ts.getLastD t₀ - t₀) / nsInMs, (ts.getLastD t₀ - t₀) % nsInMs) ↔
      (t₀ :: ts).dropLast.IsChain (Apart t₀)) := by
  have hiff := countChain_total_iff ts (Nat.le_refl t₀) hsorted
  rw [Nat.sub_self, Nat.zero_mod, Nat.add_zero] at hiff
  rw [← hiff]
  have hlt : (countChain t₀ 0 ts).2 < nsInMs := countChain_remainder_lt nsInMs_pos
  constructor
  · intro h
    rw [h]
    exact Nat.div_add_mod' _ _
  · intro h
    rw [← h, Prod.ext_iff]
    constructor
    · rw [Nat.add_comm, Nat.add_mul_div_right _ _ nsInMs_pos, Nat.div_eq_of_lt hlt, Nat.zero_add]
    · rw [Nat.add_comm, Nat.add_mul_mod_self_right, Nat.mod_eq_of_lt hlt]

/-- `elapsed_exact_iff` for wake-ups a millisecond and a half apart. -/
theorem elapsed_exact_apart :
    [0, 1500000, 3000000].Pairwise (· ≤ ·) ∧
      (countChain 0 0 [1500000, 3000000] = (3, 0) ↔ [0, 1500000].IsChain (Apart 0)) :=
  ⟨by decide, @elapsed_exact_iff 0 [1500000, 3000000] (by decide)⟩

/-- Woken up after 0.6 ms and again after 0.9 ms, the loop counts a millisecond
that has not passed yet. -/
theorem elapsed_counted_twice :
    [0, 600000, 900000].Pairwise (· ≤ ·) ∧
      countChain 0 0 [600000, 900000] = (1, 500000) ∧
      (900000 - 0) / nsInMs = 0 := by
  decide

end Kanata
