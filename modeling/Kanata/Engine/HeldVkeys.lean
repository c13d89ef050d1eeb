import Kanata.Keyberon.Event
import Kanata.Lib.Machine
import Kanata.Lib.PressRelease

/-!
# Kanata.Engine.HeldVkeys — virtual keys that are held for a time

`hold-for-duration` presses a virtual key, and `tick_held_vkeys` of `kanata/mod.rs` releases
it when the time has passed. Activating it again while it is down only starts the time anew.

`vkey_held_iff`: at any time the key is down exactly when the latest activation is young
enough, and what the layout gets for it alternates.

The coordinates are the keys of a hash map, whose order is arbitrary: a tick visits them in
the order of a parameter (`VkeyOrder`).
-/

namespace Kanata

open Fallible Machine PressRelease

/-- `vkeys_pending_release`: the ticks that are left, by coordinate. -/
structure VkeysPendingRelease where
  entries : List (KCoord × Nat)
  nodup : (entries.map Prod.fst).Nodup

/-- A hash map or a hash set is visited in some order. -/
structure HashOrder (α : Type) where
  order : List α → List α
  perm : ∀ entries, (order entries).Perm entries

/-- The order of insertion. -/
def HashOrder.insertion (α : Type) : HashOrder α := ⟨id, fun _ => List.Perm.refl _⟩

/-- The order in which `vkeys_pending_release` is visited. -/
abbrev VkeyOrder := HashOrder (KCoord × Nat)

namespace VkeysPendingRelease

def new : VkeysPendingRelease := ⟨[], .nil⟩

variable {v : VkeysPendingRelease} {c : KCoord}

def contains (v : VkeysPendingRelease) (c : KCoord) : Bool := (v.entries.map Prod.fst).contains c

theorem contains_iff : v.contains c = true ↔ ∃ left, (c, left) ∈ v.entries := by
  simp [contains]

theorem modify_nodup (v : VkeysPendingRelease) (c : KCoord) (duration : Nat) :
    ((v.entries.map fun e => if e.1 = c then (c, duration) else e).map Prod.fst).Nodup := by
  have hkeys : (v.entries.map fun e => if e.1 = c then (c, duration) else e).map Prod.fst =
      v.entries.map Prod.fst := by
    rw [List.map_map]
    refine List.map_congr_left fun e _ => ?_
    dsimp only [Function.comp]
    split
    · rename_i heq
      exact heq.symm
    · rfl
  rw [hkeys]
  exact v.nodup

/-- `and_modify`. -/
def modify (v : VkeysPendingRelease) (c : KCoord) (duration : Nat) : VkeysPendingRelease :=
  ⟨v.entries.map fun e => if e.1 = c then (c, duration) else e, modify_nodup v c duration⟩

theorem insert_nodup (v : VkeysPendingRelease) (c : KCoord) (duration : Nat)
    (h : v.contains c = false) : ((v.entries ++ [(c, duration)]).map Prod.fst).Nodup := by
  have hnot : c ∉ v.entries.map Prod.fst := fun hmem =>
    Bool.false_ne_true (h.symm.trans (List.contains_iff_mem.mpr hmem))
  rw [List.map_append]
  refine List.nodup_append.mpr ⟨v.nodup, List.pairwise_singleton _ _, ?_⟩
  rintro a ha b hb rfl
  have heq : a = c := List.mem_singleton.mp hb
  exact hnot (heq ▸ ha)

/-- `or_insert_with`. -/
def insert (v : VkeysPendingRelease) (c : KCoord) (duration : Nat) (h : v.contains c = false) :
    VkeysPendingRelease :=
  ⟨v.entries ++ [(c, duration)], v.insert_nodup c duration h⟩

/-- The press branch of `FakeKeyHoldForDuration`, with the event for the layout. -/
def holdForDuration (v : VkeysPendingRelease) (c : KCoord) (duration : Nat) :
    VkeysPendingRelease × List Event :=
  if h : v.contains c = true then (v.modify c duration, [])
  else (v.insert c duration (Bool.eq_false_iff.mpr h), [.press c.1 c.2])

/-- What stays of an entry in the closure of `tick_held_vkeys`. -/
def tickEntry (e : KCoord × Nat) : Option (KCoord × Nat) :=
  if e.2 - 1 = 0 then none else some (e.1, e.2 - 1)

/-- The event that the closure of `tick_held_vkeys` gives to the layout. -/
def tickEvent (e : KCoord × Nat) : Option Event :=
  if e.2 - 1 = 0 then some (.release e.1.1 e.1.2) else none

theorem tickEntries_keys (entries : List (KCoord × Nat)) :
    ((entries.filterMap tickEntry).map Prod.fst).Sublist (entries.map Prod.fst) := by
  induction entries with
  | nil => exact .slnil
  | cons e entries ih =>
    rw [List.filterMap_cons, tickEntry]
    split_ifs
    · exact ih.cons _
    · exact ih.cons_cons _

theorem tick_nodup (iter : VkeyOrder) (v : VkeysPendingRelease) :
    (((iter.order v.entries).filterMap tickEntry).map Prod.fst).Nodup :=
  (tickEntries_keys _).nodup (((iter.perm v.entries).map Prod.fst).nodup_iff.mpr v.nodup)

/-- `tick_held_vkeys`. -/
def tickHeldVkeys (iter : VkeyOrder) (v : VkeysPendingRelease) :
    VkeysPendingRelease × List Event :=
  (⟨(iter.order v.entries).filterMap tickEntry, v.tick_nodup iter⟩,
    (iter.order v.entries).filterMap tickEvent)

end VkeysPendingRelease

inductive VkeyOp where
  | fakeKeyHoldForDuration (coord : KCoord) (holdDuration : Nat)
  | tickHeldVkeys
deriving DecidableEq, Repr

def vkeyStep (iter : VkeyOrder) (v : VkeysPendingRelease) :
    VkeyOp → Rust (VkeysPendingRelease × List Event)
  | .fakeKeyHoldForDuration coord holdDuration => pure (v.holdForDuration coord holdDuration)
  | .tickHeldVkeys => pure (v.tickHeldVkeys iter)

def Event.edge : Event → Edge KCoord
  | .press i j => .press (i, j)
  | .release i j => .release (i, j)

/-! ## The latest activation -/

/-- So many ticks are left of the latest activation of the coordinate. A duration of zero
is one tick. -/
def Left (c : KCoord) (ops : List VkeyOp) (left : Nat) : Prop :=
  ∃ before duration after, ops = before ++ .fakeKeyHoldForDuration c duration :: after ∧
    (∀ duration', .fakeKeyHoldForDuration c duration' ∉ after) ∧
    after.count .tickHeldVkeys + left = max 1 duration

/-- The latest activation of the coordinate is young enough. -/
def HeldAt (c : KCoord) (ops : List VkeyOp) : Prop := ∃ left, 0 < left ∧ Left c ops left

section Latest

variable {c c' : KCoord} {ops : List VkeyOp} {duration left : Nat}

theorem not_left_nil : ¬Left c [] left := by
  rintro ⟨before, duration, after, heq, -, -⟩
  cases before <;> cases heq

theorem left_hold : Left c (ops ++ [.fakeKeyHoldForDuration c duration]) left ↔
    left = max 1 duration := by
  constructor
  · rintro ⟨before, duration', after, heq, hlatest, hcount⟩
    rcases List.eq_nil_or_concat' after with rfl | ⟨after, op, rfl⟩
    · rcases List.append_inj' heq rfl with ⟨-, heq⟩
      cases heq
      simpa using hcount
    · rw [← List.cons_append, ← List.append_assoc] at heq
      rcases List.append_inj' heq rfl with ⟨-, heq⟩
      cases heq
      exact absurd (List.mem_append_right _ List.mem_cons_self) (hlatest duration)
  · rintro rfl
    exact ⟨ops, duration, [], rfl, fun _ => List.not_mem_nil, Nat.zero_add _⟩

/-- An operation that does not activate the coordinate leaves less of its time, if it is a
tick. -/
theorem left_concat {op : VkeyOp} (hop : ∀ duration, op ≠ .fakeKeyHoldForDuration c duration) :
    Left c (ops ++ [op]) left ↔
      Left c ops (left + if op = .tickHeldVkeys then 1 else 0) := by
  have hcount : ∀ after : List VkeyOp, (after ++ [op]).count .tickHeldVkeys =
      after.count .tickHeldVkeys + if op = .tickHeldVkeys then 1 else 0 := by
    intro after
    rw [List.count_append, List.count_singleton]
    simp
  constructor
  · rintro ⟨before, duration, after, heq, hlatest, hleft⟩
    rcases List.eq_nil_or_concat' after with rfl | ⟨after, op', rfl⟩
    · rcases List.append_inj' heq rfl with ⟨-, heq⟩
      cases heq
      exact absurd rfl (hop duration)
    · rw [← List.cons_append, ← List.append_assoc] at heq
      rcases List.append_inj' heq rfl with ⟨rfl, hlast⟩
      cases hlast
      rw [hcount] at hleft
      refine ⟨before, duration, after, rfl, fun duration' hmem => ?_, by omega⟩
      exact hlatest duration' (List.mem_append_left _ hmem)
  · rintro ⟨before, duration, after, rfl, hlatest, hleft⟩
    refine ⟨before, duration, after ++ [op], by simp, fun duration' hmem => ?_, ?_⟩
    · rcases List.mem_append.mp hmem with hmem | hmem
      · exact hlatest duration' hmem
      · exact hop duration' (List.mem_singleton.mp hmem).symm
    · rw [hcount]
      omega

end Latest

/-! ## Runs -/

namespace VkeysPendingRelease

/-- The entries say what is left of the latest activations. -/
def Tells (v : VkeysPendingRelease) (ops : List VkeyOp) : Prop :=
  ∀ c n, (∃ left, (c, left) ∈ v.entries ∧ max 1 left = n) ↔ 0 < n ∧ Left c ops n

variable {v : VkeysPendingRelease} {ops : List VkeyOp} {c : KCoord}

theorem Tells.contains_iff (h : v.Tells ops) : v.contains c = true ↔ HeldAt c ops := by
  rw [VkeysPendingRelease.contains_iff]
  constructor
  · rintro ⟨left, hmem⟩
    exact ⟨_, (h c _).mp ⟨left, hmem, rfl⟩⟩
  · rintro ⟨n, hn⟩
    rcases (h c n).mpr hn with ⟨left, hmem, -⟩
    exact ⟨left, hmem⟩

theorem tells_new : new.Tells [] := by
  intro c n
  constructor
  · rintro ⟨left, hmem, -⟩
    cases hmem
  · exact fun h => absurd h.2 not_left_nil

theorem mem_hold (v : VkeysPendingRelease) (c : KCoord) (duration : Nat) (c' : KCoord)
    (left : Nat) : (c', left) ∈ (v.holdForDuration c duration).1.entries ↔
      if c' = c then left = duration else (c', left) ∈ v.entries := by
  unfold holdForDuration
  split
  · rename_i hcontains
    rcases VkeysPendingRelease.contains_iff.mp hcontains with ⟨old, hold⟩
    show (c', left) ∈ v.entries.map _ ↔ _
    rw [List.mem_map]
    split
    · rename_i hc
      subst hc
      constructor
      · rintro ⟨e, he, heq⟩
        split at heq
        · cases heq
          rfl
        · rename_i hne
          exact absurd (congrArg Prod.fst heq) hne
      · rintro rfl
        exact ⟨(c', old), hold, if_pos rfl⟩
    · rename_i hc
      constructor
      · rintro ⟨e, he, heq⟩
        split at heq
        · exact absurd (congrArg Prod.fst heq).symm hc
        · exact heq ▸ he
      · exact fun he => ⟨(c', left), he, if_neg hc⟩
  · rename_i hcontains
    show (c', left) ∈ v.entries ++ [(c, duration)] ↔ _
    rw [List.mem_append, List.mem_singleton, Prod.mk.injEq]
    split
    · rename_i hc
      subst hc
      constructor
      · rintro (hmem | ⟨-, heq⟩)
        · exact absurd (VkeysPendingRelease.contains_iff.mpr ⟨left, hmem⟩) hcontains
        · exact heq
      · exact fun heq => .inr ⟨rfl, heq⟩
    · rename_i hc
      exact ⟨fun h => h.resolve_right fun heq => hc heq.1, .inl⟩

theorem mem_tick (iter : VkeyOrder) (v : VkeysPendingRelease) (c : KCoord) (left : Nat) :
    (c, left) ∈ (v.tickHeldVkeys iter).1.entries ↔ 0 < left ∧ (c, left + 1) ∈ v.entries := by
  show (c, left) ∈ (iter.order v.entries).filterMap tickEntry ↔ _
  rw [List.mem_filterMap]
  constructor
  · rintro ⟨⟨c', old⟩, hmem, hentry⟩
    unfold tickEntry at hentry
    split at hentry
    · cases hentry
    · rename_i hold
      cases hentry
      have heq : old - 1 + 1 = old := by omega
      exact ⟨by omega, heq.symm ▸ (iter.perm v.entries).mem_iff.mp hmem⟩
  · rintro ⟨hpos, hmem⟩
    refine ⟨(c, left + 1), (iter.perm v.entries).mem_iff.mpr hmem, ?_⟩
    have hne : ¬left + 1 - 1 = 0 := by omega
    rw [tickEntry, if_neg hne]
    rfl

/-- An activation starts the time of its coordinate anew. -/
theorem Tells.hold (h : v.Tells ops) (c : KCoord) (duration : Nat) :
    (v.holdForDuration c duration).1.Tells (ops ++ [.fakeKeyHoldForDuration c duration]) := by
  have hother : ∀ c', c' ≠ c → ∀ n, Left c' (ops ++ [.fakeKeyHoldForDuration c duration]) n ↔
      Left c' ops n := by
    intro c' hne n
    rw [left_concat]
    · rfl
    · rintro duration' ⟨⟩
      exact hne rfl
  have hself : ∀ n, 0 < n ∧ Left c (ops ++ [.fakeKeyHoldForDuration c duration]) n ↔
      max 1 duration = n := by
    intro n
    rw [left_hold]
    omega
  have hentries := fun c' left => v.mem_hold c duration c' left
  intro c' n
  by_cases hc : c' = c
  · subst hc
    rw [hself]
    simp only [hentries, if_pos]
    exact ⟨fun ⟨_, heq, hn⟩ => heq ▸ hn, fun hn => ⟨duration, rfl, hn⟩⟩
  · rw [hother c' hc]
    simp only [hentries, if_neg hc]
    exact h c' n

/-- A tick takes one from what is left of each activation. -/
theorem Tells.tick (h : v.Tells ops) (iter : VkeyOrder) :
    (v.tickHeldVkeys iter).1.Tells (ops ++ [.tickHeldVkeys]) := by
  intro c n
  have hleft : Left c (ops ++ [.tickHeldVkeys]) n ↔ Left c ops (n + 1) := left_concat nofun
  have hentries := fun left => v.mem_tick iter c left
  rw [hleft]
  simp only [hentries]
  have htells := h c (n + 1)
  constructor
  · rintro ⟨left, ⟨hpos, hmem⟩, hn⟩
    refine ⟨by omega, (htells.mp ⟨left + 1, hmem, by omega⟩).2⟩
  · rintro ⟨hpos, hn⟩
    rcases htells.mpr ⟨by omega, hn⟩ with ⟨left, hmem, hmax⟩
    have hleft : left = n + 1 := by omega
    exact ⟨n, ⟨hpos, hleft ▸ hmem⟩, by omega⟩

/-- Each coordinate has one entry. -/
theorem entry_unique {left left' : Nat} (h : (c, left) ∈ v.entries) (h' : (c, left') ∈ v.entries) :
    left = left' :=
  congrArg Prod.snd (List.inj_on_of_nodup_map v.nodup h h' rfl)

theorem contains_hold (v : VkeysPendingRelease) (c : KCoord) (duration : Nat) (c' : KCoord) :
    (v.holdForDuration c duration).1.contains c' = (decide (c' = c) || v.contains c') := by
  rw [Bool.eq_iff_iff, VkeysPendingRelease.contains_iff, Bool.or_eq_true, decide_eq_true_iff,
    VkeysPendingRelease.contains_iff]
  simp only [mem_hold]
  by_cases hc : c' = c
  · simp [hc]
  · simp [hc]

/-- An activation presses the key if it is up. -/
theorem hold_track (v : VkeysPendingRelease) (c : KCoord) (duration : Nat) (c' : KCoord) :
    track c' (v.contains c') ((v.holdForDuration c duration).2.map Event.edge) =
      some ((v.holdForDuration c duration).1.contains c') := by
  rw [contains_hold]
  unfold holdForDuration
  split
  · rename_i hcontains
    by_cases hc : c' = c
    · subst hc
      simp [track, hcontains]
    · simp [track, hc]
  · rename_i hcontains
    by_cases hc : c' = c
    · subst hc
      simp [Event.edge, track, hcontains]
    · simp [Event.edge, track, hc, Ne.symm hc]

/-- A tick releases the keys that have no more time. -/
theorem tick_track (iter : VkeyOrder) (v : VkeysPendingRelease) (c : KCoord) :
    track c (v.contains c) ((v.tickHeldVkeys iter).2.map Event.edge) =
      some ((v.tickHeldVkeys iter).1.contains c) := by
  have hevents : (v.tickHeldVkeys iter).2.map Event.edge =
      (((iter.order v.entries).filter fun e => e.2 - 1 = 0).map Prod.fst).map .release := by
    show ((iter.order v.entries).filterMap tickEvent).map Event.edge = _
    generalize iter.order v.entries = entries
    induction entries with
    | nil => rfl
    | cons e entries ih =>
      by_cases hzero : e.2 - 1 = 0
      · rw [List.filterMap_cons, List.filter_cons, tickEvent, if_pos hzero, decide_eq_true hzero,
          if_pos rfl, List.map_cons, ih]
        rfl
      · rw [List.filterMap_cons, List.filter_cons, tickEvent, if_neg hzero, decide_eq_false hzero,
          if_neg Bool.false_ne_true]
        exact ih
  have hnodup : (((iter.order v.entries).filter fun e => e.2 - 1 = 0).map Prod.fst).Nodup :=
    ((List.filter_sublist).map Prod.fst).nodup
      (((iter.perm v.entries).map Prod.fst).nodup_iff.mpr v.nodup)
  have hgone : c ∈ ((iter.order v.entries).filter fun e => e.2 - 1 = 0).map Prod.fst ↔
      ∃ left, (c, left) ∈ v.entries ∧ left - 1 = 0 := by
    simp [(iter.perm v.entries).mem_iff]
  have hdown : c ∈ ((iter.order v.entries).filter fun e => e.2 - 1 = 0).map Prod.fst →
      v.contains c = true := fun hmem => by
    rcases hgone.mp hmem with ⟨left, hleft, -⟩
    exact VkeysPendingRelease.contains_iff.mpr ⟨left, hleft⟩
  rw [hevents]
  refine track_releases_of_nodup hnodup hdown ?_
  rw [hgone, VkeysPendingRelease.contains_iff, VkeysPendingRelease.contains_iff]
  simp only [mem_tick]
  constructor
  · rintro ⟨left, hpos, hleft⟩
    refine ⟨⟨_, hleft⟩, ?_⟩
    rintro ⟨left', hleft', hzero⟩
    have := entry_unique hleft hleft'
    omega
  · rintro ⟨⟨left, hleft⟩, hnot⟩
    have hpos : ¬left - 1 = 0 := fun hzero => hnot ⟨left, hleft, hzero⟩
    have heq : left - 1 + 1 = left := by omega
    exact ⟨left - 1, by omega, heq.symm ▸ hleft⟩

end VkeysPendingRelease

open VkeysPendingRelease

/-- A step tells the layout what it does to the entries. -/
theorem vkeyStep_tells (iter : VkeyOrder) {v : VkeysPendingRelease} {ops : List VkeyOp}
    (h : v.Tells ops) (op : VkeyOp) :
    ∃ v' events, vkeyStep iter v op = .ok (v', events) ∧ v'.Tells (ops ++ [op]) ∧
      ∀ c, track c (v.contains c) (events.map Event.edge) = some (v'.contains c) := by
  cases op with
  | fakeKeyHoldForDuration coord holdDuration =>
    exact ⟨_, _, rfl, h.hold coord holdDuration, v.hold_track coord holdDuration⟩
  | tickHeldVkeys => exact ⟨_, _, rfl, h.tick iter, v.tick_track iter⟩

theorem vkey_run (iter : VkeyOrder) : ∀ (ops : List VkeyOp) {done : List VkeyOp}
    {v : VkeysPendingRelease}, v.Tells done →
    ∃ v' events, run (vkeyStep iter) v ops = .ok (v', events) ∧ v'.Tells (done ++ ops) ∧
      ∀ c, track c (v.contains c) (events.flatten.map Event.edge) = some (v'.contains c)
  | [], done, v, h => ⟨v, [], rfl, by rwa [List.append_nil], fun _ => rfl⟩
  | op :: ops, done, v, h => by
    rcases vkeyStep_tells iter h op with ⟨v₁, events, hstep, h₁, htrack⟩
    rcases vkey_run iter ops h₁ with ⟨v', rest, hrun, h', htrack'⟩
    refine ⟨v', events :: rest, run_cons_eq_ok.mpr ⟨_, _, _, hstep, hrun, rfl⟩, ?_, fun c => ?_⟩
    · simpa using h'
    · rw [List.flatten_cons, List.map_append, track_append, htrack c]
      exact htrack' c

/-- Whatever virtual keys are activated for whatever times, the presses and releases that the
layout gets for a coordinate alternate, and it is down exactly while its latest activation has
time left. -/
theorem vkey_held_iff (iter : VkeyOrder) (ops : List VkeyOp) :
    ∃ v events, run (vkeyStep iter) .new ops = .ok (v, events) ∧
      ∀ c, ∃ down, track c false (events.flatten.map Event.edge) = some down ∧
        (down = true ↔ HeldAt c ops) := by
  rcases vkey_run iter ops tells_new with ⟨v, events, hrun, htells, htrack⟩
  exact ⟨v, events, hrun, fun c => ⟨v.contains c, htrack c, htells.contains_iff⟩⟩

end Kanata
