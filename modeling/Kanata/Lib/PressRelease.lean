import Mathlib.Data.List.Basic
import Mathlib.Data.List.Count
import Mathlib.Data.List.Nodup

/-!
# Kanata.Lib.PressRelease — streams of presses and releases

A producer that knows the keys that were active and the keys that are active now
sends releases for what went and presses for what came. `track` follows one key
through such a stream and fails where the stream is not well formed: at a press of
a key that is down or a release of a key that is up.
-/

namespace PressRelease

variable {κ : Type} [DecidableEq κ]

/-- What is sent about a key. -/
inductive Edge (κ : Type) where
  | press (k : κ)
  | release (k : κ)
deriving DecidableEq, Repr

/-- Whether the key `k` is down after the edges, if its edges alternate. -/
def track (k : κ) : Bool → List (Edge κ) → Option Bool
  | down, [] => some down
  | down, .press k' :: es =>
    if k' = k then (if down then none else track k true es) else track k down es
  | down, .release k' :: es =>
    if k' = k then (if down then track k false es else none) else track k down es

/-- A stream is followed piece by piece. -/
theorem track_append (k : κ) (down : Bool) (es es' : List (Edge κ)) :
    track k down (es ++ es') = (track k down es).bind fun down' => track k down' es' := by
  induction es generalizing down with
  | nil => rfl
  | cons e es ih =>
    rcases e with k' | k'
    · simp only [List.cons_append, track]
      split_ifs with hk hdown
      · rfl
      · exact ih true
      · exact ih down
    · simp only [List.cons_append, track]
      split_ifs with hk hdown
      · exact ih false
      · rfl
      · exact ih down

/-- Releases of a list of keys take a key that is listed once from down to up, and
go wrong at one that is listed twice. -/
theorem track_releases (k : κ) (ks : List κ) (down : Bool) :
    track k down (ks.map Edge.release) =
      match ks.count k, down with
      | 0, _ => some down
      | 1, true => some false
      | _, _ => none := by
  induction ks generalizing down with
  | nil => rfl
  | cons k' ks ih =>
    rw [List.map_cons, track, List.count_cons]
    by_cases hk : k' = k
    · subst hk
      rw [if_pos rfl]
      cases down
      · cases ks.count k' <;> simp
      · rw [if_pos rfl, ih]
        rcases ks.count k' with _ | _ | n
        · simp
        · simp
        · simp
    · have hbeq : (k' == k) = false := beq_eq_false_iff_ne.mpr hk
      rw [if_neg hk, hbeq, ih]
      simp

/-- Releases of different keys take a key among them from down to up. -/
theorem track_releases_of_nodup {k : κ} {ks : List κ} (hnodup : ks.Nodup) {down after : Bool}
    (hdown : k ∈ ks → down = true) (hafter : after = true ↔ down = true ∧ k ∉ ks) :
    track k down (ks.map Edge.release) = some after := by
  rw [track_releases]
  by_cases hk : k ∈ ks
  · have hfalse : after = false := Bool.eq_false_iff.mpr fun h => (hafter.mp h).2 hk
    rw [List.count_eq_one_of_mem hnodup hk, hdown hk, hfalse]
    rfl
  · have heq : after = down := Bool.eq_iff_iff.mpr (hafter.trans (and_iff_left hk))
    rw [List.count_eq_zero.mpr hk, heq]
    rfl

/-- The presses of the keys of a list that are not down already, each the first time
it occurs, with the keys that are down in the end. -/
def presses : List κ → List κ → List κ × List (Edge κ)
  | old, [] => (old, [])
  | old, k :: ks =>
    if old.contains k then presses old ks
    else
      let (old', es) := presses (old ++ [k]) ks
      (old', .press k :: es)

theorem track_presses (k : κ) (old ks : List κ) :
    track k (decide (k ∈ old)) (presses old ks).2 = some (decide (k ∈ old ∨ k ∈ ks)) := by
  induction ks generalizing old with
  | nil => simp [presses, track]
  | cons k' ks ih =>
    rw [presses]
    by_cases hold : k' ∈ old
    · -- an old press
      rw [if_pos (List.contains_iff_mem.mpr hold), ih old]
      by_cases hk : k = k'
      · subst hk
        simp [hold]
      · simp [hk]
    · rw [if_neg (by simpa using hold)]
      have hrest := ih (old ++ [k'])
      by_cases hk : k' = k
      · -- the press of the key itself, which is up
        subst hk
        have hin : k' ∈ old ++ [k'] := by simp
        rw [decide_eq_true hin, decide_eq_true (Or.inl hin)] at hrest
        simp [track, hold, hrest]
      · have hsame : k ∈ old ++ [k'] ↔ k ∈ old := by
          simp [Ne.symm hk]
        simp only [hsame] at hrest
        simp [track, hk, hrest, Ne.symm hk]

/-- Keys that are not in the list are not pressed. -/
theorem track_presses_of_notMem {k : κ} {ks : List κ} (h : k ∉ ks) (old : List κ) (down : Bool) :
    track k down (presses old ks).2 = some down := by
  induction ks generalizing old with
  | nil => rfl
  | cons k' ks ih =>
    have hne : k' ≠ k := fun heq => h (heq ▸ List.mem_cons_self)
    have hks : k ∉ ks := fun hmem => h (List.mem_cons_of_mem _ hmem)
    rw [presses]
    split_ifs
    · exact ih hks old
    · simp [track, hne, ih hks]

/-- Sending the difference of two lists: `gone` are the keys of the old list that the
new one has not, in any order. A key of the old list comes out right unless it is
listed twice and gone. -/
theorem track_difference (k : κ) (old new gone : List κ)
    (hgone : gone.Perm (old.filter fun k' => !new.contains k')) :
    track k (decide (k ∈ old)) (gone.map Edge.release ++ (presses old new).2) =
      if 2 ≤ old.count k ∧ k ∉ new then none else some (decide (k ∈ new)) := by
  rw [track_append, track_releases, hgone.count_eq]
  by_cases hnew : k ∈ new
  · -- the key stays or comes: it is not released
    have hcount : (old.filter fun k' => !new.contains k').count k = 0 :=
      List.count_eq_zero.mpr fun hmem => by simp [hnew] at hmem
    rw [hcount, if_neg fun h => h.2 hnew]
    simp [track_presses, hnew]
  · have hcount : (old.filter fun k' => !new.contains k').count k = old.count k :=
      List.count_filter (by simpa using hnew)
    rw [hcount]
    rcases hold : old.count k with _ | _ | n
    · -- the key was up and stays up
      have hmem : k ∉ old := List.count_eq_zero.mp hold
      simp [hmem, hnew, track_presses_of_notMem hnew]
    · -- one release, and no press since the list of the old keys still has it
      have hmem : k ∈ old := List.count_pos_iff.mp (by omega)
      simp [hmem, hnew, track_presses_of_notMem hnew]
    · have hmem : k ∈ old := List.count_pos_iff.mp (by omega)
      simp [hmem, hnew]

/-! ## Streams that need not be well formed -/

/-- Whether the key `k` is down after the edges: the last one of `k` says so. -/
def downAfter (k : κ) : Bool → List (Edge κ) → Bool
  | down, [] => down
  | down, .press k' :: es => downAfter k (if k' = k then true else down) es
  | down, .release k' :: es => downAfter k (if k' = k then false else down) es

theorem downAfter_append (k : κ) (down : Bool) (es es' : List (Edge κ)) :
    downAfter k down (es ++ es') = downAfter k (downAfter k down es) es' := by
  induction es generalizing down with
  | nil => rfl
  | cons e es ih =>
    rcases e with k' | k'
    · exact ih _
    · exact ih _

theorem downAfter_mono (k : κ) {down held : Bool} (hdown : down = true → held = true) :
    ∀ es : List (Edge κ), downAfter k down es = true → downAfter k held es = true := by
  intro es
  induction es generalizing down held with
  | nil => exact hdown
  | cons e es ih =>
    rcases e with k' | k'
    · refine ih fun h => ?_
      split_ifs at h ⊢
      · rfl
      · exact hdown h
    · refine ih fun h => ?_
      split_ifs at h ⊢
      exact hdown h

/-- A stream that alternates says where it ends. -/
theorem downAfter_of_track {k : κ} {down after : Bool} {es : List (Edge κ)}
    (h : track k down es = some after) : downAfter k down es = after := by
  induction es generalizing down with
  | nil => exact Option.some.inj h
  | cons e es ih =>
    rcases e with k' | k'
    · simp only [track] at h
      split_ifs at h with hk hdown
      · simpa only [downAfter, if_pos hk] using ih h
      · simpa only [downAfter, if_neg hk] using ih h
    · simp only [track] at h
      split_ifs at h with hk hdown
      · simpa only [downAfter, if_pos hk] using ih h
      · simpa only [downAfter, if_neg hk] using ih h

theorem downAfter_releases (k : κ) (ks : List κ) (down : Bool) :
    downAfter k down (ks.map Edge.release) = (down && !ks.contains k) := by
  induction ks generalizing down with
  | nil => simp [downAfter]
  | cons k' ks ih =>
    rw [List.map_cons, downAfter, ih]
    by_cases hk : k' = k
    · simp [hk]
    · simp [hk, Ne.symm hk]

/-- The key `k` is only pressed when it is up. -/
def FreshPresses (k : κ) : Bool → List (Edge κ) → Prop
  | _, [] => True
  | down, .press k' :: es =>
    (k' = k → down = false) ∧ FreshPresses k (if k' = k then true else down) es
  | down, .release k' :: es => FreshPresses k (if k' = k then false else down) es

theorem freshPresses_append (k : κ) (down : Bool) (es es' : List (Edge κ)) :
    FreshPresses k down (es ++ es') ↔
      FreshPresses k down es ∧ FreshPresses k (downAfter k down es) es' := by
  induction es generalizing down with
  | nil => simp [FreshPresses, downAfter]
  | cons e es ih =>
    rcases e with k' | k'
    · rw [List.cons_append, FreshPresses, FreshPresses, ih, and_assoc]
      rfl
    · rw [List.cons_append, FreshPresses, FreshPresses, ih]
      rfl

theorem freshPresses_releases (k : κ) (ks : List κ) (down : Bool) :
    FreshPresses k down (ks.map Edge.release) := by
  induction ks generalizing down with
  | nil => trivial
  | cons k' ks ih => exact ih _

/-- A stream that alternates presses only what is up. -/
theorem freshPresses_of_track {k : κ} {down after : Bool} {es : List (Edge κ)}
    (h : track k down es = some after) : FreshPresses k down es := by
  induction es generalizing down with
  | nil => trivial
  | cons e es ih =>
    rcases e with k' | k'
    · simp only [track] at h
      split_ifs at h with hk hdown
      · refine ⟨fun _ => Bool.eq_false_iff.mpr hdown, ?_⟩
        simpa only [if_pos hk] using ih h
      · refine ⟨fun heq => absurd heq hk, ?_⟩
        simpa only [if_neg hk] using ih h
    · simp only [track] at h
      split_ifs at h with hk hdown
      · simpa only [FreshPresses, if_pos hk] using ih h
      · simpa only [FreshPresses, if_neg hk] using ih h

/-- After the releases of what is gone, the presses of the new keys alternate. -/
theorem track_presses_of_releases (k : κ) (old new gone : List κ)
    (hgone : gone.Perm (old.filter fun k' => !new.contains k')) :
    track k (downAfter k (decide (k ∈ old)) (gone.map Edge.release)) (presses old new).2 =
      some (decide (k ∈ new)) := by
  have hmem : gone.contains k = (decide (k ∈ old) && !decide (k ∈ new)) := by
    rw [Bool.eq_iff_iff, List.contains_iff_mem, hgone.mem_iff, List.mem_filter]
    simp
  rw [downAfter_releases, hmem]
  by_cases hnew : k ∈ new
  · simpa [hnew] using track_presses k old new
  · simpa [hnew] using track_presses_of_notMem hnew old false

/-- The difference of two lists leaves the keys of the new one down. -/
theorem downAfter_difference (k : κ) (old new gone : List κ)
    (hgone : gone.Perm (old.filter fun k' => !new.contains k')) :
    downAfter k (decide (k ∈ old)) (gone.map Edge.release ++ (presses old new).2) =
      decide (k ∈ new) := by
  rw [downAfter_append]
  exact downAfter_of_track (track_presses_of_releases k old new gone hgone)

/-- The difference of two lists presses only what is up. -/
theorem freshPresses_difference (k : κ) (old new gone : List κ)
    (hgone : gone.Perm (old.filter fun k' => !new.contains k')) :
    FreshPresses k (decide (k ∈ old)) (gone.map Edge.release ++ (presses old new).2) := by
  rw [freshPresses_append]
  refine ⟨freshPresses_releases k gone _, ?_⟩
  exact freshPresses_of_track (track_presses_of_releases k old new gone hgone)

/-! ## The edges of some keys -/

/-- The key of an edge. -/
def Edge.key : Edge κ → κ
  | .press k => k
  | .release k => k

section Filter

variable {p : κ → Bool} {k : κ}

theorem track_filter (hp : p k = true) (down : Bool) (es : List (Edge κ)) :
    track k down (es.filter fun e => p e.key) = track k down es := by
  induction es generalizing down with
  | nil => rfl
  | cons e es ih =>
    rw [List.filter_cons]
    split
    · rcases e with k' | k' <;> simp only [track, ih]
    · next hdrop =>
      have hne : e.key ≠ k := fun heq => hdrop (heq ▸ hp)
      rcases e with k' | k'
      · simp only [track, show k' ≠ k from hne, if_false, ih]
      · simp only [track, show k' ≠ k from hne, if_false, ih]

/-- Nothing happens to a key whose edges are dropped. -/
theorem track_filter_of_dropped (hp : p k = false) (down : Bool) (es : List (Edge κ)) :
    track k down (es.filter fun e => p e.key) = some down := by
  induction es with
  | nil => rfl
  | cons e es ih =>
    rw [List.filter_cons]
    split
    · next hkept =>
      have hne : e.key ≠ k := by
        rintro rfl
        rw [hp] at hkept
        cases hkept
      rcases e with k' | k'
      · simp only [track, show k' ≠ k from hne, if_false, ih]
      · simp only [track, show k' ≠ k from hne, if_false, ih]
    · exact ih

theorem downAfter_filter (hp : p k = true) (down : Bool) (es : List (Edge κ)) :
    downAfter k down (es.filter fun e => p e.key) = downAfter k down es := by
  induction es generalizing down with
  | nil => rfl
  | cons e es ih =>
    rw [List.filter_cons]
    split
    · rcases e with k' | k' <;> simp only [downAfter, ih]
    · next hdrop =>
      have hne : e.key ≠ k := fun heq => hdrop (heq ▸ hp)
      rcases e with k' | k'
      · simp only [downAfter, show k' ≠ k from hne, if_false, ih]
      · simp only [downAfter, show k' ≠ k from hne, if_false, ih]

theorem freshPresses_filter (hp : p k = true) {down : Bool} {es : List (Edge κ)}
    (h : FreshPresses k down es) : FreshPresses k down (es.filter fun e => p e.key) := by
  induction es generalizing down with
  | nil => trivial
  | cons e es ih =>
    rw [List.filter_cons]
    split
    · rcases e with k' | k'
      · exact ⟨h.1, ih h.2⟩
      · exact ih (show FreshPresses k (if k' = k then false else down) es from h)
    · next hdrop =>
      have hne : e.key ≠ k := fun heq => hdrop (heq ▸ hp)
      rcases e with k' | k'
      · exact ih (by simpa only [show k' ≠ k from hne, if_false] using h.2)
      · exact ih (by simpa only [FreshPresses, show k' ≠ k from hne, if_false] using h)

end Filter

/-- Wherever the keys that are down are held before the edges, they are after them. -/
def HoldsWithin (held : κ → Bool) (es : List (Edge κ)) : Prop :=
  ∀ k down, (down = true → held k = true) → downAfter k down es = true → held k = true

namespace HoldsWithin

variable {held : κ → Bool} {es es' : List (Edge κ)}

theorem nil : HoldsWithin held [] := fun _ _ hdown h => hdown h

theorem append (h : HoldsWithin held es) (h' : HoldsWithin held es') :
    HoldsWithin held (es ++ es') := by
  intro k down hdown hafter
  rw [downAfter_append] at hafter
  exact h' k _ (h k down hdown) hafter

theorem press {k : κ} (hk : held k = true) : HoldsWithin held [.press k] := by
  intro k' down hdown hafter
  by_cases heq : k = k'
  · exact heq ▸ hk
  · exact hdown (by simpa [downAfter, heq] using hafter)

theorem release (k : κ) : HoldsWithin held [.release k] := by
  intro k' down hdown hafter
  by_cases heq : k = k'
  · simp [downAfter, heq] at hafter
  · exact hdown (by simpa [downAfter, heq] using hafter)

/-- A key that is pressed for a while and released again need not be held. -/
theorem between (k : κ) (h : HoldsWithin held es) :
    HoldsWithin held (.press k :: (es ++ [.release k])) := by
  intro k' down hdown hafter
  rw [downAfter, downAfter_append] at hafter
  by_cases heq : k = k'
  · simp [downAfter, heq] at hafter
  · simp only [downAfter, heq, if_false] at hafter
    exact h k' down hdown hafter

theorem tap (k : κ) : HoldsWithin held [.press k, .release k] := between k nil

end HoldsWithin

end PressRelease
