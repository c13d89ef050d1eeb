import Kanata.Engine.Output
import Kanata.Lib.StableSort
import Mathlib.Data.List.Perm.Basic

/-!
# Kanata.Engine.EventSorting — a batch of input events in order

The processing loop takes all the events that wait in its channel and sorts them,
modifiers first among presses and last among releases, before it handles them.
-/

namespace Kanata

inductive KeyValue where
  | release
  | press
  | repeat
  | tap
  | wakeUp
deriving DecidableEq, Repr

structure KeyEvent where
  code : OsCode
  value : KeyValue
deriving DecidableEq, Repr

namespace KeyEvent

def isMod (ev : KeyEvent) : Bool := OsCode.isModifier ev.code

/-- `matches!(ev.value, KeyValue::Press | KeyValue::Repeat)`. All other values
count as releases. -/
def isPress (ev : KeyEvent) : Bool :=
  match ev.value with
  | .press | .repeat => true
  | .release | .tap | .wakeUp => false

/-- The comparison of `collect_and_sort_events`. -/
def compare (a b : KeyEvent) : Ordering :=
  -- Same modifier status: preserve original order
  if a.isMod = b.isMod then .eq
  -- Different event types (press vs release): preserve original order
  else if a.isPress ≠ b.isPress then .eq
  else if a.isPress then
    -- Press/Repeat: modifiers first
    if a.isMod then .lt else .gt
  else
    -- Release: modifiers last
    if a.isMod then .gt else .lt

def le (a b : KeyEvent) : Bool := (compare a b).isLE

end KeyEvent

/-- `collect_and_sort_events`: the first event and those that wait in the channel.
`sort_by` is a stable merge sort. -/
def collectAndSortEvents (firstEvent : KeyEvent) (waiting : List KeyEvent) : List KeyEvent :=
  if (firstEvent :: waiting).length > 1 then (firstEvent :: waiting).mergeSort KeyEvent.le
  else firstEvent :: waiting

/-- What `slice::sort_by` asks of a comparison, on the elements of a slice: it is
antisymmetric as an order of outcomes and `<`, `=` and `>` are transitive. -/
structure Consistent {α : Type} (cmp : α → α → Ordering) (xs : List α) : Prop where
  swap : ∀ a ∈ xs, ∀ b ∈ xs, cmp b a = (cmp a b).swap
  trans : ∀ a ∈ xs, ∀ b ∈ xs, ∀ c ∈ xs, cmp a b = cmp b c → cmp a c = cmp a b

/-- A kind of event, press or release, with events of modifiers and of other
keys. -/
def Mixes (press : Bool) (xs : List KeyEvent) : Prop :=
  (∃ a ∈ xs, a.isPress = press ∧ a.isMod = true) ∧ ∃ b ∈ xs, b.isPress = press ∧ b.isMod = false

def HasKind (press : Bool) (xs : List KeyEvent) : Prop := ∃ a ∈ xs, a.isPress = press

/-- Some kind of event mixes modifiers with other keys while an event of the other
kind is in the batch. -/
def Entangled (xs : List KeyEvent) : Prop := ∃ press, Mixes press xs ∧ HasKind (!press) xs

/-! ## The comparison -/

theorem KeyEvent.compare_eq_iff (a b : KeyEvent) :
    compare a b = .eq ↔ a.isMod = b.isMod ∨ a.isPress ≠ b.isPress := by
  unfold compare
  cases a.isMod <;> cases b.isMod <;> cases a.isPress <;> cases b.isPress <;> decide

/-- Without entangled kinds, no third event relates two that are told apart. -/
theorem consistent_of_not_entangled {xs : List KeyEvent} (h : ¬ Entangled xs) :
    Consistent KeyEvent.compare xs where
  swap := by
    intro a _ b _
    unfold KeyEvent.compare
    cases a.isMod <;> cases b.isMod <;> cases a.isPress <;> cases b.isPress <;> decide
  trans := by
    intro a ha b hb c hc
    by_cases hbad : a.isPress = c.isPress ∧ a.isMod ≠ c.isMod ∧ b.isPress ≠ a.isPress
    · rcases hbad with ⟨hkind, hmod, hother⟩
      refine absurd ⟨a.isPress, ?_, b, hb, by cases h : a.isPress <;> simp_all⟩ h
      cases hma : a.isMod with
      | true => exact ⟨⟨a, ha, rfl, hma⟩, c, hc, hkind.symm, by simp_all⟩
      | false => exact ⟨⟨c, hc, hkind.symm, by simp_all⟩, a, ha, rfl, hma⟩
    · revert hbad
      unfold KeyEvent.compare
      cases a.isMod <;> cases b.isMod <;> cases c.isMod <;>
        cases a.isPress <;> cases b.isPress <;> cases c.isPress <;> decide

/-- An event of the other kind is equal to both and makes them equal. -/
theorem not_entangled_of_consistent {xs : List KeyEvent}
    (h : Consistent KeyEvent.compare xs) : ¬ Entangled xs := by
  rintro ⟨press, ⟨⟨a, ha, hap, ham⟩, b, hb, hbp, hbm⟩, c, hc, hcp⟩
  have hac : KeyEvent.compare a c = .eq := by
    rw [KeyEvent.compare_eq_iff, hap, hcp]
    exact .inr (Bool.eq_not_self press).mp
  have hcb : KeyEvent.compare c b = .eq := by
    rw [KeyEvent.compare_eq_iff, hcp, hbp]
    exact .inr (Bool.not_eq_self press).mp
  have hab : KeyEvent.compare a b = .eq := (h.trans a ha c hc b hb (hac.trans hcb.symm)).trans hac
  rw [KeyEvent.compare_eq_iff, ham, hbm, hap, hbp] at hab
  rcases hab with hab | hab
  · cases hab
  · exact hab rfl

/-! ## The sorted batch -/

theorem collectAndSortEvents_eq (firstEvent : KeyEvent) (waiting : List KeyEvent) :
    collectAndSortEvents firstEvent waiting = (firstEvent :: waiting).mergeSort KeyEvent.le := by
  unfold collectAndSortEvents
  cases waiting with
  | nil => simp
  | cons ev waiting => simp

/-- The events with their positions in the collected batch, sorted alike. -/
def sortTagged (xs : List KeyEvent) : List (KeyEvent × Nat) :=
  xs.zipIdx.mergeSort fun x y => KeyEvent.le x.1 y.1

theorem sortTagged_fst (xs : List KeyEvent) :
    (sortTagged xs).map Prod.fst = xs.mergeSort KeyEvent.le := by
  unfold sortTagged
  rw [List.map_mergeSort (s := KeyEvent.le) (fun x _ y _ => rfl)]
  rw [List.zipIdx_map_fst]

/-- No event of the other kind lies between the two positions. -/
def Uninterrupted (xs : List KeyEvent) (press : Bool) (i j : Nat) : Prop :=
  ∀ k, min i j < k → k < max i j → ∀ ev, xs[k]? = some ev → ev.isPress = press

/-- What the sorted batch is for. -/
structure SortedWell (firstEvent : KeyEvent) (waiting : List KeyEvent) : Prop where
  perm : (collectAndSortEvents firstEvent waiting).Perm (firstEvent :: waiting)
  /-- The events of one key keep their order. -/
  keyOrder : ∀ code : OsCode,
    (collectAndSortEvents firstEvent waiting).filter (fun ev => ev.code == code) =
      (firstEvent :: waiting).filter fun ev => ev.code == code
  /-- A modifier press precedes a press of another key. -/
  presses : ∀ x ∈ (firstEvent :: waiting).zipIdx, ∀ y ∈ (firstEvent :: waiting).zipIdx,
    x.1.isPress = true → x.1.isMod = true → y.1.isPress = true → y.1.isMod = false →
    Uninterrupted (firstEvent :: waiting) true x.2 y.2 →
    [x, y].Sublist (sortTagged (firstEvent :: waiting))
  /-- A modifier release follows a release of another key. -/
  releases : ∀ x ∈ (firstEvent :: waiting).zipIdx, ∀ y ∈ (firstEvent :: waiting).zipIdx,
    x.1.isPress = false → x.1.isMod = true → y.1.isPress = false → y.1.isMod = false →
    Uninterrupted (firstEvent :: waiting) false x.2 y.2 →
    [y, x].Sublist (sortTagged (firstEvent :: waiting))

open StableSort

/-- A rank that the comparison of a batch goes by. -/
structure SortsBy (rank : KeyEvent → Nat) (xs : List KeyEvent) : Prop where
  ranked : Ranked KeyEvent.le rank xs
  code : ∀ a b : KeyEvent, a.code = b.code → rank a = rank b
  presses : ∀ a ∈ xs, ∀ b ∈ xs, a.isPress = true → a.isMod = true → b.isPress = true →
    b.isMod = false → rank a < rank b
  releases : ∀ a ∈ xs, ∀ b ∈ xs, a.isPress = false → a.isMod = true → b.isPress = false →
    b.isMod = false → rank b < rank a

/-- Presses alone go by modifiers first. -/
theorem sortsBy_of_presses {xs : List KeyEvent} (h : ¬ HasKind false xs) :
    SortsBy (fun ev => if ev.isMod then 0 else 1) xs := by
  have hpress : ∀ a ∈ xs, a.isPress = true := by
    intro a ha
    cases hap : a.isPress with
    | true => rfl
    | false => exact absurd ⟨a, ha, hap⟩ h
  constructor
  · intro a ha b hb
    change KeyEvent.le a b =
      decide ((if a.isMod = true then 0 else 1) ≤ if b.isMod = true then 0 else 1)
    unfold KeyEvent.le KeyEvent.compare
    rcases Bool.eq_false_or_eq_true a.isMod with hma | hma <;>
      rcases Bool.eq_false_or_eq_true b.isMod with hmb | hmb <;>
        simp [hpress a ha, hpress b hb, hma, hmb]
  · intro a b hcode
    unfold KeyEvent.isMod
    rw [hcode]
  · intro a _ b _ _ ham _ hbm
    rw [ham, hbm]
    decide
  · intro a ha b _ hap
    rw [hpress a ha] at hap
    cases hap

/-- Releases alone go by modifiers last. -/
theorem sortsBy_of_releases {xs : List KeyEvent} (h : ¬ HasKind true xs) :
    SortsBy (fun ev => if ev.isMod then 1 else 0) xs := by
  have hpress : ∀ a ∈ xs, a.isPress = false := by
    intro a ha
    cases hap : a.isPress with
    | false => rfl
    | true => exact absurd ⟨a, ha, hap⟩ h
  constructor
  · intro a ha b hb
    change KeyEvent.le a b =
      decide ((if a.isMod = true then 1 else 0) ≤ if b.isMod = true then 1 else 0)
    unfold KeyEvent.le KeyEvent.compare
    rcases Bool.eq_false_or_eq_true a.isMod with hma | hma <;>
      rcases Bool.eq_false_or_eq_true b.isMod with hmb | hmb <;>
        simp [hpress a ha, hpress b hb, hma, hmb]
  · intro a b hcode
    unfold KeyEvent.isMod
    rw [hcode]
  · intro a ha b _ hap
    rw [hpress a ha] at hap
    cases hap
  · intro a _ b _ _ ham _ hbm
    rw [ham, hbm]
    decide

/-- Kinds that do not mix are not told apart. -/
theorem sortsBy_of_pure {xs : List KeyEvent} (h : ∀ press, ¬ Mixes press xs) :
    SortsBy (fun _ => 0) xs := by
  have hpure : ∀ a ∈ xs, ∀ b ∈ xs, a.isPress = b.isPress → a.isMod = b.isMod := by
    intro a ha b hb hkind
    cases ham : a.isMod with
    | true =>
      cases hbm : b.isMod with
      | true => rfl
      | false => exact absurd ⟨⟨a, ha, rfl, ham⟩, b, hb, hkind.symm, hbm⟩ (h a.isPress)
    | false =>
      cases hbm : b.isMod with
      | false => rfl
      | true => exact absurd ⟨⟨b, hb, hkind.symm, hbm⟩, a, ha, rfl, ham⟩ (h a.isPress)
  constructor
  · intro a ha b hb
    have heq : KeyEvent.compare a b = .eq := by
      rw [KeyEvent.compare_eq_iff]
      by_cases hkind : a.isPress = b.isPress
      · exact .inl (hpure a ha b hb hkind)
      · exact .inr hkind
    unfold KeyEvent.le
    rw [heq]
    rfl
  · intro a b _
    rfl
  · intro a ha b hb hap ham hbp hbm
    have := hpure a ha b hb (hap.trans hbp.symm)
    rw [ham, hbm] at this
    cases this
  · intro a ha b hb hap ham hbp hbm
    have := hpure a ha b hb (hap.trans hbp.symm)
    rw [ham, hbm] at this
    cases this

theorem exists_sortsBy {xs : List KeyEvent} (h : ¬ Entangled xs) : ∃ rank, SortsBy rank xs := by
  by_cases hpress : Mixes true xs
  · exact ⟨_, sortsBy_of_presses fun hkind => h ⟨true, hpress, hkind⟩⟩
  · by_cases hrelease : Mixes false xs
    · exact ⟨_, sortsBy_of_releases fun hkind => h ⟨false, hrelease, hkind⟩⟩
    · refine ⟨_, sortsBy_of_pure ?_⟩
      intro press
      cases press with
      | true => exact hpress
      | false => exact hrelease

theorem SortsBy.tagged {rank : KeyEvent → Nat} {xs : List KeyEvent} (h : SortsBy rank xs) :
    Ranked (fun x y : KeyEvent × Nat => KeyEvent.le x.1 y.1) (fun x => rank x.1) xs.zipIdx := by
  intro x hx y hy
  exact h.ranked x.1 (List.fst_mem_of_mem_zipIdx hx) y.1 (List.fst_mem_of_mem_zipIdx hy)

theorem sortedWell_of_sortsBy {rank : KeyEvent → Nat} {firstEvent : KeyEvent}
    {waiting : List KeyEvent} (h : SortsBy rank (firstEvent :: waiting)) :
    SortedWell firstEvent waiting := by
  have hbefore : ∀ x ∈ (firstEvent :: waiting).zipIdx, ∀ y ∈ (firstEvent :: waiting).zipIdx,
      rank x.1 < rank y.1 → [x, y].Sublist (sortTagged (firstEvent :: waiting)) := by
    intro x hx y hy hlt
    exact @pair_sublist_of_lt _ (fun x => rank x.1) _ (pairwise_of_ranked h.tagged) _ _
      ((List.mergeSort_perm _ _).mem_iff.mpr hx) ((List.mergeSort_perm _ _).mem_iff.mpr hy) hlt
  constructor
  · rw [collectAndSortEvents_eq]
    exact List.mergeSort_perm _ _
  · intro code
    rw [collectAndSortEvents_eq]
    refine filter_of_ranked h.ranked ?_
    intro a _ b _ ha hb
    have ha : a.code = code := by simpa using ha
    have hb : b.code = code := by simpa using hb
    exact h.code a b (ha.trans hb.symm)
  · intro x hx y hy hxp hxm hyp hym _
    exact hbefore x hx y hy (h.presses x.1 (List.fst_mem_of_mem_zipIdx hx) y.1
      (List.fst_mem_of_mem_zipIdx hy) hxp hxm hyp hym)
  · intro x hx y hy hxp hxm hyp hym _
    exact hbefore y hy x hx (h.releases x.1 (List.fst_mem_of_mem_zipIdx hx) y.1
      (List.fst_mem_of_mem_zipIdx hy) hxp hxm hyp hym)

/-- For every batch: the comparison is one that `sort_by` accepts and the sorted
batch is in the intended order exactly when no kind of event mixes modifiers with
other keys beside an event of the other kind. -/
theorem batch_sorted_iff (firstEvent : KeyEvent) (waiting : List KeyEvent) :
    Consistent KeyEvent.compare (firstEvent :: waiting) ∧ SortedWell firstEvent waiting ↔
      ¬ Entangled (firstEvent :: waiting) := by
  constructor
  · rintro ⟨hcons, _⟩
    exact not_entangled_of_consistent hcons
  · intro h
    rcases exists_sortsBy h with ⟨rank, hrank⟩
    exact ⟨consistent_of_not_entangled h, sortedWell_of_sortsBy hrank⟩

/-- Equality is not transitive: a press of a modifier and one of another key are
told apart, and both are equal to a release. -/
theorem comparison_inconsistent :
    KeyEvent.compare ⟨keyLeftCtrl, .press⟩ ⟨keyA, .release⟩ = .eq ∧
      KeyEvent.compare ⟨keyA, .release⟩ ⟨keyB, .press⟩ = .eq ∧
      KeyEvent.compare ⟨keyLeftCtrl, .press⟩ ⟨keyB, .press⟩ = .lt ∧
      ¬ Consistent KeyEvent.compare
        [⟨keyB, .press⟩, ⟨keyA, .release⟩, ⟨keyLeftCtrl, .press⟩] := by
  refine ⟨by decide, by decide, by decide, ?_⟩
  intro h
  refine not_entangled_of_consistent h ⟨true, ⟨⟨⟨keyLeftCtrl, .press⟩, ?_⟩,
    ⟨keyB, .press⟩, ?_⟩, ⟨keyA, .release⟩, ?_⟩
  · decide
  · decide
  · decide

end Kanata
