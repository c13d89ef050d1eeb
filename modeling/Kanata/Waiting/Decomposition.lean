import Kanata.Layout.Frame
import Kanata.Lib.Greedy
import Mathlib.Data.List.Basic

/-!
# Kanata.Waiting.Decomposition — a chord that is broken up

The pressed keys of a chord group have no action together, so the code looks for the
longest run of them that has one, and goes on behind it. `decompose_greedy` says that
this is the greedy partition of the keys in press order, that every action gets a
coordinate of one of its keys, and when the action queue has room for all of them.
-/

namespace Kanata

open Fallible

variable {T : Type}

namespace WaitingState

variable {w : WaitingState T} {group : ChordsGroup (Action T)} {queued : List Queued}

/-! ## The pressed keys -/

/-- The keys of the presses that take part: those that came in time, up to the first
release of a chord key or press of another key. -/
def partaking (w : WaitingState T) (group : ChordsGroup (Action T)) :
    List Queued → List ChordKeys
  | [] => []
  | s :: queued =>
    if w.isLate s then w.partaking group queued
    else
      match group.getKeys s.event.coord, s.event with
      | some chordKeys, .press _ _ => chordKeys :: w.partaking group queued
      | some _, .release _ _ => []
      | none, .press _ _ => []
      | none, .release _ _ => w.partaking group queued

/-- Of some keys those that were not pressed before. -/
def newKeys (active : ChordKeys) : List ChordKeys → List ChordKeys
  | [] => []
  | keys :: rest =>
    if active ||| keys = active then newKeys active rest
    else keys :: newKeys (active ||| keys) rest

/-- The distinct keys in press order. -/
def pressedKeys (w : WaitingState T) (group : ChordsGroup (Action T)) (queued : List Queued) :
    List ChordKeys :=
  let starting := (group.getKeys w.coord).getD 0
  starting :: newKeys starting (w.partaking group queued)

/-- The order that the fold of the decomposition collects. -/
theorem foldOrder_chordKeyOrder :
    ∀ (queued : List Queued) (acc : ChordOrder),
      (w.foldOrder group queued acc).chordKeyOrder =
        acc.chordKeyOrder ++ newKeys acc.active (w.partaking group queued)
  | [], acc => (List.append_nil _).symm
  | s :: queued, acc => by
    have ih := foldOrder_chordKeyOrder queued
    unfold foldOrder partaking
    by_cases hlate : w.isLate s = true
    · rw [if_pos hlate, if_pos hlate]
      exact ih acc
    · rw [if_neg hlate, if_neg hlate]
      cases hkeys : group.getKeys s.event.coord with
      | none =>
        cases s.event with
        | press i j => exact (List.append_nil _).symm
        | release i j => exact ih acc
      | some chordKeys =>
        cases s.event with
        | release i j => exact (List.append_nil _).symm
        | press i j =>
          simp only
          rw [ih, newKeys]
          by_cases hold : acc.active ||| chordKeys = acc.active
          · rw [if_neg (fun h => h hold), if_pos hold, hold]
          · rw [if_pos hold, if_neg hold, List.append_assoc]
            rfl

theorem newKeys_sublist :
    ∀ (active : ChordKeys) (keys : List ChordKeys), (newKeys active keys).Sublist keys
  | _, [] => List.Sublist.refl _
  | active, k :: keys => by
    unfold newKeys
    split
    · exact (newKeys_sublist active keys).cons k
    · exact (newKeys_sublist (active ||| k) keys).cons_cons k

/-- A key that was not pressed before is not the empty set. -/
theorem ne_zero_of_newKeys :
    ∀ {active : ChordKeys} {keys : List ChordKeys} {k : ChordKeys},
      k ∈ newKeys active keys → k ≠ 0
  | active, [], k, h => by cases h
  | active, k' :: keys, k, h => by
    unfold newKeys at h
    split at h
    · exact ne_zero_of_newKeys h
    · rename_i hnew
      rcases List.mem_cons.mp h with rfl | h
      · rintro rfl
        exact hnew (Nat.or_zero active)
      · exact ne_zero_of_newKeys h

/-- A key that takes part is the key of a queued event. -/
theorem mem_partaking :
    ∀ {queued : List Queued} {k : ChordKeys}, k ∈ w.partaking group queued →
      ∃ q ∈ queued, group.getKeys q.event.coord = some k
  | [], k, h => by cases h
  | s :: queued, k, h => by
    have hrest : k ∈ w.partaking group queued →
        ∃ q ∈ s :: queued, group.getKeys q.event.coord = some k := by
      intro h
      rcases mem_partaking h with ⟨q, hq, hk⟩
      exact ⟨q, List.mem_cons_of_mem _ hq, hk⟩
    unfold partaking at h
    split at h
    · exact hrest h
    · split at h
      · rename_i chordKeys i j hkeys hevent
        rcases List.mem_cons.mp h with rfl | h
        · exact ⟨s, List.mem_cons_self, hkeys⟩
        · exact hrest h
      · cases h
      · cases h
      · exact hrest h

theorem partaking_length_le :
    ∀ queued : List Queued, (w.partaking group queued).length ≤ queued.length
  | [] => Nat.le_refl _
  | s :: queued => by
    have ih := partaking_length_le queued
    unfold partaking
    split
    · exact Nat.le_succ_of_le ih
    · split
      · exact Nat.succ_le_succ ih
      · exact Nat.zero_le _
      · exact Nat.zero_le _
      · exact Nat.le_succ_of_le ih

/-- The array of the source has room for the keys. -/
theorem pressedKeys_length_le (queue : Queue) :
    (w.pressedKeys group queue.items).length ≤ 128 := by
  have hnew := (newKeys_sublist ((group.getKeys w.coord).getD 0)
    (w.partaking group queue.items)).length_le
  have hpart : (w.partaking group queue.items).length ≤ _ := partaking_length_le queue.items
  have hqueue := queue.length_le
  have hsize : queueSize = 32 := rfl
  unfold pressedKeys
  rw [List.length_cons]
  omega

/-! ## The runs of keys -/

/-- The keys of a run together. -/
def runMask (keys : List ChordKeys) : ChordKeys := keys.foldl (· ||| ·) 0

/-- The action of a run of keys. -/
def runAction (group : ChordsGroup (Action T)) (keys : List ChordKeys) : Option (Action T) :=
  group.getChord (runMask keys)

theorem subChordMask_eq (keys : List ChordKeys) (start «end» : Nat) :
    subChordMask keys start «end» = runMask ((keys.drop start).take («end» - start)) := by
  unfold subChordMask runMask
  rw [List.drop_take]

/-- The search from the back finds the longest run. -/
theorem findSubChord_some {keys : List ChordKeys} {start : Nat} :
    ∀ {n e : Nat} {mask : ChordKeys} {action : Action T},
      findSubChord group keys start n = some (e, mask, action) →
        start < e ∧ e ≤ n ∧ mask = runMask ((keys.drop start).take (e - start)) ∧
          group.getChord mask = some action ∧
          ∀ e', e < e' → e' ≤ n → runAction group ((keys.drop start).take (e' - start)) = none
  | 0, _, _, _, h => by cases h
  | n + 1, e, mask, action, h => by
    unfold findSubChord at h
    split at h
    · rename_i hlt
      split at h
      · rename_i found hfound
        simp only [Option.some.injEq, Prod.mk.injEq] at h
        rcases h with ⟨rfl, rfl, rfl⟩
        refine ⟨hlt, Nat.le_refl _, subChordMask_eq keys start (n + 1), hfound, ?_⟩
        intro e' hgt hle
        omega
      · rename_i hnone
        rcases findSubChord_some h with ⟨hstart, hle, hmask, haction, hlongest⟩
        refine ⟨hstart, Nat.le_succ_of_le hle, hmask, haction, ?_⟩
        intro e' hgt hle'
        rcases Nat.lt_or_ge n e' with hlast | hbefore
        · obtain rfl : e' = n + 1 := by omega
          unfold runAction
          rw [← subChordMask_eq]
          exact hnone
        · exact hlongest e' hgt hbefore
    · cases h

theorem findSubChord_none {keys : List ChordKeys} {start : Nat} :
    ∀ {n : Nat}, findSubChord group keys start n = none →
      ∀ e, start < e → e ≤ n → runAction group ((keys.drop start).take (e - start)) = none
  | 0, _, e, hlt, hle => by omega
  | n + 1, h, e, hlt, hle => by
    unfold findSubChord at h
    rw [if_pos (by omega)] at h
    split at h
    · cases h
    · rename_i hnone
      rcases Nat.lt_or_ge n e with hlast | hbefore
      · obtain rfl : e = n + 1 := by omega
        unfold runAction
        rw [← subChordMask_eq]
        exact hnone
      · exact findSubChord_none h e hlt hbefore

/-- What the loop queues for a run. -/
def runQueued (coordFor : ChordKeys → KCoord) (delay : Nat)
    (part : List ChordKeys × Action T) : QueuedAction T :=
  ⟨coordFor (runMask part.1), delay, part.2, []⟩

/-- The loop goes through the greedy partition. Its fuel is enough, since every
iteration goes on at a later key. -/
theorem decomposeLoop_greedy (coordFor : ChordKeys → KCoord) (delay : Nat)
    (keys : List ChordKeys) :
    ∀ {fuel start : Nat}, keys.length - start ≤ fuel →
      ∃ parts, Greedy (runAction group) (keys.drop start) parts ∧
        decomposeLoop group coordFor delay keys fuel start =
          parts.map (runQueued coordFor delay)
  | 0, start, hfuel => by
    refine ⟨[], ?_, rfl⟩
    rw [List.drop_of_length_le (by omega)]
    exact .nil
  | fuel + 1, start, hfuel => by
    unfold decomposeLoop
    by_cases hlt : start < keys.length
    · rw [if_pos hlt]
      have hlen : (keys.drop start).length = keys.length - start := List.length_drop
      split
      · rename_i e mask action hfind
        rcases findSubChord_some hfind with ⟨hstart, hle, rfl, haction, hlongest⟩
        rcases decomposeLoop_greedy coordFor delay keys (show keys.length - e ≤ fuel by omega)
          with ⟨parts, hgreedy, hparts⟩
        have hdrop : (keys.drop start).drop (e - start) = keys.drop e := by
          rw [List.drop_drop]
          congr 1
          omega
        refine ⟨((keys.drop start).take (e - start), action) :: parts, ?_, ?_⟩
        · refine .run (by omega) (by omega) haction ?_ (by rw [hdrop]; exact hgreedy)
          intro m hgt hle'
          have hrun := hlongest (start + m) (by omega) (by omega)
          rw [Nat.add_sub_cancel_left] at hrun
          exact hrun
        · rw [hparts]
          rfl
      · rename_i hfind
        have hnone := findSubChord_none hfind
        rcases decomposeLoop_greedy coordFor delay keys
          (show keys.length - (start + 1) ≤ fuel by omega) with ⟨parts, hgreedy, hparts⟩
        refine ⟨parts, ?_, hparts⟩
        rw [List.drop_eq_getElem_cons hlt] at hnone ⊢
        refine .skip ?_ hgreedy
        intro m hpos hle
        rw [List.length_drop] at hle
        have hrun := hnone (start + m) (by omega) (by omega)
        rw [Nat.add_sub_cancel_left] at hrun
        exact hrun
    · rw [if_neg hlt, List.drop_of_length_le (by omega)]
      exact ⟨[], .nil, rfl⟩

/-! ## The coordinates -/

theorem foldl_or_testBit (i : Nat) :
    ∀ (keys : List ChordKeys) (acc : ChordKeys),
      (keys.foldl (· ||| ·) acc).testBit i = (acc.testBit i || keys.any fun k => k.testBit i)
  | [], acc => (Bool.or_false _).symm
  | k :: keys, acc => by
    rw [List.foldl_cons, foldl_or_testBit i keys, Nat.testBit_or, List.any_cons, Bool.or_assoc]

/-- A key of a run shares a bit with it. -/
theorem runMask_shares {keys : List ChordKeys} {k : ChordKeys} (hmem : k ∈ keys) (hne : k ≠ 0) :
    k &&& runMask keys ≠ 0 := by
  rcases Nat.exists_testBit_of_ne_zero hne with ⟨i, hi⟩
  intro hzero
  have hbit : (k &&& runMask keys).testBit i = true := by
    rw [Nat.testBit_and, hi, runMask, foldl_or_testBit, Nat.zero_testBit, Bool.false_or,
      Bool.true_and]
    exact List.any_eq_true.mpr ⟨k, hmem, hi⟩
  rw [hzero, Nat.zero_testBit] at hbit
  cases hbit

/-- The coordinate belongs to one of these keys. -/
def BelongsTo (group : ChordsGroup (Action T)) (mask : ChordKeys) (coord : KCoord) : Prop :=
  (group.getKeys coord).getD 0 &&& mask ≠ 0

/-- Of the three rules for the coordinate one applies. -/
theorem getCoordForChord_belongs {mask : ChordKeys} (defaultCoord : KCoord)
    (h : BelongsTo group mask w.coord ∨ ∃ q ∈ queued, BelongsTo group mask q.event.coord) :
    BelongsTo group mask (w.getCoordForChord group queued defaultCoord mask) := by
  unfold getCoordForChord
  split
  · rename_i hdefault
    exact Nat.pos_iff_ne_zero.mp hdefault
  · rename_i hdefault
    split
    · rename_i hstart
      exact Nat.pos_iff_ne_zero.mp hstart.2
    · rename_i hstart
      split
      · rename_i q hfind
        have hshares := List.find?_some hfind
        simpa [BelongsTo] using hshares
      · rename_i hfind
        exfalso
        rcases h with hown | ⟨q, hq, hqueued⟩
        · by_cases hsame : w.coord = defaultCoord
          · rw [hsame] at hown
            exact hdefault (Nat.pos_iff_ne_zero.mpr hown)
          · exact hstart ⟨hsame, Nat.pos_iff_ne_zero.mpr hown⟩
        · have hno := List.find?_eq_none.mp hfind q hq
          exact hno (by simpa [BelongsTo] using hqueued)

/-- A pressed key is the starting key or that of a queued event. -/
theorem mem_pressedKeys {k : ChordKeys} (hstart : (group.getKeys w.coord).getD 0 ≠ 0)
    (h : k ∈ w.pressedKeys group queued) :
    k ≠ 0 ∧ ((group.getKeys w.coord).getD 0 = k ∨
      ∃ q ∈ queued, (group.getKeys q.event.coord).getD 0 = k) := by
  unfold pressedKeys at h
  rcases List.mem_cons.mp h with rfl | h
  · exact ⟨hstart, .inl rfl⟩
  · rcases mem_partaking ((newKeys_sublist _ _).subset h) with ⟨q, hq, hkeys⟩
    refine ⟨ne_zero_of_newKeys h, .inr ⟨q, hq, ?_⟩⟩
    rw [hkeys]
    rfl

/-- The actions are those of the greedy partition of the pressed keys, each at a
coordinate of one of its keys. -/
def BrokenUp (w : WaitingState T) (group : ChordsGroup (Action T)) (queued : List Queued)
    (actions : List (QueuedAction T)) : Prop :=
  ∃ parts, Greedy (runAction group) (w.pressedKeys group queued) parts ∧
    List.Forall₂ (fun part qa => qa.action = part.2 ∧ BelongsTo group (runMask part.1) qa.coord)
      parts actions

/-- What the decomposition makes of the keys. -/
theorem decompose_eq (overflowChecks : Bool) (hstart : (group.getKeys w.coord).getD 0 ≠ 0)
    (queued : List Queued) :
    ∃ parts coordFor, Greedy (runAction group) (w.pressedKeys group queued) parts ∧
      (∀ part ∈ parts, BelongsTo group (runMask part.1) (coordFor (runMask part.1))) ∧
      w.decomposeChordIntoActionQueue overflowChecks group queued =
        (addU16 overflowChecks w.delay w.ticks).map fun delay =>
          parts.map (runQueued coordFor delay) := by
  let starting := (group.getKeys w.coord).getD 0
  let order := w.foldOrder group queued ⟨starting, [starting], w.coord⟩
  have horder : order.chordKeyOrder = w.pressedKeys group queued :=
    foldOrder_chordKeyOrder queued _
  let coordFor := w.getCoordForChord group queued order.defaultAssociatedCoord
  have hloop : ∀ delay, ∃ parts, Greedy (runAction group) (w.pressedKeys group queued) parts ∧
      decomposeLoop group coordFor delay (w.pressedKeys group queued)
        (w.pressedKeys group queued).length 0 = parts.map (runQueued coordFor delay) := by
    intro delay
    exact decomposeLoop_greedy coordFor delay (w.pressedKeys group queued)
      (Nat.sub_le (w.pressedKeys group queued).length 0)
  rcases hloop 0 with ⟨parts, hgreedy, _⟩
  refine ⟨parts, coordFor, hgreedy, ?_, ?_⟩
  · intro part hpart
    rcases hgreedy.of_mem hpart with ⟨hne, _, hall⟩
    rcases List.exists_mem_of_ne_nil _ hne with ⟨k, hk⟩
    rcases mem_pressedKeys hstart (hall k hk) with ⟨hkne, hcoord⟩
    have hshares := runMask_shares hk hkne
    refine getCoordForChord_belongs _ ?_
    unfold BelongsTo
    rcases hcoord with hown | ⟨q, hq, hqueued⟩
    · rw [hown]
      exact .inl hshares
    · refine .inr ⟨q, hq, ?_⟩
      rw [hqueued]
      exact hshares
  · unfold decomposeChordIntoActionQueue
    show (addU16 overflowChecks w.delay w.ticks >>= fun delay =>
      pure (decomposeLoop group coordFor delay order.chordKeyOrder order.chordKeyOrder.length 0)) =
        _
    rw [horder]
    cases addU16 overflowChecks w.delay w.ticks with
    | error e => rfl
    | ok delay =>
      rcases hloop delay with ⟨parts', hgreedy', hparts'⟩
      rw [hgreedy'.unique hgreedy] at hparts'
      exact congrArg Except.ok hparts'

end WaitingState

/-! ## The action queue -/

/-- Pushes keep everything exactly if there is room for it. -/
theorem Layout.pushActions_items {s : Layout T} {actions : List (QueuedAction T)} :
    (actions.foldl Layout.pushAction s).actionQueue.items = s.actionQueue.items ++ actions ↔
      s.actionQueue.items.length + actions.length ≤ actionQueueLen := by
  constructor
  · intro h
    have hle := (actions.foldl Layout.pushAction s).actionQueue.length_le
    rw [h, List.length_append] at hle
    exact hle
  · intro h
    induction actions generalizing s with
    | nil => exact (List.append_nil _).symm
    | cons qa actions ih =>
      rw [List.length_cons] at h
      have hpush : (s.pushAction qa).actionQueue.items = s.actionQueue.items ++ [qa] := by
        rw [Layout.pushAction_eq]
        exact (Bounded.pushBack_of_lt (by omega) qa).1
      have hroom : (s.pushAction qa).actionQueue.items.length + actions.length ≤
          actionQueueLen := by
        rw [hpush, List.length_append]
        show s.actionQueue.items.length + 1 + actions.length ≤ actionQueueLen
        omega
      rw [List.foldl_cons, ih hroom, hpush, List.append_assoc]
      rfl

namespace WaitingState

variable {w : WaitingState T} {group : ChordsGroup (Action T)}

/-- The sum of the two counters is computed without a panic. -/
theorem addU16_isOk_iff {overflowChecks : Bool} {a b : Nat} :
    (∃ n, addU16 overflowChecks a b = .ok n) ↔ (overflowChecks = true → a + b ≤ u16Max) := by
  unfold addU16
  by_cases hle : a + b ≤ u16Max
  · rw [if_pos hle]
    exact iff_of_true ⟨_, rfl⟩ fun _ => hle
  · rw [if_neg hle]
    cases overflowChecks with
    | true =>
      refine iff_of_false ?_ fun h => hle (h rfl)
      rintro ⟨n, hn⟩
      cases hn
    | false => exact iff_of_true ⟨_, rfl⟩ fun h => by cases h

/-- For every chord group, every starting key of it and every queue: the decomposition
queues the actions of the greedy partition of the pressed keys, each at a coordinate of
one of its keys, and loses none of them, if and only if the action queue has room for
them and the two counters of the key can be added. -/
theorem decompose_greedy {overflowChecks : Bool} {s : Layout T} {queue : Queue}
    (hstart : (group.getKeys w.coord).getD 0 ≠ 0) :
    ((w.pressedKeys group queue.items).length ≤ 128 ∧
      ∃ actions, w.decomposeChordIntoActionQueue overflowChecks group queue.items = .ok actions ∧
        w.BrokenUp group queue.items actions ∧
        (actions.foldl Layout.pushAction s).actionQueue.items = s.actionQueue.items ++ actions) ↔
      (overflowChecks = true → w.delay + w.ticks ≤ u16Max) ∧
        ∀ parts, Greedy (runAction group) (w.pressedKeys group queue.items) parts →
          s.actionQueue.items.length + parts.length ≤ actionQueueLen := by
  rcases decompose_eq overflowChecks hstart queue.items with
    ⟨parts, coordFor, hgreedy, hbelongs, heq⟩
  rw [← addU16_isOk_iff]
  constructor
  · rintro ⟨_, actions, hactions, _, hkept⟩
    rw [heq] at hactions
    cases hadd : addU16 overflowChecks w.delay w.ticks with
    | error e =>
      rw [hadd] at hactions
      cases hactions
    | ok delay =>
      rw [hadd] at hactions
      obtain rfl := Except.ok.inj hactions
      refine ⟨⟨delay, rfl⟩, ?_⟩
      intro parts' hgreedy'
      have hroom := Layout.pushActions_items.mp hkept
      rw [List.length_map] at hroom
      rw [hgreedy'.unique hgreedy]
      exact hroom
  · rintro ⟨⟨delay, hadd⟩, hroom⟩
    rw [hadd] at heq
    refine ⟨pressedKeys_length_le queue, parts.map (runQueued coordFor delay), heq,
      ⟨parts, hgreedy, ?_⟩, ?_⟩
    · rw [List.forall₂_map_right_iff, List.forall₂_same]
      intro part hpart
      exact ⟨rfl, hbelongs part hpart⟩
    · refine Layout.pushActions_items.mpr ?_
      rw [List.length_map]
      exact hroom parts hgreedy

/-! ## Nine keys -/

/-- Nine keys of which no two are a chord together. -/
def nineKeys : ChordsGroup (Action Unit) where
  coords := (List.range 9).map fun j => ((0, j), 1 <<< j)
  chords := (List.range 9).map fun j => (1 <<< j, .layer j)
  timeout := 100

/-- The first of the keys waits. -/
def firstOfNine : WaitingState Unit :=
  Layout.undecidedWaiting (.chord nineKeys) 100 ⟨.noOp, (0, 0), 1, false, []⟩ 0

/-- The other keys are pressed. -/
def otherEight : Queue := .ofTake _ ((List.range 8).map fun j => .newPress 0 (j + 1))

/-- Two of the other keys are pressed. -/
def otherTwo : Queue := .ofTake _ ((List.range 2).map fun j => .newPress 0 (j + 1))

/-- Three of the keys are broken up, and an empty action queue has room for all of them. -/
theorem decompose_greedy_nine :
    let actions : List (QueuedAction Unit) := (List.range 3).map fun j => ⟨(0, j), 1, .layer j, []⟩
    firstOfNine.BrokenUp nineKeys otherTwo.items actions ∧
      (actions.foldl Layout.pushAction (.new 0)).actionQueue.items = actions := by
  intro actions
  have hkeys : (firstOfNine.pressedKeys nineKeys otherTwo.items).length = 3 := rfl
  have hdecomposed : firstOfNine.decomposeChordIntoActionQueue true nineKeys otherTwo.items =
      .ok actions := rfl
  have hroom : ∀ parts, Greedy (runAction nineKeys)
      (firstOfNine.pressedKeys nineKeys otherTwo.items) parts →
        (Layout.new 0 : Layout Unit).actionQueue.items.length + parts.length ≤ actionQueueLen := by
    intro parts hparts
    have hlength := hparts.length_le
    rw [hkeys] at hlength
    show 0 + parts.length ≤ 8
    omega
  rcases ((decompose_greedy (show (nineKeys.getKeys (0, 0)).getD 0 ≠ 0 by decide)).mpr
    ⟨fun _ => by decide, hroom⟩).2 with ⟨actions', hactions', hbroken, hkept⟩
  obtain rfl : actions = actions' := Except.ok.inj (hdecomposed.symm.trans hactions')
  exact ⟨hbroken, hkept⟩

/-- The keys are no chord together. Nine actions are queued, and the first is lost. -/
theorem decompose_greedy_fails :
    nineKeys.getChord (runMask (firstOfNine.pressedKeys nineKeys otherEight.items)) = none ∧
      ∃ actions, firstOfNine.decomposeChordIntoActionQueue true nineKeys otherEight.items =
          .ok actions ∧
        (actions.foldl Layout.pushAction (.new 0)).actionQueue.items ≠
          (Layout.new 0).actionQueue.items ++ actions := by
  have hactions : firstOfNine.decomposeChordIntoActionQueue true nineKeys otherEight.items =
      .ok ((List.range 9).map fun j => ⟨(0, j), 1, .layer j, []⟩) := rfl
  refine ⟨rfl, _, hactions, ?_⟩
  intro hkept
  have hroom := Layout.pushActions_items.mp hkept
  rw [List.length_map, List.length_range] at hroom
  exact absurd hroom (by decide)

end WaitingState

end Kanata
