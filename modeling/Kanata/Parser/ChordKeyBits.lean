import Kanata.Parser.ChordResolution

/-!
# Kanata.Parser.ChordKeyBits — the bit of a chord key at run time

`resolve_chord_groups` merges the coordinates of all layers into one list for each
group, in the order in which it walks the layers, and at run time the first entry of
a coordinate counts. So a key of a group is taken for the key of that group that is
bound first at its coordinate.
-/

namespace Kanata.ChordGroups

open Fallible

variable {T : Type} {s : ParserState T} {a b : Action T}

/-! ## Induction over actions -/

theorem sizeOf_child_lt (h : b ∈ a.children) : sizeOf b < sizeOf a := by
  cases a with
  | multipleActions actions =>
    have hlt := List.sizeOf_lt_of_mem (show b ∈ actions from h)
    rw [Action.multipleActions.sizeOf_spec]
    omega
  | holdTap ht =>
    cases ht
    simp only [Action.children, List.mem_cons, List.not_mem_nil, or_false] at h
    simp only [Action.holdTap.sizeOf_spec, HoldTapAction.mk.sizeOf_spec]
    rcases h with rfl | rfl | rfl
    · omega
    · omega
    · omega
  | oneShot os =>
    cases os
    obtain rfl := List.mem_singleton.mp h
    simp only [Action.oneShot.sizeOf_spec, OneShot.mk.sizeOf_spec]
    omega
  | tapDance td =>
    rcases td with ⟨actions, timeout, config⟩
    have hlt := List.sizeOf_lt_of_mem (show b ∈ actions from h)
    simp only [Action.tapDance.sizeOf_spec, TapDance.mk.sizeOf_spec] at hlt ⊢
    omega
  | chords group =>
    cases group
    obtain ⟨chord, hchord, rfl⟩ := List.mem_map.mp h
    have hlt := List.sizeOf_lt_of_mem hchord
    cases chord
    simp only [Action.chords.sizeOf_spec, ChordsGroup.mk.sizeOf_spec, Prod.mk.sizeOf_spec] at hlt ⊢
    omega
  | fork fcfg =>
    cases fcfg
    simp only [Action.children, List.mem_cons, List.not_mem_nil, or_false] at h
    simp only [Action.fork.sizeOf_spec, ForkConfig.mk.sizeOf_spec]
    rcases h with rfl | rfl
    · omega
    · omega
  | switch sw =>
    cases sw
    obtain ⟨case, hcase, rfl⟩ := List.mem_map.mp h
    have hlt := List.sizeOf_lt_of_mem hcase
    cases case
    simp only [Action.switch.sizeOf_spec, SwitchConfig.mk.sizeOf_spec,
      SwitchCase.mk.sizeOf_spec] at hlt ⊢
    omega
  | _ => cases h

/-- What holds of an action when it holds of the actions inside holds of all. -/
theorem childInduction {P : Action T → Prop} (h : ∀ a, (∀ b ∈ a.children, P b) → P a)
    (a : Action T) : P a :=
  h a fun b _ => childInduction h b
termination_by sizeOf a
decreasing_by exact sizeOf_child_lt ‹_›

/-! ## What an action registers -/

mutual

/-- The bits of a group's keys in an action, in the order in which
`find_chords_coords` comes to them. -/
def chordBits (groupId : Nat) : Action T → List ChordKeys
  | .chords ⟨coords, _, _⟩ => (coords.filter fun entry => entry.1.2 == groupId).map (·.2)
  | .holdTap ⟨_, hold, tap, _, _, _, _, _, _⟩ => chordBits groupId tap ++ chordBits groupId hold
  | .oneShot ⟨action, _, _⟩ => chordBits groupId action
  | .multipleActions actions => bitsOfActions groupId actions
  | .tapDance ⟨actions, _, _⟩ => bitsOfActions groupId actions
  | .fork ⟨left, right, _⟩ => chordBits groupId left ++ chordBits groupId right
  | .switch ⟨cases, _⟩ => bitsOfCases groupId cases
  | _ => []

def bitsOfActions (groupId : Nat) : List (Action T) → List ChordKeys
  | [] => []
  | action :: actions => chordBits groupId action ++ bitsOfActions groupId actions

def bitsOfCases (groupId : Nat) : List (SwitchCase (Action T)) → List ChordKeys
  | [] => []
  | ⟨_, action, _⟩ :: cases => chordBits groupId action ++ bitsOfCases groupId cases

end

theorem bitsOfCases_eq (groupId : Nat) : ∀ cases : List (SwitchCase (Action T)),
    bitsOfCases groupId cases = bitsOfActions groupId (cases.map (·.action))
  | [] => rfl
  | ⟨_, action, _⟩ :: cases => by
    rw [bitsOfCases, List.map_cons, bitsOfActions, bitsOfCases_eq groupId cases]

theorem bitsOfActions_pair (groupId : Nat) (a b : Action T) :
    bitsOfActions groupId [a, b] = chordBits groupId a ++ chordBits groupId b := by
  simp only [bitsOfActions, List.append_nil]

section Registers

variable {coord : KCoord} {groupId : Nat} {groups groups' groups'' : List ChordGroup}
  {entries entries' : List (KCoord × ChordKeys)}

/-- The group gets these entries at the end of its coordinates. -/
def Adds (groupId : Nat) (entries : List (KCoord × ChordKeys)) (groups groups' : List ChordGroup) :
    Prop :=
  groups'[groupId]? =
    groups[groupId]?.map fun group => { group with coords := group.coords ++ entries }

theorem Adds.nil (groups : List ChordGroup) : Adds groupId [] groups groups := by
  unfold Adds
  simp only [List.append_nil]
  exact Option.map_id'.symm

theorem Adds.append (h : Adds groupId entries groups groups')
    (h' : Adds groupId entries' groups' groups'') :
    Adds groupId (entries ++ entries') groups groups'' := by
  unfold Adds at h h' ⊢
  rw [h', h, Option.map_map]
  simp only [Function.comp_def, List.append_assoc]

theorem pushCoord_adds (groupId : Nat) {entry : KCoord × ChordKeys}
    (h : pushCoord coord groups entry = .ok groups') :
    Adds groupId (if entry.1.2 = groupId then [(coord, entry.2)] else []) groups groups' := by
  unfold pushCoord at h
  split at h
  · rename_i found hfound
    rw [pure_eq_ok] at h
    subst h
    have hlt : entry.1.2 < groups.length := (List.getElem?_eq_some_iff.mp hfound).1
    by_cases heq : entry.1.2 = groupId
    · subst heq
      unfold Adds
      rw [if_pos rfl, List.getElem?_set_self hlt, hfound]
      rfl
    · rw [if_neg heq]
      unfold Adds
      rw [List.getElem?_set_ne heq]
      exact Adds.nil groups
  · cases h

theorem pushCoords_adds : ∀ {coords : List (KCoord × ChordKeys)} {groups groups' : List ChordGroup},
    coords.foldlM (pushCoord coord) groups = .ok groups' →
      Adds groupId (((coords.filter fun entry => entry.1.2 == groupId).map (·.2)).map (coord, ·))
        groups groups'
  | [], groups, groups', h => by
    rw [List.foldlM_nil, pure_eq_ok] at h
    subst h
    exact .nil _
  | entry :: coords, groups, groups', h => by
    rw [List.foldlM_cons, bind_eq_ok] at h
    obtain ⟨groups₁, hpush, hrest⟩ := h
    have hadds := (pushCoord_adds groupId hpush).append (pushCoords_adds hrest)
    by_cases heq : entry.1.2 = groupId
    · rw [if_pos heq] at hadds
      rw [List.filter_cons_of_pos (by simpa using heq)]
      exact hadds
    · rw [if_neg heq, List.nil_append] at hadds
      rw [List.filter_cons_of_neg (by simpa using heq)]
      exact hadds

/-- The spec of `find_chords_coords`: the coordinate is registered for the bits of the
action. -/
def Registers (coord : KCoord) (groupId : Nat) (a : Action T) : Prop :=
  ∀ {groups groups'}, findChordsCoords coord a groups = .ok groups' →
    Adds groupId ((chordBits groupId a).map (coord, ·)) groups groups'

theorem findInActions_adds : ∀ {actions : List (Action T)} {groups groups' : List ChordGroup},
    (∀ b ∈ actions, Registers coord groupId b) → findInActions coord actions groups = .ok groups' →
      Adds groupId ((bitsOfActions groupId actions).map (coord, ·)) groups groups'
  | [], groups, groups', _, h => by
    rw [findInActions, pure_eq_ok] at h
    subst h
    exact .nil _
  | action :: actions, groups, groups', hall, h => by
    rw [findInActions, bind_eq_ok] at h
    obtain ⟨groups₁, hfirst, hrest⟩ := h
    rw [bitsOfActions, List.map_append]
    refine (hall action List.mem_cons_self hfirst).append ?_
    exact findInActions_adds (fun b hb => hall b (List.mem_cons_of_mem _ hb)) hrest

theorem registers_of_actions (actions : List (Action T))
    (hbits : chordBits groupId a = bitsOfActions groupId actions)
    (hall : ∀ b ∈ actions, Registers coord groupId b)
    (heq : ∀ groups, findChordsCoords coord a groups = findInActions coord actions groups) :
    Registers coord groupId a := by
  intro groups groups' h
  rw [heq] at h
  rw [hbits]
  exact findInActions_adds hall h

theorem registers (coord : KCoord) (groupId : Nat) (a : Action T) : Registers coord groupId a := by
  induction a using childInduction with
  | _ a ih =>
    cases a with
    | chords group =>
      rcases group with ⟨coords, chords, timeout⟩
      intro groups groups' h
      rw [chordBits]
      exact pushCoords_adds h
    | holdTap ht =>
      -- the tap action comes first, and the timeout action is not visited
      refine registers_of_actions [ht.tap, ht.hold] ?_ ?_ ?_
      · exact (bitsOfActions_pair groupId ht.tap ht.hold).symm
      · intro b hb
        refine ih b ?_
        simp only [List.mem_cons, List.not_mem_nil, or_false] at hb
        rcases hb with rfl | rfl
        · simp [Action.children]
        · simp [Action.children]
      · intro groups
        exact (findInActions_pair coord ht.tap ht.hold groups).symm
    | oneShot os =>
      refine registers_of_actions [os.action] ?_ ih fun groups => ?_
      · exact (List.append_nil _).symm
      · exact (findInActions_singleton coord os.action groups).symm
    | multipleActions actions => exact registers_of_actions actions rfl ih fun groups => rfl
    | tapDance td => exact registers_of_actions td.actions rfl ih fun groups => rfl
    | fork fcfg =>
      refine registers_of_actions [fcfg.left, fcfg.right] ?_ ih fun groups => ?_
      · exact (bitsOfActions_pair groupId fcfg.left fcfg.right).symm
      · exact (findInActions_pair coord fcfg.left fcfg.right groups).symm
    | switch sw =>
      refine registers_of_actions (sw.cases.map (·.action)) ?_ ih fun groups => ?_
      · exact bitsOfCases_eq groupId sw.cases
      · exact findInCases_eq coord sw.cases groups
    | _ => exact registers_of_actions [] rfl (fun b hb => by cases hb) fun groups => rfl

/-- The whole walk over the layers. -/
theorem findCells_adds (groupId : Nat) :
    ∀ {xs : List (KCoord × Action T)} {groups groups' : List ChordGroup},
    (xs.foldlM (fun groups cell => (findChordsCoords cell.1 cell.2 groups : Parse _)) groups) =
        .ok groups' →
      Adds groupId (xs.flatMap fun cell => (chordBits groupId cell.2).map (cell.1, ·))
        groups groups'
  | [], groups, groups', h => by
    rw [List.foldlM_nil, pure_eq_ok] at h
    subst h
    exact .nil _
  | cell :: xs, groups, groups', h => by
    rw [List.foldlM_cons, bind_eq_ok] at h
    obtain ⟨groups₁, hcell, hrest⟩ := h
    rw [List.flatMap_cons]
    exact (registers cell.1 groupId cell.2 (liftRust_eq_ok.mp hcell)).append
      (findCells_adds groupId hrest)

end Registers

/-! ## The first entry of a coordinate -/

/-- The cell of a layer at a coordinate. -/
def cellAt (layer : List (List (Action T))) (coord : KCoord) : Option (Action T) :=
  layer[coord.1]?.bind (·[coord.2]?)

/-- The bits of the key of a group that is bound first at a coordinate: the first
layer with a chord of the group there, and the first such chord in its action. -/
def firstBits (layers : IntermediateLayers T) (groupId : Nat) (coord : KCoord) :
    Option ChordKeys :=
  layers.findSome? fun layer => (cellAt layer coord).bind fun cell => (chordBits groupId cell).head?

section Lookup

variable {α β : Type}

theorem findSome?_zipIdx (f : α → Option β) :
    ∀ (xs : List α) (n j : Nat),
      ((xs.zipIdx n).findSome? fun x => if x.2 = n + j then f x.1 else none) = xs[j]?.bind f
  | [], _, _ => rfl
  | x :: xs, n, 0 => by
    rw [List.zipIdx_cons, List.findSome?_cons, Nat.add_zero, if_pos rfl, List.getElem?_cons_zero,
      Option.bind_some]
    cases hfx : f x with
    | some y => rfl
    | none =>
      refine List.findSome?_eq_none_iff.mpr ?_
      intro y hy
      have hle := (List.mem_zipIdx hy).1
      rw [if_neg (by omega)]
  | x :: xs, n, j + 1 => by
    rw [List.zipIdx_cons, List.findSome?_cons, if_neg (by omega), List.getElem?_cons_succ,
      ← findSome?_zipIdx f xs (n + 1) j, Nat.add_right_comm]
    rfl

theorem findSome?_flatMap {γ : Type} (f : α → List β) (g : β → Option γ) :
    ∀ xs : List α, (xs.flatMap f).findSome? g = xs.findSome? fun x => (f x).findSome? g
  | [] => rfl
  | x :: xs => by
    rw [List.flatMap_cons, List.findSome?_append, findSome?_flatMap f g xs, List.findSome?_cons]
    cases (f x).findSome? g with
    | none => rfl
    | some y => rfl

/-- The entries of one cell. -/
theorem find?_entries (bits : List ChordKeys) (c coord : KCoord) :
    ((bits.map fun b => (c, b)).find? fun x => x.1 == coord).map (·.2) =
      if c = coord then bits.head? else none := by
  cases bits with
  | nil =>
    split
    · rfl
    · rfl
  | cons b bits =>
    by_cases hc : c = coord
    · rw [if_pos hc, List.map_cons, List.find?_cons_of_pos (by simpa using hc)]
      rfl
    · rw [if_neg hc, List.find?_eq_none.mpr]
      · rfl
      · intro x hx
        obtain ⟨_, _, rfl⟩ := List.mem_map.mp hx
        simpa using hc

theorem getKeys_cells (layers : IntermediateLayers T) (groupId : Nat) (coord : KCoord) :
    (((cells layers).flatMap fun cell => (chordBits groupId cell.2).map fun b => (cell.1, b)).find?
      fun x => x.1 == coord).map (·.2) = firstBits layers groupId coord := by
  rw [List.find?_flatMap, List.map_findSome?]
  unfold cells firstBits
  rw [findSome?_flatMap]
  congr 1
  funext layer
  -- of the rows of the layer only that of the coordinate counts
  rw [findSome?_flatMap]
  unfold cellAt
  rw [Option.bind_assoc, ← findSome?_zipIdx _ layer 0 coord.1]
  congr 1
  funext x
  rcases x with ⟨row, i⟩
  simp only [List.findSome?_map, Function.comp_def, find?_entries, Nat.zero_add]
  by_cases hi : i = coord.1
  · rw [if_pos hi, ← findSome?_zipIdx _ row 0 coord.2]
    congr 1
    funext y
    simp only [hi, Prod.ext_iff, true_and, Nat.zero_add]
  · rw [if_neg hi]
    refine List.findSome?_eq_none_iff.mpr ?_
    intro y _
    rw [if_neg]
    rintro rfl
    exact hi rfl

end Lookup

/-! ## The groups that are parsed have no coordinates -/

theorem addChords_coords : ∀ {pairs : List SExpr} {group group' : ChordGroup},
    addChords s pairs group = .ok group' → group'.coords = group.coords
  | [], group, group', h => by
    rw [addChords, pure_eq_ok] at h
    rw [h]
  | [keysExpr], group, group', h => by
    cases h
  | keysExpr :: action :: rest, group, group', h => by
    rw [addChords] at h
    simp only [bind_eq_ok] at h
    obtain ⟨_, _, _, _, ⟨keys, mask⟩, _, h⟩ := h
    dsimp only at h
    split_ifs at h
    · cases h
    · have hrest := addChords_coords h
      exact hrest

theorem parseChordGroups_coords {exprs : List (SExpr × List SExpr)} {groups : List ChordGroup}
    (h : parseChordGroups exprs s = .ok groups) : ∀ group ∈ groups, group.coords = [] := by
  have hnone : ∀ group ∈ ([] : List ChordGroup), group.coords = [] := by
    intro group hgroup
    cases hgroup
  refine @foldlM_invariant _ _ _ _ (fun _ groups => ∀ group ∈ groups, group.coords = []) exprs []
    [] groups hnone ?_ h
  intro expr done groups groups' hgroups h
  unfold parseChordGroup at h
  rw [bind_eq_ok] at h
  obtain ⟨_ | ⟨nameExpr, rest⟩, _, h⟩ := h
  · cases h
  · simp only [bind_eq_ok] at h
    obtain ⟨_, _, name, _, h⟩ := h
    rcases rest with _ | ⟨timeoutExpr, pairs⟩
    · cases h
    · simp only [bind_eq_ok] at h
      obtain ⟨timeout, _, h⟩ := h
      split at h
      · cases h
      · rw [bind_eq_ok] at h
        obtain ⟨group, hgroup, h⟩ := h
        split at h
        · cases h
        · rw [pure_eq_ok] at h
          subst h
          intro g hg
          rcases List.mem_append.mp hg with hg | hg
          · exact hgroups g hg
          · rw [List.mem_singleton.mp hg]
            exact addChords_coords hgroup

/-! ## What a key contributes -/

/-- The action that `parse_chord` makes of `(chord g k)`: `k` is the index of the key
in the group. -/
def chordPlaceholder (groupId k timeout : Nat) : Action T :=
  .chords ⟨[((0, groupId), 2 ^ k)], [], timeout⟩

theorem parseChord_eq {groupExpr keyExpr : SExpr} (h : parseChord [groupExpr, keyExpr] s = .ok a) :
    ∃ name key, groupExpr.atom s.vars = .ok (some name) ∧ keyExpr.atom s.vars = .ok (some key) ∧
      ∃ group, s.chordGroups.find? (fun group => group.name == name) = some group ∧
        ∃ k, group.keys.findIdx? (fun e => e == key) = some k ∧
          a = chordPlaceholder group.id k group.timeout := by
  simp only [parseChord, bind_eq_ok, okOrExpr_eq_ok] at h
  obtain ⟨_, hname, name, rfl, h⟩ := h
  split at h
  · cases h
  · rename_i group hgroup
    simp only [bind_eq_ok, okOrExpr_eq_ok] at h
    obtain ⟨_, hkey, key, rfl, h⟩ := h
    split at h
    · cases h
    · rename_i k hk
      rw [pure_eq_ok] at h
      exact ⟨name, key, liftRust_eq_ok.mp hname, liftRust_eq_ok.mp hkey, group, hgroup, k, hk,
        h.symm⟩

/-- At a coordinate the group's decision gets exactly these bits: the first key starts
the active set with them, a further press in time adds them. -/
structure Contributes (group : ChordsGroup (Action T)) (coord : KCoord) (bits : ChordKeys) :
    Prop where
  starts : (group.getKeys coord).getD 0 = bits
  adds : ∀ (w : WaitingState T) (q : Queued) (queued : List Queued) (acc : WaitingState.ChordFold),
    q.event = .press coord.1 coord.2 → w.isLate q = false →
      w.foldChord group (q :: queued) acc = w.foldChord group queued
        { acc with
          active := acc.active ||| bits
          handledPressEvents := acc.handledPressEvents + 1 }

theorem contributes_iff {group : ChordsGroup (Action T)} {coord : KCoord} {bits bits' : ChordKeys}
    (h : group.getKeys coord = some bits') : Contributes group coord bits ↔ bits' = bits := by
  constructor
  · rintro ⟨hstarts, _⟩
    rw [h] at hstarts
    exact hstarts
  · rintro rfl
    refine ⟨by rw [h]; rfl, ?_⟩
    intro w q queued acc hq hlate
    have hcoord : q.event.coord = coord := by
      rw [hq]
      rfl
    rw [WaitingState.foldChord]
    simp only [hlate, Bool.false_eq_true, if_false, hcoord, h]
    rw [hq]

theorem fillCell_placeholder {groups : List (ChordsGroup (Action T))} {groupId k timeout : Nat}
    {cell : Action T} (h : fillCell groups (chordPlaceholder groupId k timeout) = .ok cell) :
    ∃ group, groups[groupId]? = some group ∧ cell = .chords group := by
  unfold fillCell chordPlaceholder at h
  rw [bind_eq_ok] at h
  obtain ⟨new, hnew, h⟩ := h
  rw [pure_eq_ok] at h
  rw [fillChords] at hnew
  split at hnew
  · rename_i group hgroup
    rw [pure_eq_ok] at hnew
    subst hnew
    exact ⟨group, hgroup, h.symm⟩
  · cases hnew

/-- The filled cell stands where the cell stood. -/
theorem fillRow_cell {groups : List (ChordsGroup (Action T))}
    {layer layer' : List (List (Action T))} {coord : KCoord} {cell : Action T}
    (h : (layer.mapM fun row => row.mapM fun cell =>
      (fillCell groups cell : Parse (Action T))) = .ok layer')
    (hcell : cellAt layer coord = some cell) :
    ∃ cell', cellAt layer' coord = some cell' ∧ fillCell groups cell = .ok cell' := by
  obtain ⟨row, hrow, hcell⟩ := Option.bind_eq_some_iff.mp hcell
  obtain ⟨row', hrow', hcells⟩ := forall₂_getElem? (mapM_forall₂ h) hrow
  obtain ⟨cell', hcell', hfill⟩ := forall₂_getElem? (mapM_forall₂ hcells) hcell
  refine ⟨cell', ?_, liftRust_eq_ok.mp hfill⟩
  unfold cellAt
  rw [hrow']
  exact hcell'

/-- For every configuration, every layer and every coordinate whose action there is
`(chord g k)`: pressing it while the group is decided contributes exactly the bit of `k`
if and only if `k` is the key of the group that is bound first at the coordinate. -/
theorem keyBits_exact {exprs : List (SExpr × List SExpr)} {layers layers' : IntermediateLayers T}
    {l groupId k timeout : Nat} {coord : KCoord} {layer : List (List (Action T))}
    (hgroups : parseChordGroups exprs s = .ok s.chordGroups)
    (h : resolveChordGroups layers s = .ok layers') (hlayer : layers[l]? = some layer)
    (hcell : cellAt layer coord = some (chordPlaceholder groupId k timeout)) :
    ∃ layer' group, layers'[l]? = some layer' ∧ cellAt layer' coord = some (.chords group) ∧
      (Contributes group coord (2 ^ k) ↔ firstBits layers groupId coord = some (2 ^ k)) := by
  unfold resolveChordGroups at h
  rw [bind_eq_ok] at h
  obtain ⟨groups, hresolved, hfill⟩ := h
  unfold resolvedGroups at hresolved
  rw [bind_eq_ok] at hresolved
  obtain ⟨found, hfound, hresolved⟩ := hresolved
  obtain ⟨layer', hlayer', hrows⟩ := forall₂_getElem? (mapM_forall₂ hfill) hlayer
  obtain ⟨cell', hcell', hfillCell⟩ := fillRow_cell hrows hcell
  obtain ⟨group, hgroup, rfl⟩ := fillCell_placeholder hfillCell
  -- the group has the coordinates that the walk over the layers found
  obtain ⟨group₁, hgroup₁, hresolve⟩ := forall₂_getElem? (mapM_forall₂ hresolved).flip hgroup
  have hadds := findCells_adds groupId hfound
  unfold Adds at hadds
  rw [hgroup₁] at hadds
  obtain ⟨group₀, hgroup₀, heq⟩ := Option.map_eq_some_iff.mp hadds.symm
  have hnone : group₀.coords = [] :=
    parseChordGroups_coords hgroups group₀ (List.mem_of_getElem? hgroup₀)
  have hcoords : group.coords = (cells layers).flatMap fun cell =>
      (chordBits groupId cell.2).map fun b => (cell.1, b) := by
    rw [(resolveGroup_spec hresolve).1, ← heq, hnone]
    rfl
  have hkeys : group.getKeys coord = firstBits layers groupId coord := by
    unfold ChordsGroup.getKeys
    rw [hcoords, getKeys_cells]
  have hsome : (firstBits layers groupId coord).isSome := by
    refine List.findSome?_isSome_iff.mpr ⟨layer, List.mem_of_getElem? hlayer, ?_⟩
    rw [hcell]
    simp [chordPlaceholder, chordBits]
  obtain ⟨bits, hbits⟩ := Option.isSome_iff_exists.mp hsome
  refine ⟨layer', group, hlayer', hcell', ?_⟩
  rw [contributes_iff (hkeys.trans hbits), hbits, Option.some.injEq]

/-! ## A key of one layer and another of the next -/

/-- `(defchords g 100 (x) a (y) a)`. -/
def twoKeyGroup : SExpr × List SExpr :=
  (.listNode [] default,
    [.atomNode "defchords" default, .atomNode "g" default, .atomNode "100" default,
      .listNode [.atomNode "x" default] default, .atomNode "a" default,
      .listNode [.atomNode "y" default] default, .atomNode "a" default])

/-- The parser that knows the group. Every action is `a`. -/
def knowsTwoKeys : ParserState Unit where
  vars := none
  layerIdxs := []
  strToOscode _ := none
  parseAction _ := .ok (.keyCode keyA)
  chordGroups := [⟨0, "g", ["x", "y"], [],
    [(1, .atomNode "a" default), (2, .atomNode "a" default)], 100⟩]

/-- `(chord g x)` on the first layer and `(chord g y)` on the second, at one key. -/
def twoLayers : IntermediateLayers Unit :=
  [[[chordPlaceholder 0 0 100]], [[chordPlaceholder 0 1 100]]]

/-- The group at run time. -/
def twoKeys : ChordsGroup (Action Unit) :=
  ⟨[((0, 0), 1), ((0, 0), 2)], [(1, .keyCode keyA), (2, .keyCode keyA)], 100⟩

/-- On the first layer the key contributes its own bit. -/
theorem keyBits_exact_first : Contributes twoKeys (0, 0) (2 ^ 0) := by
  have hgroups : parseChordGroups [twoKeyGroup] knowsTwoKeys = .ok knowsTwoKeys.chordGroups := rfl
  have hresolve : resolveChordGroups twoLayers knowsTwoKeys =
      .ok [[[.chords twoKeys]], [[.chords twoKeys]]] := rfl
  have hlayer : twoLayers[0]? = some [[chordPlaceholder 0 0 100]] := rfl
  have hplaced : cellAt [[chordPlaceholder (T := Unit) 0 0 100]] (0, 0) =
      some (chordPlaceholder 0 0 100) := rfl
  rcases keyBits_exact hgroups hresolve hlayer hplaced with ⟨_, _, hlayer', hcell', hiff⟩
  cases hlayer'
  cases hcell'
  exact hiff.mpr rfl

/-- On the second layer the key is taken for `x`, not for `y`. -/
theorem keyBits_exact_fails :
    parseChordGroups [twoKeyGroup] knowsTwoKeys = .ok knowsTwoKeys.chordGroups ∧
      parseChord [.atomNode "g" default, .atomNode "y" default] knowsTwoKeys =
        .ok (chordPlaceholder 0 1 100) ∧
      resolveChordGroups twoLayers knowsTwoKeys =
        .ok [[[.chords twoKeys]], [[.chords twoKeys]]] ∧
      Contributes twoKeys (0, 0) (2 ^ 0) ∧ ¬ Contributes twoKeys (0, 0) (2 ^ 1) := by
  have hkeys : twoKeys.getKeys (0, 0) = some (2 ^ 0) := rfl
  refine ⟨rfl, rfl, rfl, (contributes_iff hkeys).mpr rfl, ?_⟩
  intro h
  cases (contributes_iff hkeys).mp h

end Kanata.ChordGroups
