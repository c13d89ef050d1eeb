import Kanata.Parser.ChordGroups

/-!
# Kanata.Parser.ChordResolution — which placeholders are resolved

The recursions of `find_chords_coords` and `fill_chords` agree on all the places
they visit. Two places are visited by neither: the timeout action of a hold-tap, and
the actions of the groups. A chord there stays a placeholder, and the theorem of this
file says that these are the only ones.
-/

namespace Kanata.ChordGroups

open Fallible

variable {T : Type} {s : ParserState T} {a b : Action T}

/-! ## What is inside an action -/

theorem every_iff {P : Action T → Prop} :
    a.Every P ↔ P a ∧ ∀ b ∈ a.children, b.Every P := by
  constructor
  · intro h
    exact ⟨h.here, h.inside⟩
  · rintro ⟨here, inside⟩
    exact .intro here inside

def NoChords (a : Action T) : Prop := a.Every fun b => ∀ g, b ≠ .chords g

/-- The group is not a placeholder of `parse_chord`, whose table is empty. -/
def NotPlaceholder (b : Action T) : Prop := ∀ g, b = .chords g → g.chords ≠ []

/-- The timeout action of a hold-tap contains no chord. -/
def TimeoutPlain (b : Action T) : Prop := ∀ ht, b = .holdTap ht → NoChords ht.timeoutAction

/-- The actions of the groups of a chord contain no chord. -/
def GroupPlain (s : ParserState T) (b : Action T) : Prop :=
  ∀ g, b = .chords g → ∀ entry ∈ g.coords, ∀ group, s.chordGroups[entry.1.2]? = some group →
    ∀ chord ∈ group.chords, ∀ x, s.parseAction chord.2 = .ok x → NoChords x

/-- The action has no chord in a place that is not visited. -/
def Resolvable (s : ParserState T) (a : Action T) : Prop :=
  a.Every fun b => TimeoutPlain b ∧ GroupPlain s b

/-- Without chords there is nothing to resolve. -/
theorem NoChords.resolvable (h : NoChords a) : Resolvable s a := by
  refine (Action.Every.nested h).mono ?_
  intro b hb
  refine ⟨?_, fun g hg => absurd hg (hb.here g)⟩
  rintro ht rfl
  exact hb.inside ht.timeoutAction (by simp [Action.children])

/-! ## The groups -/

/-- Every group is at the place of its id, and one with keys has a chord. -/
def WellGrouped (groups : List ChordGroup) : Prop :=
  ∀ (i : Nat) (group : ChordGroup), groups[i]? = some group →
    group.id = i ∧ (group.keys ≠ [] → group.chords ≠ [])

/-- The pairs of a group keep its id and never leave it with keys and no chord. -/
theorem addChords_spec : ∀ {pairs : List SExpr} {group group' : ChordGroup},
    addChords s pairs group = .ok group' → (group.keys ≠ [] → group.chords ≠ []) →
      group'.id = group.id ∧ (group'.keys ≠ [] → group'.chords ≠ [])
  | [], group, group', h, hchords => by
    rw [addChords, pure_eq_ok] at h
    subst h
    exact ⟨rfl, hchords⟩
  | [keysExpr], group, group', h, _ => by
    cases h
  | keysExpr :: action :: rest, group, group', h, _ => by
    rw [addChords] at h
    simp only [bind_eq_ok] at h
    obtain ⟨_, _, _, _, ⟨keys, mask⟩, _, h⟩ := h
    dsimp only at h
    split_ifs at h
    · cases h
    · -- a chord was added
      have hadded : ({ group with keys, chords := group.chords ++ [(mask, action)] } :
          ChordGroup).chords ≠ [] := by simp
      have hspec := addChords_spec h fun _ => hadded
      exact hspec

theorem parseChordGroup_wellGrouped {groups groups' : List ChordGroup} {expr : SExpr}
    {items : List SExpr} (h : parseChordGroup s groups expr items = .ok groups')
    (hgroups : WellGrouped groups) : WellGrouped groups' := by
  unfold parseChordGroup at h
  rw [bind_eq_ok] at h
  obtain ⟨_ | ⟨nameExpr, rest⟩, _, h⟩ := h
  · cases h
  · simp only [bind_eq_ok] at h
    obtain ⟨_, _, name, _, h⟩ := h
    rcases rest with _ | ⟨timeoutExpr, pairs⟩
    · cases h
    · simp only [bind_eq_ok] at h
      obtain ⟨timeout, _, h⟩ := h
      split at h
      · cases h
      · rw [bind_eq_ok] at h
        obtain ⟨group, hgroup, h⟩ := h
        split at h
        · cases h
        · rw [pure_eq_ok] at h
          subst h
          have hspec := addChords_spec hgroup fun hkeys => absurd rfl hkeys
          intro i g hi
          rcases Nat.lt_or_ge i groups.length with hlt | hge
          · rw [List.getElem?_append_left hlt] at hi
            exact hgroups i g hi
          · -- the new group, whose id is the number of groups before it
            rw [List.getElem?_append_right hge] at hi
            rcases hsub : i - groups.length with _ | n
            · rw [hsub] at hi
              obtain rfl := Option.some.inj hi
              have hid : group.id = groups.length := hspec.1
              exact ⟨hid.trans (by omega), hspec.2⟩
            · rw [hsub] at hi
              cases hi

theorem parseChordGroups_wellGrouped {exprs : List (SExpr × List SExpr)}
    {groups : List ChordGroup} (h : parseChordGroups exprs s = .ok groups) :
    WellGrouped groups := by
  have hnone : WellGrouped [] := by
    intro i group hi
    simp at hi
  have hstep : ∀ (expr : SExpr × List SExpr) (_done : List (SExpr × List SExpr))
      (groups groups' : List ChordGroup), WellGrouped groups →
        parseChordGroup s groups expr.1 expr.2 = .ok groups' → WellGrouped groups' :=
    fun _ _ _ _ hgroups h => parseChordGroup_wellGrouped h hgroups
  exact @foldlM_invariant _ _ _ _ (fun _ groups => WellGrouped groups) exprs [] [] groups hnone
    hstep h

/-! ## The actions that are parsed -/

/-- Every chord in the action is one that `parse_chord` returns. -/
def Parsed (s : ParserState T) (a : Action T) : Prop :=
  a.Every fun b => ∀ g, b = .chords g → ∃ acParams, parseChord acParams s = .ok b

/-- The placeholder of a key of a group that has a chord. -/
def Placeholder (groups : List ChordGroup) (g : ChordsGroup (Action T)) : Prop :=
  ∃ (group : ChordGroup) (mask : ChordKeys), groups[group.id]? = some group ∧ group.chords ≠ [] ∧
    g = ⟨[((0, group.id), mask)], [], group.timeout⟩

/-- All chords in the action are placeholders. -/
def Placed (s : ParserState T) (a : Action T) : Prop :=
  a.Every fun b => ∀ g, b = .chords g → Placeholder s.chordGroups g

theorem parseChord_placeholder {acParams : List SExpr} {g : ChordsGroup (Action T)}
    (hgroups : WellGrouped s.chordGroups) (h : parseChord acParams s = .ok (.chords g)) :
    Placeholder s.chordGroups g := by
  unfold parseChord at h
  split at h
  · simp only [bind_eq_ok] at h
    obtain ⟨_, _, name, _, h⟩ := h
    split at h
    · cases h
    · rename_i group hfind
      simp only [bind_eq_ok] at h
      obtain ⟨_, _, key, _, h⟩ := h
      split at h
      · cases h
      · rename_i index hindex
        obtain ⟨i, hi⟩ := List.mem_iff_getElem?.mp (List.mem_of_find?_eq_some hfind)
        obtain ⟨hid, hchords⟩ := hgroups i group hi
        have hkeys : group.keys ≠ [] := by
          rintro hnil
          rw [hnil] at hindex
          cases hindex
        rw [pure_eq_ok] at h
        refine ⟨group, 2 ^ index, by rw [hid, hi], hchords hkeys, ?_⟩
        exact (Action.chords.inj h).symm
  · cases h

theorem Parsed.placed (h : Parsed s a) (hgroups : WellGrouped s.chordGroups) : Placed s a := by
  refine h.mono ?_
  rintro b hb g rfl
  obtain ⟨acParams, hparse⟩ := hb g rfl
  exact parseChord_placeholder hgroups hparse

/-- Among placeholders, to have none is to have no chord. -/
theorem Placed.noChords_iff (h : Placed s a) : a.Every NotPlaceholder ↔ NoChords a := by
  constructor
  · intro hnot
    refine (h.and hnot).mono ?_
    rintro b ⟨hplaced, hb⟩ g rfl
    obtain ⟨group, mask, _, _, rfl⟩ := hplaced g rfl
    exact hb _ rfl rfl
  · intro hno
    refine hno.mono ?_
    intro b hb g hg
    exact absurd hg (hb g)

/-! ## The coordinates that are collected -/

section Find

variable {coord : KCoord} {groups groups' groups'' : List ChordGroup}

/-- The groups only get more coordinates. -/
def Grows (groups groups' : List ChordGroup) : Prop :=
  ∀ (i : Nat) (group : ChordGroup), groups[i]? = some group →
    ∃ group', groups'[i]? = some group' ∧ group'.chords = group.chords ∧
      ∀ c ∈ group.coords, c ∈ group'.coords

theorem Grows.refl (groups : List ChordGroup) : Grows groups groups := by
  intro i group hi
  exact ⟨group, hi, rfl, fun c hc => hc⟩

theorem Grows.trans (h : Grows groups groups') (h' : Grows groups' groups'') :
    Grows groups groups'' := by
  intro i group hi
  obtain ⟨group', hi', hchords, hcoords⟩ := h i group hi
  obtain ⟨group'', hi'', hchords', hcoords'⟩ := h' i group' hi'
  exact ⟨group'', hi'', hchords'.trans hchords, fun c hc => hcoords' c (hcoords c hc)⟩

/-- The coordinate is registered for the keys of an entry. -/
def HasEntry (coord : KCoord) (groups : List ChordGroup) (entry : KCoord × ChordKeys) : Prop :=
  ∃ group : ChordGroup, groups[entry.1.2]? = some group ∧ (coord, entry.2) ∈ group.coords

theorem HasEntry.mono {entry : KCoord × ChordKeys} (h : HasEntry coord groups entry)
    (hgrows : Grows groups groups') : HasEntry coord groups' entry := by
  obtain ⟨group, hi, hmem⟩ := h
  obtain ⟨group', hi', _, hcoords⟩ := hgrows _ _ hi
  exact ⟨group', hi', hcoords _ hmem⟩

/-- The coordinate is registered for all the keys of a chord. -/
def Registered (coord : KCoord) (groups : List ChordGroup) (b : Action T) : Prop :=
  ∀ g, b = .chords g → ∀ entry ∈ g.coords, HasEntry coord groups entry

theorem Registered.mono (h : Registered coord groups b) (hgrows : Grows groups groups') :
    Registered coord groups' b :=
  fun g hg entry hentry => (h g hg entry hentry).mono hgrows

theorem pushCoord_spec {entry : KCoord × ChordKeys}
    (h : pushCoord coord groups entry = .ok groups') :
    Grows groups groups' ∧ HasEntry coord groups' entry := by
  unfold pushCoord at h
  split at h
  · rename_i group hgroup
    rw [pure_eq_ok] at h
    subst h
    have hlt : entry.1.2 < groups.length := (List.getElem?_eq_some_iff.mp hgroup).1
    constructor
    · intro i g hi
      by_cases heq : entry.1.2 = i
      · subst heq
        rw [hgroup] at hi
        obtain rfl := Option.some.inj hi
        refine ⟨_, List.getElem?_set_self hlt, rfl, ?_⟩
        intro c hc
        exact List.mem_append_left _ hc
      · exact ⟨g, by rw [List.getElem?_set_ne heq, hi], rfl, fun c hc => hc⟩
    · exact ⟨_, List.getElem?_set_self hlt, by simp⟩
  · cases h

/-- The spec of `find_chords_coords` at an action: what it visits is registered, and
without chords in the timeouts that is everything. -/
def Finds (coord : KCoord) (a : Action T) : Prop :=
  ∀ {groups groups'}, findChordsCoords coord a groups = .ok groups' →
    Grows groups groups' ∧ (a.Every TimeoutPlain → a.Every (Registered coord groups'))

/-- The actions of a list, one after the other. -/
theorem findInActions_spec : ∀ {actions : List (Action T)} {groups groups' : List ChordGroup},
    (∀ b ∈ actions, Finds coord b) → findInActions coord actions groups = .ok groups' →
      Grows groups groups' ∧
        ∀ b ∈ actions, b.Every TimeoutPlain → b.Every (Registered coord groups')
  | [], groups, groups', _, h => by
    rw [findInActions, pure_eq_ok] at h
    subst h
    exact ⟨.refl _, fun b hb => by cases hb⟩
  | action :: actions, groups, groups', hfinds, h => by
    rw [findInActions, bind_eq_ok] at h
    obtain ⟨groups₁, hfirst, hrest⟩ := h
    obtain ⟨hgrows, hhere⟩ := hfinds action List.mem_cons_self hfirst
    obtain ⟨hgrows', hthere⟩ :=
      findInActions_spec (fun b hb => hfinds b (List.mem_cons_of_mem _ hb)) hrest
    refine ⟨hgrows.trans hgrows', ?_⟩
    intro b hb hplain
    rcases List.mem_cons.mp hb with rfl | hb
    · exact (hhere hplain).mono fun c hc => hc.mono hgrows'
    · exact hthere b hb hplain

theorem findInCases_eq (coord : KCoord) : ∀ (cases : List (SwitchCase (Action T)))
    (groups : List ChordGroup), findInCases coord cases groups =
      findInActions coord (cases.map (·.action)) groups
  | [], _ => rfl
  | ⟨_, action, _⟩ :: cases, groups => by
    rw [findInCases, List.map_cons, findInActions]
    exact bind_congr_ok fun groups₁ _ => findInCases_eq coord cases groups₁

theorem findInActions_singleton (coord : KCoord) (b : Action T) (groups : List ChordGroup) :
    findInActions coord [b] groups = findChordsCoords coord b groups := by
  simp only [findInActions]
  exact bind_pure _

theorem findInActions_pair (coord : KCoord) (b c : Action T) (groups : List ChordGroup) :
    findInActions coord [b, c] groups =
      findChordsCoords coord b groups >>= findChordsCoords coord c := by
  rw [findInActions]
  exact bind_congr_ok fun groups₁ _ => findInActions_singleton coord c groups₁

/-- An action whose recursion goes through all its children in some order. -/
theorem finds_of_children {actions : List (Action T)} (hchords : ∀ g, a ≠ .chords g)
    (hmem : ∀ b ∈ a.children, b ∈ actions) (hfinds : ∀ b ∈ actions, Finds coord b)
    (heq : ∀ groups, findChordsCoords coord a groups = findInActions coord actions groups) :
    Finds coord a := by
  intro groups groups' h
  rw [heq] at h
  obtain ⟨hgrows, hall⟩ := findInActions_spec hfinds h
  refine ⟨hgrows, fun hplain => .intro (fun g hg => absurd hg (hchords g)) ?_⟩
  intro b hb
  exact hall b (hmem b hb) (hplain.inside b hb)

/-- `find_chords_coords` at every parsed action, by induction on the action. -/
theorem finds (coord : KCoord) (h : Placed s a) : Finds coord a := by
  induction h with
  | @intro a here inside ih =>
    cases a with
    | chords g =>
      obtain ⟨group, mask, _, _, rfl⟩ := here g rfl
      intro groups groups' h
      rw [findChordsCoords, List.foldlM_cons, bind_eq_ok] at h
      obtain ⟨groups₁, hpush, h⟩ := h
      rw [List.foldlM_nil, pure_eq_ok] at h
      subst h
      obtain ⟨hgrows, hentry⟩ := pushCoord_spec hpush
      refine ⟨hgrows, fun _ => .leaf ?_ rfl⟩
      rintro g' hg' entry hmem
      obtain rfl := Action.chords.inj hg'
      rw [List.mem_singleton.mp hmem]
      exact hentry
    | holdTap ht =>
      intro groups groups' h
      have hpair : findInActions coord [ht.tap, ht.hold] groups = .ok groups' :=
        (findInActions_pair coord ht.tap ht.hold groups).trans h
      have hfinds : ∀ b ∈ [ht.tap, ht.hold], Finds coord b := by
        intro b hb
        refine ih b ?_
        simp only [List.mem_cons, List.not_mem_nil, or_false] at hb
        rcases hb with rfl | rfl
        · simp [Action.children]
        · simp [Action.children]
      obtain ⟨hgrows, hall⟩ := findInActions_spec hfinds hpair
      refine ⟨hgrows, fun hplain => .intro (by rintro g ⟨⟩) ?_⟩
      intro b hb
      have hb' := hplain.inside b hb
      simp only [Action.children, List.mem_cons, List.not_mem_nil, or_false] at hb
      rcases hb with rfl | rfl | rfl
      · exact hall _ (by simp) hb'
      · exact hall _ (by simp) hb'
      · -- the timeout action is not visited, and has nothing to visit
        have hno : NoChords ht.timeoutAction := hplain.here ht rfl
        exact hno.mono fun c hc g hg => absurd hg (hc g)
    | oneShot os =>
      refine finds_of_children (by simp) (fun b hb => hb) ih fun groups => ?_
      exact (findInActions_singleton coord os.action groups).symm
    | multipleActions actions =>
      exact finds_of_children (by simp) (fun b hb => hb) ih fun groups => rfl
    | tapDance td =>
      exact finds_of_children (by simp) (fun b hb => hb) ih fun groups => rfl
    | fork fcfg =>
      refine finds_of_children (by simp) (fun b hb => hb) ih fun groups => ?_
      exact (findInActions_pair coord fcfg.left fcfg.right groups).symm
    | switch sw =>
      refine finds_of_children (by simp) (fun b hb => hb) ih fun groups => ?_
      exact findInCases_eq coord sw.cases groups
    | _ =>
      refine finds_of_children (by simp) (fun b hb => hb) ih fun groups => ?_
      rfl

end Find

/-! ## The groups that are put in -/

section Fill

variable {chordGroups : List (ChordsGroup (Action T))}

/-- The resolved groups have the parsed actions of the chords. -/
def HaveActions (s : ParserState T) (chordGroups : List (ChordsGroup (Action T))) : Prop :=
  ∀ (i : Nat) (group : ChordGroup), s.chordGroups[i]? = some group →
    ∃ resolved, chordGroups[i]? = some resolved ∧
      List.Forall₂ (fun chord chord' => s.parseAction chord.2 = .ok chord'.2) group.chords
        resolved.chords

/-- The filled action has no placeholder if and only if the action is resolvable. -/
def Filled (s : ParserState T) (a a' : Action T) : Prop :=
  a'.Every NotPlaceholder ↔ Resolvable s a

/-- The spec of `fill_chords` at an action. -/
def Fills (s : ParserState T) (chordGroups : List (ChordsGroup (Action T))) (a : Action T) : Prop :=
  ∀ {new}, fillChords chordGroups a = .ok new → Filled s a (orOld new a)

theorem fillActions_spec : ∀ {actions actions' : List (Action T)} {changed : Bool},
    (∀ b ∈ actions, Fills s chordGroups b) →
      fillActions chordGroups actions = .ok (actions', changed) →
        List.Forall₂ (Filled s) actions actions' ∧ (changed = false → actions' = actions)
  | [], actions', changed, _, h => by
    rw [fillActions, pure_eq_ok] at h
    obtain ⟨rfl, rfl⟩ := Prod.mk.inj h
    exact ⟨.nil, fun _ => rfl⟩
  | action :: actions, actions', changed, hfills, h => by
    rw [fillActions, bind_eq_ok] at h
    obtain ⟨new, hnew, h⟩ := h
    rw [bind_eq_ok] at h
    obtain ⟨⟨rest, changed'⟩, hrest, h⟩ := h
    rw [pure_eq_ok] at h
    obtain ⟨rfl, rfl⟩ := Prod.mk.inj h
    obtain ⟨hall, hsame⟩ :=
      fillActions_spec (fun b hb => hfills b (List.mem_cons_of_mem _ hb)) hrest
    refine ⟨.cons (hfills action List.mem_cons_self hnew) hall, ?_⟩
    intro hfalse
    obtain ⟨hnone, hrestFalse⟩ := Bool.or_eq_false_iff.mp hfalse
    rw [Option.isSome_eq_false_iff, Option.isNone_iff_eq_none] at hnone
    rw [hnone, hsame hrestFalse]
    rfl

theorem fillCases_spec : ∀ {cases cases' : List (SwitchCase (Action T))},
    fillCases chordGroups cases = .ok cases' →
      ∃ changed, fillActions chordGroups (cases.map (·.action)) =
        .ok (cases'.map (·.action), changed)
  | [], cases', h => by
    rw [fillCases, pure_eq_ok] at h
    subst h
    exact ⟨false, rfl⟩
  | ⟨boolExpr, action, breakOrFallthrough⟩ :: cases, cases', h => by
    rw [fillCases, bind_eq_ok] at h
    obtain ⟨new, hnew, h⟩ := h
    rw [bind_eq_ok] at h
    obtain ⟨rest, hrest, h⟩ := h
    rw [pure_eq_ok] at h
    subst h
    obtain ⟨changed, hactions⟩ := fillCases_spec hrest
    refine ⟨new.isSome || changed, ?_⟩
    simp only [List.map_cons, fillActions, hnew, hactions, ok_bind]
    rfl

/-- Related lists satisfy related predicates together. -/
theorem forall_mem_congr {α β : Type} {P : α → Prop} {Q : β → Prop} {xs : List α} {ys : List β}
    (h : List.Forall₂ (fun x y => Q y ↔ P x) xs ys) : (∀ y ∈ ys, Q y) ↔ ∀ x ∈ xs, P x := by
  induction h with
  | nil => simp
  | cons hxy _ ih => rw [List.forall_mem_cons, List.forall_mem_cons, hxy, ih]

/-- An action that is neither a chord nor a hold-tap is filled when its children are. -/
theorem filled_of_children {a' : Action T} (hchords : ∀ g, a ≠ .chords g)
    (hholdTap : ∀ ht, a ≠ .holdTap ht) (hchords' : ∀ g, a' ≠ .chords g)
    (h : List.Forall₂ (Filled s) a.children a'.children) : Filled s a a' := by
  have hhere : NotPlaceholder a' := fun g hg => absurd hg (hchords' g)
  have hplain : TimeoutPlain a ∧ GroupPlain s a :=
    ⟨fun ht hht => absurd hht (hholdTap ht), fun g hg => absurd hg (hchords g)⟩
  unfold Filled Resolvable
  rw [every_iff, every_iff, forall_mem_congr h]
  constructor
  · rintro ⟨_, hinside⟩
    exact ⟨hplain, hinside⟩
  · rintro ⟨_, hinside⟩
    exact ⟨hhere, hinside⟩

/-- A placeholder becomes its group, whose actions are as they were parsed. -/
theorem filled_chords (hgroups : HaveActions s chordGroups)
    (hactions : ∀ e x, s.parseAction e = .ok x → Placed s x) {g : ChordsGroup (Action T)}
    (hg : Placeholder s.chordGroups g) : Fills s chordGroups (.chords g) := by
  obtain ⟨group, mask, hid, hne, rfl⟩ := hg
  intro new h
  obtain ⟨resolved, hresolved, hparsed⟩ := hgroups group.id group hid
  rw [fillChords] at h
  simp only [hresolved, pure_eq_ok] at h
  subst h
  have hplain : (∀ chord' ∈ resolved.chords, chord'.2.Every NotPlaceholder) ↔
      ∀ chord ∈ group.chords, ∀ x, s.parseAction chord.2 = .ok x → NoChords x := by
    refine forall_mem_congr (hparsed.imp ?_)
    intro chord chord' hparse
    rw [(hactions _ _ hparse).noChords_iff, hparse]
    constructor
    · rintro hno x hx
      obtain rfl := Except.ok.inj hx
      exact hno
    · intro hall
      exact hall _ rfl
  have hne' : resolved.chords ≠ [] := by
    rintro hnil
    rw [hnil] at hparsed
    exact hne (List.forall₂_nil_right_iff.mp hparsed)
  constructor
  · intro hevery
    refine .leaf ⟨?_, ?_⟩ rfl
    · rintro ht ⟨⟩
    · rintro g' hg' entry hentry group' hgroup'
      obtain rfl := Action.chords.inj hg'
      rw [List.mem_singleton.mp hentry] at hgroup'
      obtain rfl := Option.some.inj (hid.symm.trans hgroup')
      refine hplain.mp ?_
      intro chord' hmem
      exact hevery.inside chord'.2 (List.mem_map_of_mem hmem)
  · intro hresolvable
    have hall := (hresolvable.here.2 _ rfl ((0, group.id), mask) (List.mem_singleton.mpr rfl)
      group hid)
    refine .intro ?_ ?_
    · rintro g' hg'
      obtain rfl := Action.chords.inj hg'
      exact hne'
    · intro b hb
      obtain ⟨chord', hmem, rfl⟩ := List.mem_map.mp hb
      exact hplain.mpr hall chord' hmem

/-- The hold and the tap of a hold-tap are filled, and its timeout action is left. -/
theorem filled_holdTap {ht : HoldTapAction (Action T)} {hold tap : Action T}
    (hplaced : Placed s ht.timeoutAction) (hhold : Filled s ht.hold hold)
    (htap : Filled s ht.tap tap) : Filled s (.holdTap ht) (.holdTap { ht with hold, tap }) := by
  have hhere : NotPlaceholder (.holdTap { ht with hold, tap } : Action T) := by
    rintro g ⟨⟩
  unfold Filled at hhold htap ⊢
  unfold Resolvable at hhold htap ⊢
  rw [every_iff, every_iff (a := .holdTap ht)]
  simp only [Action.children, List.forall_mem_cons, List.not_mem_nil, false_implies, implies_true,
    and_true]
  rw [hhold, htap, hplaced.noChords_iff]
  constructor
  · rintro ⟨_, hholdOk, htapOk, htimeout⟩
    refine ⟨⟨?_, ?_⟩, hholdOk, htapOk, htimeout.resolvable⟩
    · rintro ht' ⟨⟩
      exact htimeout
    · rintro g ⟨⟩
  · rintro ⟨⟨htimeout, _⟩, hholdOk, htapOk, _⟩
    exact ⟨hhere, hholdOk, htapOk, htimeout ht rfl⟩

/-- `fill_chords` at every parsed action, by induction on the action. -/
theorem fills (hgroups : HaveActions s chordGroups)
    (hactions : ∀ e x, s.parseAction e = .ok x → Placed s x) (h : Placed s a) :
    Fills s chordGroups a := by
  induction h with
  | @intro a here inside ih =>
    cases a with
    | chords g => exact filled_chords hgroups hactions (here g rfl)
    | holdTap ht =>
      intro new h
      have hmem : ht.hold ∈ (Action.holdTap ht).children ∧ ht.tap ∈ (Action.holdTap ht).children ∧
          ht.timeoutAction ∈ (Action.holdTap ht).children := by
        simp [Action.children]
      rw [fillChords] at h
      simp only [bind_eq_ok] at h
      obtain ⟨newTap, htap, newHold, hhold, h⟩ := h
      have hfilled := filled_holdTap (inside _ hmem.2.2) (ih _ hmem.1 hhold) (ih _ hmem.2.1 htap)
      split_ifs at h with hnew
      · rw [pure_eq_ok] at h
        subst h
        exact hfilled
      · -- neither is new, and the action stays
        rw [pure_eq_ok] at h
        subst h
        rw [Bool.or_eq_true, not_or, Option.not_isSome_iff_eq_none,
          Option.not_isSome_iff_eq_none] at hnew
        rw [hnew.1, hnew.2] at hfilled
        exact hfilled
    | oneShot os =>
      intro new h
      rw [fillChords, bind_eq_ok] at h
      obtain ⟨newAction, haction, h⟩ := h
      rw [pure_eq_ok] at h
      subst h
      have hfilled := ih os.action (List.mem_singleton.mpr rfl) haction
      cases newAction with
      | none => exact filled_of_children (by simp) (by simp) (by simp [orOld]) (.cons hfilled .nil)
      | some action =>
        exact filled_of_children (by simp) (by simp) (by simp [orOld]) (.cons hfilled .nil)
    | multipleActions actions =>
      intro new h
      rw [fillChords, bind_eq_ok] at h
      obtain ⟨⟨actions', changed⟩, hfill, h⟩ := h
      rw [pure_eq_ok] at h
      subst h
      obtain ⟨hall, hsame⟩ := fillActions_spec ih hfill
      cases changed with
      | true => exact filled_of_children (by simp) (by simp) (by simp [orOld]) hall
      | false =>
        rw [hsame rfl] at hall
        exact filled_of_children (by simp) (by simp) (by simp [orOld]) hall
    | tapDance td =>
      intro new h
      rw [fillChords, bind_eq_ok] at h
      obtain ⟨⟨actions', changed⟩, hfill, h⟩ := h
      rw [pure_eq_ok] at h
      subst h
      obtain ⟨hall, hsame⟩ := fillActions_spec ih hfill
      cases changed with
      | true => exact filled_of_children (by simp) (by simp) (by simp [orOld]) hall
      | false =>
        rw [hsame rfl] at hall
        exact filled_of_children (by simp) (by simp) (by simp [orOld]) hall
    | fork fcfg =>
      intro new h
      rw [fillChords] at h
      simp only [bind_eq_ok] at h
      obtain ⟨newLeft, hleft, newRight, hright, h⟩ := h
      have hall : List.Forall₂ (Filled s) (Action.fork fcfg).children
          [orOld newLeft fcfg.left, orOld newRight fcfg.right] :=
        .cons (ih _ (by simp [Action.children]) hleft)
          (.cons (ih _ (by simp [Action.children]) hright) .nil)
      split_ifs at h with hnew
      · rw [pure_eq_ok] at h
        subst h
        exact filled_of_children (by simp) (by simp) (by simp [orOld]) hall
      · rw [pure_eq_ok] at h
        subst h
        rw [Bool.or_eq_true, not_or, Option.not_isSome_iff_eq_none,
          Option.not_isSome_iff_eq_none] at hnew
        rw [hnew.1, hnew.2] at hall
        exact filled_of_children (by simp) (by simp) (by simp [orOld]) hall
    | switch sw =>
      intro new h
      rw [fillChords, bind_eq_ok] at h
      obtain ⟨cases', hfill, h⟩ := h
      rw [pure_eq_ok] at h
      subst h
      obtain ⟨changed, hactions'⟩ := fillCases_spec hfill
      exact filled_of_children (by simp) (by simp) (by simp [orOld])
        (fillActions_spec ih hactions').1
    | _ =>
      intro new h
      obtain rfl : none = new := Except.ok.inj h
      exact filled_of_children (by simp) (by simp) (by simp [orOld]) .nil

end Fill

/-! ## The layers -/

section Pointwise

variable {α β : Type} {R : α → β → Prop} {xs : List α} {ys : List β}

theorem forall₂_getElem? (h : List.Forall₂ R xs ys) {i : Nat} {x : α} (hx : xs[i]? = some x) :
    ∃ y, ys[i]? = some y ∧ R x y := by
  induction h generalizing i with
  | nil => simp at hx
  | cons hxy _ ih =>
    cases i with
    | zero =>
      obtain rfl := Option.some.inj hx
      exact ⟨_, rfl, hxy⟩
    | succ i => exact ih hx

theorem forall₂_zipIdx (h : List.Forall₂ R xs ys) (n : Nat) :
    List.Forall₂ (fun p q => p.2 = q.2 ∧ R p.1 q.1) (xs.zipIdx n) (ys.zipIdx n) := by
  induction h generalizing n with
  | nil => exact .nil
  | cons hxy _ ih => exact .cons ⟨rfl, hxy⟩ (ih (n + 1))

theorem forall₂_flatMap {γ δ : Type} {S : γ → δ → Prop} {f : α → List γ} {g : β → List δ}
    (h : List.Forall₂ R xs ys) (hfg : ∀ x y, R x y → List.Forall₂ S (f x) (g y)) :
    List.Forall₂ S (xs.flatMap f) (ys.flatMap g) := by
  induction h with
  | nil => exact .nil
  | cons hxy _ ih =>
    rw [List.flatMap_cons, List.flatMap_cons]
    exact List.rel_append (hfg _ _ hxy) ih

end Pointwise

/-- The filled cells, at the same coordinates. -/
theorem cells_forall₂ {layers layers' : IntermediateLayers T}
    {f : Action T → Parse (Action T)}
    (h : (layers.mapM fun layer => layer.mapM fun row => row.mapM f) = .ok layers') :
    List.Forall₂ (fun x y => y.1 = x.1 ∧ f x.2 = .ok y.2) (cells layers) (cells layers') := by
  refine forall₂_flatMap (mapM_forall₂ h) ?_
  intro layer layer' hlayer
  refine forall₂_flatMap (forall₂_zipIdx (mapM_forall₂ hlayer) 0) ?_
  rintro ⟨row, i⟩ ⟨row', i'⟩ ⟨hi, hrow⟩
  obtain rfl : i = i' := hi
  rw [List.forall₂_map_left_iff, List.forall₂_map_right_iff]
  refine (forall₂_zipIdx (mapM_forall₂ hrow) 0).imp ?_
  rintro ⟨cell, j⟩ ⟨cell', j'⟩ ⟨hj, hcell⟩
  obtain rfl : j = j' := hj
  exact ⟨rfl, hcell⟩

theorem resolveGroup_spec {group : ChordGroup} {resolved : ChordsGroup (Action T)}
    (h : resolveGroup s group = .ok resolved) :
    resolved.coords = group.coords ∧
      List.Forall₂ (fun chord chord' => s.parseAction chord.2 = .ok chord'.2) group.chords
        resolved.chords := by
  unfold resolveGroup at h
  split at h
  · cases h
  · rw [bind_eq_ok] at h
    obtain ⟨chords, hchords, h⟩ := h
    rw [pure_eq_ok] at h
    subst h
    refine ⟨rfl, (mapM_forall₂ hchords).imp ?_⟩
    rintro ⟨mask, action⟩ chord' hchord
    rw [bind_eq_ok] at hchord
    obtain ⟨x, hx, hchord⟩ := hchord
    rw [pure_eq_ok] at hchord
    subst hchord
    exact hx

/-- The spec of the first half: every group has its actions, and the coordinates of
the chords that are visited. -/
theorem resolvedGroups_spec {layers : IntermediateLayers T}
    {groups : List (ChordsGroup (Action T))} (h : resolvedGroups layers s = .ok groups)
    (hplaced : ∀ x ∈ cells layers, Placed s x.2) :
    HaveActions s groups ∧ ∀ x ∈ cells layers, x.2.Every TimeoutPlain →
      x.2.Every fun b => ∀ g, b = .chords g → ∀ entry ∈ g.coords,
        ∃ group, groups[entry.1.2]? = some group ∧ (x.1, entry.2) ∈ group.coords := by
  unfold resolvedGroups at h
  rw [bind_eq_ok] at h
  obtain ⟨found, hfound, h⟩ := h
  have hresolved := mapM_forall₂ h
  -- the groups that are found have the chords of the parsed ones
  have hinv : (∀ x ∈ cells layers, Placed s x.2) → Grows s.chordGroups found ∧
      ∀ x ∈ cells layers, x.2.Every TimeoutPlain → x.2.Every (Registered x.1 found) := by
    have hnone : (∀ x ∈ ([] : List (KCoord × Action T)), Placed s x.2) →
        Grows s.chordGroups s.chordGroups ∧ ∀ x ∈ ([] : List (KCoord × Action T)),
          x.2.Every TimeoutPlain → x.2.Every (Registered x.1 s.chordGroups) :=
      fun _ => ⟨.refl _, fun x hx => by cases hx⟩
    refine foldlM_invariant (fun done found => (∀ x ∈ done, Placed s x.2) →
      Grows s.chordGroups found ∧
        ∀ x ∈ done, x.2.Every TimeoutPlain → x.2.Every (Registered x.1 found)) hnone ?_ hfound
    · intro x done found found' hdone hstep hall
      obtain ⟨hgrows, hregistered⟩ := hdone fun y hy => hall y (List.mem_append_left _ hy)
      obtain ⟨hgrows', hx⟩ := finds x.1 (hall x (by simp)) (liftRust_eq_ok.mp hstep)
      refine ⟨hgrows.trans hgrows', ?_⟩
      intro y hy hplain
      rcases List.mem_append.mp hy with hy | hy
      · exact (hregistered y hy hplain).mono fun b hb => hb.mono hgrows'
      · rw [List.mem_singleton.mp hy] at hplain ⊢
        exact hx hplain
  obtain ⟨hgrows, hregistered⟩ := hinv hplaced
  constructor
  · intro i group hi
    obtain ⟨group', hi', hchords, _⟩ := hgrows i group hi
    obtain ⟨resolved, hget, hgroup⟩ := forall₂_getElem? hresolved hi'
    refine ⟨resolved, hget, ?_⟩
    rw [← hchords]
    exact (resolveGroup_spec hgroup).2
  · intro x hx hplain
    refine (hregistered x hx hplain).mono ?_
    intro b hb g hg entry hentry
    obtain ⟨group', hi', hmem⟩ := hb g hg entry hentry
    obtain ⟨resolved, hget, hgroup⟩ := forall₂_getElem? hresolved hi'
    refine ⟨resolved, hget, ?_⟩
    rw [(resolveGroup_spec hgroup).1]
    exact hmem

/-! ## Resolution -/

/-- The positions that a cell reaches: inside an action, and in the actions of the
groups of its chords. -/
inductive Reaches (s : ParserState T) : Action T → Action T → Prop where
  | refl (a : Action T) : Reaches s a a
  | inside {a b c : Action T} (hb : b ∈ a.children) (hr : Reaches s b c) : Reaches s a c
  | group {g : ChordsGroup (Action T)} {entry : KCoord × ChordKeys} {group : ChordGroup}
      {chord : ChordKeys × SExpr} {b c : Action T} (hentry : entry ∈ g.coords)
      (hgroup : s.chordGroups[entry.1.2]? = some group) (hchord : chord ∈ group.chords)
      (hb : s.parseAction chord.2 = .ok b) (hr : Reaches s b c) : Reaches s (.chords g) c

/-- The chords of the layers are resolved: none of the final layers is a placeholder,
and the coordinate of a cell is registered for every key of a group that it reaches. -/
structure Resolved (s : ParserState T) (layers layers' : IntermediateLayers T)
    (groups : List (ChordsGroup (Action T))) : Prop where
  filled : ∀ x ∈ cells layers', x.2.Every NotPlaceholder
  registered : ∀ x ∈ cells layers, ∀ g, Reaches s x.2 (.chords g) → ∀ entry ∈ g.coords,
    ∃ group, groups[entry.1.2]? = some group ∧ (x.1, entry.2) ∈ group.coords

/-- What holds of the chords inside an action holds of those that it reaches, when
the groups have none. -/
theorem Reaches.chords {P : ChordsGroup (Action T) → Prop} {c : Action T} (h : Reaches s a c)
    (ha : a.Every fun b => (∀ g, b = .chords g → P g) ∧ GroupPlain s b) :
    ∀ g, c = .chords g → P g := by
  induction h with
  | refl a => exact ha.here.1
  | inside hb _ ih => exact ih (ha.inside _ hb)
  | @group g entry group chord b c hentry hgroup hchord hb _ ih =>
    have hno : NoChords b := ha.here.2 g rfl entry hentry group hgroup chord hchord b hb
    refine ih (hno.mono ?_)
    intro d hd
    exact ⟨fun g hg => absurd hg (hd g), fun g hg => absurd hg (hd g)⟩

/-- The chords of the layers are resolved if and only if no cell has a chord in the
timeout action of a hold-tap or in an action of one of its groups. -/
theorem chords_resolved {exprs : List (SExpr × List SExpr)} {layers layers' : IntermediateLayers T}
    (hgroups : parseChordGroups exprs s = .ok s.chordGroups)
    (hcells : ∀ x ∈ cells layers, Parsed s x.2)
    (hactions : ∀ e x, s.parseAction e = .ok x → Parsed s x)
    (h : resolveChordGroups layers s = .ok layers') :
    ∃ groups, resolvedGroups layers s = .ok groups ∧
      (Resolved s layers layers' groups ↔ ∀ x ∈ cells layers, Resolvable s x.2) := by
  have hwell := parseChordGroups_wellGrouped hgroups
  have hplaced : ∀ x ∈ cells layers, Placed s x.2 := fun x hx => (hcells x hx).placed hwell
  unfold resolveChordGroups at h
  rw [bind_eq_ok] at h
  obtain ⟨groups, hresolved, hfill⟩ := h
  refine ⟨groups, hresolved, ?_⟩
  obtain ⟨hhave, hregistered⟩ := resolvedGroups_spec hresolved hplaced
  have hfills : ∀ {a : Action T}, Placed s a → Fills s groups a :=
    fun ha => fills hhave (fun e x hx => (hactions e x hx).placed hwell) ha
  have hfilled : (∀ x ∈ cells layers', x.2.Every NotPlaceholder) ↔
      ∀ x ∈ cells layers, Resolvable s x.2 := by
    have hpairs := List.forall₂_and_left _ _ |>.mpr ⟨hplaced, cells_forall₂ hfill⟩
    refine forall_mem_congr (hpairs.imp ?_)
    rintro x y ⟨hx, _, hcell⟩
    have hcell : fillCell groups x.2 = .ok y.2 := liftRust_eq_ok.mp hcell
    unfold fillCell at hcell
    rw [bind_eq_ok] at hcell
    obtain ⟨new, hnew, hcell⟩ := hcell
    rw [pure_eq_ok] at hcell
    rw [← hcell]
    exact hfills hx hnew
  constructor
  · intro hres
    exact hfilled.mp hres.filled
  · intro hresolvable
    refine ⟨hfilled.mpr hresolvable, ?_⟩
    intro x hx g hreach
    have hplain : x.2.Every TimeoutPlain := (hresolvable x hx).mono fun b hb => hb.1
    refine hreach.chords (P := fun g => ∀ entry ∈ g.coords,
      ∃ group, groups[entry.1.2]? = some group ∧ (x.1, entry.2) ∈ group.coords) ?_ g rfl
    exact ((hregistered x hx hplain).and (hresolvable x hx)).mono fun b hb => ⟨hb.1, hb.2.2⟩

/-! ## A group of one key -/

/-- `(defchords g 100 (x) a)`. -/
def oneKeyGroup : SExpr × List SExpr :=
  (.listNode [] default,
    [.atomNode "defchords" default, .atomNode "g" default, .atomNode "100" default,
      .listNode [.atomNode "x" default] default, .atomNode "a" default])

/-- The parser that knows the group. Every action is `a`. -/
def knowsGroup : ParserState Unit where
  vars := none
  layerIdxs := []
  strToOscode _ := none
  parseAction _ := .ok (.keyCode keyA)
  chordGroups := [⟨0, "g", ["x"], [], [(1, .atomNode "a" default)], 100⟩]

/-- `(chord g x)`. -/
def chordX : Action Unit := .chords ⟨[((0, 0), 1)], [], 100⟩

/-- The group `g` at the first cell. -/
def groupG : ChordsGroup (Action Unit) := ⟨[((0, 0), 1)], [(1, .keyCode keyA)], 100⟩

theorem parsed_chordX : Parsed knowsGroup chordX := by
  refine .leaf ?_ rfl
  intro g _
  exact ⟨[.atomNode "g" default, .atomNode "x" default], rfl⟩

theorem parsed_knowsGroup (e : SExpr) (x : Action Unit) (h : knowsGroup.parseAction e = .ok x) :
    Parsed knowsGroup x := by
  obtain rfl := Except.ok.inj h
  exact .leaf (by rintro g ⟨⟩) rfl

theorem resolvable_chordX : Resolvable knowsGroup chordX := by
  refine .leaf ⟨?_, ?_⟩ rfl
  · rintro ht ⟨⟩
  · rintro g _ entry _ group hgroup chord hchord x hx
    obtain rfl := Except.ok.inj hx
    exact .leaf (by rintro g ⟨⟩) rfl

/-- A cell with a chord is resolved. -/
theorem chords_resolved_one :
    ∃ groups, resolvedGroups [[[chordX]]] knowsGroup = .ok groups ∧
      Resolved knowsGroup [[[chordX]]] [[[.chords groupG]]] groups := by
  have hgroups : parseChordGroups [oneKeyGroup] knowsGroup = .ok knowsGroup.chordGroups := rfl
  have hcell : ∀ x ∈ cells [[[chordX]]], x.2 = chordX := by
    intro x hx
    rw [List.mem_singleton.mp hx]
  rcases chords_resolved hgroups (fun x hx => hcell x hx ▸ parsed_chordX) parsed_knowsGroup rfl with
    ⟨groups, hresolved, hiff⟩
  exact ⟨groups, hresolved, hiff.mpr fun x hx => hcell x hx ▸ resolvable_chordX⟩

/-- `(tap-hold 200 200 a (chord g x))`, whose timeout action is its hold action. -/
def holdChord (hold : Action Unit) : Action Unit :=
  .holdTap
    { timeout := 200, hold, tap := .keyCode keyA, timeoutAction := chordX,
      config := .default, tapHoldInterval := 200, onPressResetTimeoutTo := none,
      requirePriorIdle := none, timeout_le := twoHundred_le_u16Max }

/-- The hold action is resolved, and the timeout action stays a placeholder. -/
theorem chords_resolved_fails :
    parseChordGroups [oneKeyGroup] knowsGroup = .ok knowsGroup.chordGroups ∧
      Parsed knowsGroup (holdChord chordX) ∧
      resolveChordGroups [[[holdChord chordX]]] knowsGroup =
        .ok [[[holdChord (.chords groupG)]]] ∧
      ¬ (holdChord (.chords groupG)).Every NotPlaceholder := by
  refine ⟨rfl, ?_, rfl, ?_⟩
  · refine .intro (by rintro g ⟨⟩) ?_
    intro b hb
    simp only [holdChord, Action.children, List.mem_cons, List.not_mem_nil, or_false] at hb
    rcases hb with rfl | rfl | rfl
    · exact parsed_chordX
    · exact .leaf (by rintro g ⟨⟩) rfl
    · exact parsed_chordX
  · intro hevery
    have htimeout : chordX.Every NotPlaceholder :=
      hevery.inside chordX (by simp [holdChord, Action.children])
    exact htimeout.here _ rfl rfl

end Kanata.ChordGroups
