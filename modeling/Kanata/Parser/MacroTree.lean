import Kanata.Parser.Macro

/-!
# Kanata.Parser.MacroTree — the groups of a macro

The parser flattens the items of a macro to events and forgets which modifiers
enclose them. `MacroItem` keeps the groups as the text has them, and `marked` pairs
each event with the modifiers of the groups around it.

`heldAfter` is what an event does to the keys that macros hold: a press adds one, and
a release takes all of its key.
-/

namespace Kanata

variable {T : Type}

/-! ## Items -/

/-- An item of a macro. -/
inductive MacroItem (T : Type) where
  | delay (duration : Nat)
  | key (kc : KeyCode)
  | chord (kcs : List KeyCode)
  | custom (value : T)
  | list (items : List (MacroItem T))
  /-- A list of items under held modifiers. -/
  | group (mods : List KeyCode) (items : List (MacroItem T))

/-- An event, and the modifiers of the groups that enclose it. -/
abbrev Marked (T : Type) := SequenceEvent T × List KeyCode

/-- Presses that the same groups enclose. -/
def pressAll (ctx kcs : List KeyCode) : List (Marked T) := kcs.map fun kc => (.press kc, ctx)

/-- Releases that the same groups enclose. -/
def releaseAll (ctx kcs : List KeyCode) : List (Marked T) := kcs.map fun kc => (.release kc, ctx)

mutual

/-- The events of an item inside these modifiers. -/
def MacroItem.marked (ctx : List KeyCode) : MacroItem T → List (Marked T)
  | .delay duration => [(.delay duration, ctx)]
  | .key kc => [(.press kc, ctx), (.release kc, ctx)]
  | .chord kcs => pressAll ctx kcs ++ releaseAll ctx kcs.reverse
  | .custom value => [(.custom value, ctx)]
  | .list items => markedAll ctx items
  | .group mods items =>
    pressAll ctx mods ++ markedAll (ctx ++ mods) items ++ releaseAll ctx mods

def markedAll (ctx : List KeyCode) : List (MacroItem T) → List (Marked T)
  | [] => []
  | item :: items => item.marked ctx ++ markedAll ctx items

end

/-- The events of the items of a macro. -/
def eventsOf (items : List (MacroItem T)) : List (SequenceEvent T) :=
  (markedAll [] items).map Prod.fst

/-- Their events. -/
@[simp] theorem map_pressAll (ctx kcs : List KeyCode) :
    (pressAll (T := T) ctx kcs).map Prod.fst = kcs.map .press := by
  unfold pressAll
  rw [List.map_map]
  rfl

/-- The events of releases. -/
@[simp] theorem map_releaseAll (ctx kcs : List KeyCode) :
    (releaseAll (T := T) ctx kcs).map Prod.fst = kcs.map .release := by
  unfold releaseAll
  rw [List.map_map]
  rfl

mutual

/-- The groups around an item do not change its events. -/
theorem MacroItem.marked_events (ctx ctx' : List KeyCode) :
    ∀ item : MacroItem T, (item.marked ctx).map Prod.fst = (item.marked ctx').map Prod.fst
  | .delay _ => by simp only [MacroItem.marked, List.map_cons, List.map_nil]
  | .key _ => by simp only [MacroItem.marked, List.map_cons, List.map_nil]
  | .chord _ => by simp only [MacroItem.marked, List.map_append, map_pressAll, map_releaseAll]
  | .custom _ => by simp only [MacroItem.marked, List.map_cons, List.map_nil]
  | .list items => by
    simp only [MacroItem.marked]
    exact markedAll_events ctx ctx' items
  | .group mods items => by
    simp only [MacroItem.marked, List.map_append, map_pressAll, map_releaseAll]
    rw [markedAll_events (ctx ++ mods) (ctx' ++ mods) items]

theorem markedAll_events (ctx ctx' : List KeyCode) :
    ∀ items : List (MacroItem T),
      (markedAll ctx items).map Prod.fst = (markedAll ctx' items).map Prod.fst
  | [] => by simp only [markedAll]
  | item :: items => by
    simp only [markedAll, List.map_append]
    rw [item.marked_events ctx ctx', markedAll_events ctx ctx' items]

end

/-! ## The keys that are held -/

/-- The keys that macros hold after an event. -/
def heldAfter (held : List KeyCode) : SequenceEvent T → List KeyCode
  | .press kc => held ++ [kc]
  | .release kc => held.filter fun kc' => kc' != kc
  | _ => held

/-- The keys held after some events. -/
def heldAfterAll (held : List KeyCode) (xs : List (Marked T)) : List KeyCode :=
  xs.foldl (fun held x => heldAfter held x.1) held

/-- While each event is performed, the modifiers of all groups around it are held. -/
def HeldThroughout : List KeyCode → List (Marked T) → Prop
  | _, [] => True
  | held, x :: xs => x.2 ⊆ heldAfter held x.1 ∧ HeldThroughout (heldAfter held x.1) xs

/-- No event releases a modifier of a group around it. -/
def Undisturbed (xs : List (Marked T)) : Prop := ∀ x ∈ xs, ∀ m ∈ x.2, x.1 ≠ .release m

section Held

variable {ctx held kcs : List KeyCode} {xs ys : List (Marked T)} {x : Marked T}

/-- A release takes its key and no other. -/
theorem mem_heldAfter_release {kc kc' : KeyCode} :
    kc' ∈ heldAfter held (.release (T := T) kc) ↔ kc' ∈ held ∧ kc' ≠ kc := by
  unfold heldAfter
  rw [List.mem_filter, bne_iff_ne]

/-- What is held stays, unless it is what is released. -/
theorem subset_heldAfter (h : ctx ⊆ held) {e : SequenceEvent T}
    (hkeep : ∀ m ∈ ctx, e ≠ .release m) :
    ctx ⊆ heldAfter held e := by
  intro m hm
  cases e with
  | press kc => exact List.mem_append_left _ (h hm)
  | release kc =>
    refine mem_heldAfter_release.mpr ⟨h hm, ?_⟩
    intro heq
    exact hkeep m hm (congrArg _ heq.symm)
  | _ => exact h hm

/-- The keys held after two parts. -/
theorem heldAfterAll_append (held : List KeyCode) (xs ys : List (Marked T)) :
    heldAfterAll held (xs ++ ys) = heldAfterAll (heldAfterAll held xs) ys := List.foldl_append

/-- Held through two parts is held through each. -/
theorem heldThroughout_append :
    ∀ {xs : List (Marked T)} {held : List KeyCode}, HeldThroughout held (xs ++ ys) ↔
      HeldThroughout held xs ∧ HeldThroughout (heldAfterAll held xs) ys
  | [], held => (true_and _).symm.to_iff
  | x :: xs, held => by
    have ih : HeldThroughout (heldAfter held x.1) (xs ++ ys) ↔ _ := heldThroughout_append
    show _ ∧ HeldThroughout _ (xs ++ ys) ↔ (_ ∧ HeldThroughout _ xs) ∧ _
    rw [ih, and_assoc]
    rfl

/-- Two parts, one by one. -/
theorem undisturbed_append : Undisturbed (xs ++ ys) ↔ Undisturbed xs ∧ Undisturbed ys := by
  unfold Undisturbed
  exact List.forall_mem_append

/-- Presses add their keys. -/
theorem heldAfterAll_pressAll (ctx : List KeyCode) :
    ∀ (kcs held : List KeyCode), heldAfterAll held (pressAll (T := T) ctx kcs) = held ++ kcs
  | [], held => (List.append_nil held).symm
  | kc :: kcs, held => by
    show heldAfterAll (held ++ [kc]) (pressAll ctx kcs) = _
    rw [heldAfterAll_pressAll ctx kcs, List.append_assoc]
    rfl

/-- Releases take theirs. -/
theorem mem_heldAfterAll_releaseAll {kc : KeyCode} :
    ∀ {kcs held : List KeyCode},
      kc ∈ heldAfterAll held (releaseAll (T := T) ctx kcs) ↔ kc ∈ held ∧ kc ∉ kcs
  | [], held => by
    show kc ∈ held ↔ _
    simp
  | kc' :: kcs, held => by
    show kc ∈ heldAfterAll (heldAfter held (.release (T := T) kc')) (releaseAll ctx kcs) ↔ _
    rw [mem_heldAfterAll_releaseAll, mem_heldAfter_release, List.mem_cons, not_or, and_assoc]

/-- Undisturbed events inside the same groups. -/
theorem heldThroughout_of_same :
    ∀ {xs : List (Marked T)} {held : List KeyCode}, (∀ x ∈ xs, x.2 = ctx) → ctx ⊆ held →
      Undisturbed xs → HeldThroughout held xs ∧ ctx ⊆ heldAfterAll held xs
  | [], held, _, hheld, _ => ⟨trivial, hheld⟩
  | x :: xs, held, hsame, hheld, hundisturbed => by
    -- the event keeps the modifiers, so the next ones find them held
    have hx : x.2 = ctx := hsame x List.mem_cons_self
    have hkeep : ∀ m ∈ ctx, x.1 ≠ .release m := by
      rw [← hx]
      exact hundisturbed x List.mem_cons_self
    have hafter : ctx ⊆ heldAfter held x.1 := subset_heldAfter hheld hkeep
    rcases heldThroughout_of_same (fun y hy => hsame y (List.mem_cons_of_mem _ hy)) hafter
      fun y hy => hundisturbed y (List.mem_cons_of_mem _ hy) with ⟨hthrough, hend⟩
    refine ⟨⟨?_, hthrough⟩, hend⟩
    rw [hx]
    exact hafter

/-- The groups around a press. -/
theorem mem_pressAll (hx : x ∈ pressAll ctx kcs) : x.2 = ctx := by
  rcases List.mem_map.mp hx with ⟨kc, _, rfl⟩
  rfl

/-- The groups around a release. -/
theorem mem_releaseAll (hx : x ∈ releaseAll ctx kcs) : x.2 = ctx := by
  rcases List.mem_map.mp hx with ⟨kc, _, rfl⟩
  rfl

/-- A modifier that is held and released again is not held. -/
theorem undisturbed_of_held :
    ∀ {xs : List (Marked T)} {held : List KeyCode}, HeldThroughout held xs → Undisturbed xs
  | x :: xs, held, ⟨hx, hrest⟩, y, hy, m, hm => by
    rcases List.mem_cons.mp hy with rfl | hy
    · intro heq
      have hmem := hx hm
      rw [heq] at hmem
      exact (mem_heldAfter_release.mp hmem).2 rfl
    · exact undisturbed_of_held hrest y hy m hm

end Held

mutual

/-- An item inside held modifiers keeps them, unless it releases one. -/
theorem MacroItem.marked_held {ctx held : List KeyCode} (hheld : ctx ⊆ held) :
    ∀ item : MacroItem T, Undisturbed (item.marked ctx) →
      HeldThroughout held (item.marked ctx) ∧ ctx ⊆ heldAfterAll held (item.marked ctx)
  | .delay _, h => by
    simp only [MacroItem.marked] at h ⊢
    exact heldThroughout_of_same (by simp) hheld h
  | .key _, h => by
    simp only [MacroItem.marked] at h ⊢
    exact heldThroughout_of_same (by simp) hheld h
  | .chord _, h => by
    simp only [MacroItem.marked] at h ⊢
    refine heldThroughout_of_same ?_ hheld h
    intro x hx
    rcases List.mem_append.mp hx with hx | hx
    · exact mem_pressAll hx
    · exact mem_releaseAll hx
  | .custom _, h => by
    simp only [MacroItem.marked] at h ⊢
    exact heldThroughout_of_same (by simp) hheld h
  | .list items, h => by
    simp only [MacroItem.marked] at h ⊢
    exact markedAll_held hheld items h
  | .group mods items, h => by
    simp only [MacroItem.marked] at h ⊢
    rcases undisturbed_append.mp h with ⟨h, hreleases⟩
    rcases undisturbed_append.mp h with ⟨hpresses, hinner⟩
    rcases heldThroughout_of_same (fun x => mem_pressAll) hheld hpresses with ⟨hpressed, _⟩
    -- inside the group its modifiers are held too
    have hmods : ctx ++ mods ⊆ heldAfterAll held (pressAll (T := T) ctx mods) := by
      rw [heldAfterAll_pressAll]
      intro m hm
      rcases List.mem_append.mp hm with hm | hm
      · exact List.mem_append_left _ (hheld hm)
      · exact List.mem_append_right _ hm
    rcases markedAll_held hmods items hinner with ⟨hthrough, hend⟩
    -- after the items the modifiers around the group are still held
    have hctx := List.Subset.trans (List.subset_append_left ctx mods) hend
    rcases heldThroughout_of_same (fun x => mem_releaseAll) hctx hreleases with ⟨hreleased, hlast⟩
    constructor
    · rw [heldThroughout_append, heldThroughout_append, heldAfterAll_append]
      exact ⟨⟨hpressed, hthrough⟩, hreleased⟩
    · rw [heldAfterAll_append, heldAfterAll_append]
      exact hlast

theorem markedAll_held {ctx held : List KeyCode} (hheld : ctx ⊆ held) :
    ∀ items : List (MacroItem T), Undisturbed (markedAll ctx items) →
      HeldThroughout held (markedAll ctx items) ∧ ctx ⊆ heldAfterAll held (markedAll ctx items)
  | [], _ => by
    simp only [markedAll]
    exact ⟨trivial, hheld⟩
  | item :: items, h => by
    simp only [markedAll] at h ⊢
    rcases undisturbed_append.mp h with ⟨hfirst, hrest⟩
    rcases item.marked_held hheld hfirst with ⟨hthrough, hend⟩
    rcases markedAll_held hend items hrest with ⟨hthrough', hend'⟩
    rw [heldThroughout_append, heldAfterAll_append]
    exact ⟨⟨hthrough, hthrough'⟩, hend'⟩

end

mutual

/-- An item releases what it presses. -/
theorem MacroItem.marked_releases (ctx held : List KeyCode) :
    ∀ item : MacroItem T, heldAfterAll held (item.marked ctx) ⊆ held
  | .delay _ => by
    simp only [MacroItem.marked]
    exact List.Subset.refl held
  | .key kc => by
    simp only [MacroItem.marked]
    show heldAfter (held ++ [kc]) (.release (T := T) kc) ⊆ held
    intro kc' hmem
    rcases mem_heldAfter_release.mp hmem with ⟨hmem, hne⟩
    rcases List.mem_append.mp hmem with hmem | hmem
    · exact hmem
    · exact absurd (List.mem_singleton.mp hmem) hne
  | .chord kcs => by
    simp only [MacroItem.marked]
    rw [heldAfterAll_append, heldAfterAll_pressAll]
    intro kc hmem
    -- what is left was held before, or was pressed and is released
    rcases mem_heldAfterAll_releaseAll.mp hmem with ⟨hmem, hnot⟩
    rcases List.mem_append.mp hmem with hmem | hmem
    · exact hmem
    · exact absurd (List.mem_reverse.mpr hmem) hnot
  | .custom _ => by
    simp only [MacroItem.marked]
    exact List.Subset.refl held
  | .list items => by
    simp only [MacroItem.marked]
    exact markedAll_releases ctx held items
  | .group mods items => by
    simp only [MacroItem.marked]
    rw [heldAfterAll_append, heldAfterAll_append, heldAfterAll_pressAll]
    intro kc hmem
    rcases mem_heldAfterAll_releaseAll.mp hmem with ⟨hmem, hnot⟩
    rcases List.mem_append.mp (markedAll_releases (ctx ++ mods) _ items hmem) with hmem | hmem
    · exact hmem
    · exact absurd hmem hnot

theorem markedAll_releases (ctx held : List KeyCode) :
    ∀ items : List (MacroItem T), heldAfterAll held (markedAll ctx items) ⊆ held
  | [] => by
    simp only [markedAll]
    exact List.Subset.refl held
  | item :: items => by
    simp only [markedAll]
    rw [heldAfterAll_append]
    exact List.Subset.trans (markedAll_releases ctx _ items) (item.marked_releases ctx held)

end

/-- The modifiers of a macro are held throughout its groups if and only if nothing inside a
group releases a modifier around it. -/
theorem heldThroughout_iff (items : List (MacroItem T)) :
    HeldThroughout [] (markedAll [] items) ↔ Undisturbed (markedAll [] items) := by
  constructor
  · exact undisturbed_of_held
  · intro h
    exact (markedAll_held (List.Subset.refl []) items h).1

/-! ## The text of a macro -/

namespace Macro

open Fallible

/-- Items one after the other, as the text has them. -/
inductive ReadsAll (read : List SExpr → MacroItem T → List SExpr → Prop) :
    List SExpr → List (MacroItem T) → Prop where
  | nil : ReadsAll read [] []
  | cons {head : SExpr} {tail rest : List SExpr} {item : MacroItem T} {items : List (MacroItem T)}
    (h : read (head :: tail) item rest) (hrest : ReadsAll read rest items) :
    ReadsAll read (head :: tail) (item :: items)

/-- The item that starts with a parameter, and the parameters after it. `inner` reads the
items of a list. -/
inductive ReadsItem (s : ParserState T) (inner : List SExpr → List (MacroItem T) → Prop)
    (mode : MacroNumberParseMode) (head : SExpr) (tail : List SExpr) :
    MacroItem T → List SExpr → Prop where
  | delay {duration : Nat} (h : parseDelay s mode head = .ok (some duration)) :
    ReadsItem s inner mode head tail (.delay duration) tail
  | key {kc : KeyCode} (hdelay : parseDelay s mode head = .ok none)
    (h : s.parseAction head = .ok (.keyCode kc)) : ReadsItem s inner mode head tail (.key kc) tail
  | chord {kcs : List KeyCode} (hdelay : parseDelay s mode head = .ok none)
    (h : s.parseAction head = .ok (.multipleKeyCodes kcs)) :
    ReadsItem s inner mode head tail (.chord kcs) tail
  | custom {value : T} (hdelay : parseDelay s mode head = .ok none)
    (h : s.parseAction head = .ok (.custom value)) :
    ReadsItem s inner mode head tail (.custom value) tail
  | list {e : ParseError} {acs : List SExpr} {items : List (MacroItem T)}
    (hdelay : parseDelay s mode head = .ok none)
    (haction : s.parseAction head = .error (.error e)) (hlist : head.list s.vars = .ok (some acs))
    (hitems : inner acs items) : ReadsItem s inner mode head tail (.list items) tail
  | group {e : ParseError} {mods : List KeyCode} {unparsed : String} {acs rest : List SExpr}
    {items : List (MacroItem T)} (hdelay : parseDelay s mode head = .ok none)
    (haction : s.parseAction head = .error (.error e)) (hlist : head.list s.vars = .ok none)
    (hmods : parseModsHeldForSubMacro s head = .ok (mods, unparsed))
    (hacs : submacroItems s e unparsed head tail = .ok (acs, rest)) (hitems : inner acs items) :
    ReadsItem s inner mode head tail (.group mods items) rest

/-- The item at the front of some parameters, with the depth of the call stack. -/
def Reads (s : ParserState T) :
    Nat → MacroNumberParseMode → List SExpr → MacroItem T → List SExpr → Prop
  | 0, _, _, _, _ => False
  | _ + 1, _, [], _, _ => False
  | depth + 1, mode, head :: tail, item, rest =>
    ReadsItem s (ReadsAll (Reads s depth .delay)) mode head tail item rest

section Reads

variable {s : ParserState T}

/-- The loop over the items: what is parsed is what the text says. -/
theorem parseItems_reads {item : List SExpr → Parse (List (SequenceEvent T) × List SExpr)}
    {read : List SExpr → MacroItem T → List SExpr → Prop}
    (hitem : ∀ acs es rest, item acs = .ok (es, rest) →
      ∃ tree, read acs tree rest ∧ (tree.marked []).map Prod.fst = es) :
    ∀ {n : Nat} {acs : List SExpr} {es : List (SequenceEvent T)},
      parseItems item n acs = .ok es → ∃ items, ReadsAll read acs items ∧ eventsOf items = es
  | _, [], es, h => by
    simp only [parseItems, pure_eq_ok] at h
    rw [← h]
    exact ⟨[], .nil, by simp only [eventsOf, markedAll, List.map_nil]⟩
  | 0, _ :: _, es, h => by simp [parseItems, liftRust, panicWith] at h
  | n + 1, head :: tail, es, h => by
    rw [parseItems] at h
    rcases bind_eq_ok.mp h with ⟨⟨events, remainder⟩, hevents, h⟩
    rcases bind_eq_ok.mp h with ⟨rest, hrest, h⟩
    rw [pure_eq_ok] at h
    rcases hitem _ _ _ hevents with ⟨tree, htree, hfirst⟩
    rcases parseItems_reads hitem hrest with ⟨items, hitems, hothers⟩
    refine ⟨tree :: items, .cons htree hitems, ?_⟩
    rw [← h, ← hfirst, ← hothers]
    simp only [eventsOf, markedAll, List.map_append]

/-- By induction on the depth: what is parsed is what the text says. -/
theorem parseMacroItemImpl_reads : ∀ {depth : Nat} {mode : MacroNumberParseMode}
    {acs rest : List SExpr} {es : List (SequenceEvent T)},
      parseMacroItemImpl s depth mode acs = .ok (es, rest) →
        ∃ item, Reads s depth mode acs item rest ∧ (item.marked []).map Prod.fst = es := by
  intro depth
  induction depth with
  | zero =>
    intro mode acs rest es h
    simp [parseMacroItemImpl, liftRust, panicWith] at h
  | succ depth ih =>
    intro mode acs rest es h
    cases acs with
    | nil => simp [parseMacroItemImpl, liftRust, panicWith] at h
    | cons head tail =>
      have hitems : ∀ {n acs es}, parseItems (parseMacroItemImpl s depth .delay) n acs = .ok es →
          ∃ items, ReadsAll (Reads s depth .delay) acs items ∧ eventsOf items = es :=
        parseItems_reads fun _ _ _ => ih
      rw [parseMacroItemImpl] at h
      rcases bind_eq_ok.mp h with ⟨duration, hdelay, h⟩
      split at h
      · obtain ⟨rfl, rfl⟩ := Prod.mk.inj (pure_eq_ok.mp h)
        exact ⟨_, .delay hdelay, by simp only [MacroItem.marked, List.map_cons, List.map_nil]⟩
      · split at h
        · rename_i hkey
          obtain ⟨rfl, rfl⟩ := Prod.mk.inj (pure_eq_ok.mp h)
          exact ⟨_, .key hdelay hkey, by simp only [MacroItem.marked, List.map_cons, List.map_nil]⟩
        · rename_i hchord
          obtain ⟨rfl, rfl⟩ := Prod.mk.inj (pure_eq_ok.mp h)
          refine ⟨_, .chord hdelay hchord, ?_⟩
          simp only [MacroItem.marked, List.map_append, map_pressAll, map_releaseAll]
        · rename_i hcustom
          obtain ⟨rfl, rfl⟩ := Prod.mk.inj (pure_eq_ok.mp h)
          exact ⟨_, .custom hdelay hcustom,
            by simp only [MacroItem.marked, List.map_cons, List.map_nil]⟩
        · simp [bailExpr] at h
        · simp at h
        · rename_i haction
          rcases bind_eq_ok.mp h with ⟨items, hlist, h⟩
          split at h
          · -- a list of items
            rcases bind_eq_ok.mp h with ⟨events, hevents, h⟩
            obtain ⟨rfl, rfl⟩ := Prod.mk.inj (pure_eq_ok.mp h)
            rcases hitems (mapErr_eq_ok.mp hevents) with ⟨trees, htrees, heq⟩
            refine ⟨_, .list hdelay haction (liftRust_eq_ok.mp hlist) htrees, ?_⟩
            simp only [MacroItem.marked]
            exact heq
          · -- a list of items under modifiers
            rcases bind_eq_ok.mp h with ⟨⟨heldMods, unparsed⟩, hmods, h⟩
            rcases bind_eq_ok.mp h with ⟨⟨acs, rest'⟩, hacs, h⟩
            rcases bind_eq_ok.mp h with ⟨events, hevents, h⟩
            obtain ⟨rfl, rfl⟩ := Prod.mk.inj (pure_eq_ok.mp h)
            rcases hitems hevents with ⟨trees, htrees, heq⟩
            refine ⟨_, .group hdelay haction (liftRust_eq_ok.mp hlist)
              (mapErr_eq_ok.mp hmods) hacs htrees, ?_⟩
            simp only [MacroItem.marked, List.map_append, map_pressAll, map_releaseAll]
            -- the parser does not know of the groups around the items
            rw [markedAll_events _ [] trees]
            exact congrArg (fun es => heldMods.map .press ++ es ++ heldMods.map .release) heq

/-- The items of a group take no more than one parameter. -/
theorem submacroItems_suffix {e : ParseError} {unparsed : String} {head : SExpr}
    {tail acs rest : List SExpr} (h : submacroItems s e unparsed head tail = .ok (acs, rest)) :
    rest <:+ tail := by
  unfold submacroItems at h
  rcases bind_eq_ok.mp h with ⟨l, _, h⟩
  split at h
  · obtain ⟨rfl, rfl⟩ := Prod.mk.inj (pure_eq_ok.mp h)
    exact List.suffix_refl _
  · split at h
    · cases h
    · split at h
      · cases h
      · rcases bind_eq_ok.mp h with ⟨l', _, h⟩
        rcases bind_eq_ok.mp h with ⟨l'', _, h⟩
        obtain ⟨rfl, rfl⟩ := Prod.mk.inj (pure_eq_ok.mp h)
        exact List.suffix_cons _ _

/-- What comes after an item is behind its first parameter. -/
theorem ReadsItem.suffix {inner : List SExpr → List (MacroItem T) → Prop}
    {mode : MacroNumberParseMode} {head : SExpr} {tail rest : List SExpr} {item : MacroItem T}
    (h : ReadsItem s inner mode head tail item rest) : rest <:+ tail := by
  cases h with
  | group _ _ _ _ hacs _ => exact submacroItems_suffix hacs
  | _ => exact List.suffix_refl _

/-- The same for an item at any depth. -/
theorem Reads.suffix {depth : Nat} {mode : MacroNumberParseMode} (head : SExpr)
    (tail : List SExpr) (item : MacroItem T) (rest : List SExpr)
    (h : Reads s depth mode (head :: tail) item rest) : rest <:+ tail := by
  cases depth with
  | zero => cases h
  | succ depth => exact ReadsItem.suffix h

/-- The text has one reading. -/
theorem ReadsItem.unique {inner : List SExpr → List (MacroItem T) → Prop}
    (hinner : ∀ acs items items', inner acs items → inner acs items' → items = items')
    {mode : MacroNumberParseMode} {head : SExpr} {tail rest rest' : List SExpr}
    {item item' : MacroItem T} (h : ReadsItem s inner mode head tail item rest)
    (h' : ReadsItem s inner mode head tail item' rest') : item = item' ∧ rest = rest' := by
  cases h with
  | delay h => cases h' <;> simp_all
  | key hdelay h => cases h' <;> simp_all
  | chord hdelay h => cases h' <;> simp_all
  | custom hdelay h => cases h' <;> simp_all
  | list hdelay haction hlist hitems =>
    cases h' with
    | list hdelay' haction' hlist' hitems' =>
      cases hlist.symm.trans hlist'
      exact ⟨congrArg _ (hinner _ _ _ hitems hitems'), rfl⟩
    | _ => simp_all
  | group hdelay haction hlist hmods hacs hitems =>
    cases h' with
    | group hdelay' haction' hlist' hmods' hacs' hitems' =>
      cases haction.symm.trans haction'
      cases hmods.symm.trans hmods'
      cases hacs.symm.trans hacs'
      exact ⟨congrArg _ (hinner _ _ _ hitems hitems'), rfl⟩
    | _ => simp_all

/-- Items in a row have one reading. -/
theorem ReadsAll.unique {read : List SExpr → MacroItem T → List SExpr → Prop}
    (hread : ∀ acs item item' rest rest', read acs item rest → read acs item' rest' →
      item = item' ∧ rest = rest') (acs : List SExpr) (items items' : List (MacroItem T))
    (h : ReadsAll read acs items) (h' : ReadsAll read acs items') : items = items' := by
  induction h generalizing items' with
  | nil =>
    cases h'
    rfl
  | cons h hrest ih =>
    cases h' with
    | cons h' hrest' =>
      obtain ⟨rfl, rfl⟩ := hread _ _ _ _ _ h h'
      rw [ih _ hrest']

/-- So does an item at any depth. -/
theorem Reads.unique : ∀ (depth : Nat) (mode : MacroNumberParseMode) (acs : List SExpr)
    (item item' : MacroItem T) (rest rest' : List SExpr), Reads s depth mode acs item rest →
      Reads s depth mode acs item' rest' → item = item' ∧ rest = rest'
  | depth + 1, _, _ :: _, _, _, _, _, h, h' =>
    ReadsItem.unique (ReadsAll.unique (Reads.unique depth .delay)) h h'

/-- The loop over the items: what the text says is what is parsed. -/
theorem ReadsAll.parse {item : List SExpr → Parse (List (SequenceEvent T) × List SExpr)}
    {read : List SExpr → MacroItem T → List SExpr → Prop}
    (hparse : ∀ acs tree rest, read acs tree rest →
      item acs = .ok ((tree.marked []).map Prod.fst, rest))
    (hsuffix : ∀ head tail tree rest, read (head :: tail) tree rest → rest <:+ tail)
    {n : Nat} {acs : List SExpr} {items : List (MacroItem T)} (h : ReadsAll read acs items)
    (hlen : acs.length ≤ n) : parseItems item n acs = .ok (eventsOf items) := by
  induction h generalizing n with
  | nil =>
    simp only [parseItems, eventsOf, markedAll, List.map_nil]
    rfl
  | @cons head tail rest item items h hrest ih =>
    cases n with
    -- the loop has a round for each parameter
    | zero => cases hlen
    | succ n =>
      have hrestlen : rest.length ≤ tail.length := (hsuffix _ _ _ _ h).length_le
      have hn : rest.length ≤ n := Nat.le_trans hrestlen (Nat.le_of_succ_le_succ hlen)
      rw [parseItems, hparse _ _ _ h, ok_bind]
      dsimp only
      rw [ih hn]
      simp only [eventsOf, markedAll, List.map_append]
      rfl

/-- By induction on the depth: what the text says is what is parsed. -/
theorem Reads.parse : ∀ (depth : Nat) (mode : MacroNumberParseMode) (acs : List SExpr)
    (item : MacroItem T) (rest : List SExpr), Reads s depth mode acs item rest →
      parseMacroItemImpl s depth mode acs = .ok ((item.marked []).map Prod.fst, rest) := by
  intro depth
  induction depth with
  | zero =>
    intro mode acs item rest h
    cases h
  | succ depth ih =>
    intro mode acs item rest h
    have hitems : ∀ {acs items}, ReadsAll (Reads s depth .delay) acs items →
        parseItems (parseMacroItemImpl s depth .delay) acs.length acs = .ok (eventsOf items) :=
      fun h => h.parse (ih .delay) Reads.suffix (Nat.le_refl _)
    cases acs with
    | nil => cases h
    | cons head tail =>
      rw [parseMacroItemImpl]
      cases h with
      | delay h =>
        simp only [h, ok_bind, MacroItem.marked]
        rfl
      | key hdelay h =>
        simp only [hdelay, h, ok_bind, MacroItem.marked]
        rfl
      | chord hdelay h =>
        simp only [hdelay, h, ok_bind, MacroItem.marked, List.map_append, map_pressAll,
          map_releaseAll]
        rfl
      | custom hdelay h =>
        simp only [hdelay, h, ok_bind, MacroItem.marked]
        rfl
      | list hdelay haction hlist hinner =>
        simp only [hdelay, haction, hlist, ok_bind, MacroItem.marked]
        show (do
          let events ← mapErr _ (parseItems (parseMacroItemImpl s depth .delay) _ _)
          pure (events, rest)) = _
        rw [hitems hinner]
        rfl
      | group hdelay haction hlist hmods hacs hinner =>
        simp only [hdelay, haction, hlist, hmods, ok_bind, MacroItem.marked, List.map_append,
          map_pressAll, map_releaseAll]
        show (do
          let r ← submacroItems s _ _ head tail
          let events ← parseItems (parseMacroItemImpl s depth .delay) r.1.length r.1
          pure (_ ++ events ++ _, r.2)) = _
        rw [hacs, ok_bind]
        dsimp only
        rw [hitems hinner, markedAll_events _ []]
        rfl

/-- The events of a macro action. -/
def macroEvents : Action T → Option (List (SequenceEvent T))
  | .sequence events => some events
  | .repeatableSequence events => some events
  | _ => none

/-- A macro performs the events of its items. -/
theorem parseMacro_reads {acParams : List SExpr} {rep : RepeatMacro} {action : Action T}
    (h : parseMacro acParams s rep = .ok action) :
    ∃ items, ReadsAll (Reads s s.stackDepth .delay) acParams items ∧
      macroEvents action = some (eventsOf items ++ [.complete]) := by
  unfold parseMacro at h
  split at h
  · simp [bail] at h
  · rcases bind_eq_ok.mp h with ⟨es, hes, h⟩
    rcases parseItems_reads (fun _ _ _ => parseMacroItemImpl_reads) hes with ⟨items, hitems, heq⟩
    refine ⟨items, hitems, ?_⟩
    rw [heq]
    split at h
    · simp [bail] at h
    · cases rep with
      | no =>
        rw [← pure_eq_ok.mp h]
        rfl
      | yes =>
        rw [← pure_eq_ok.mp h]
        rfl

end Reads

end Macro

end Kanata
