import Kanata.Chord.Activation

/-!
# Kanata.Chord.Ledger — the books of the activated chords

An activated chord is active until it is removed. Its action is handed out once,
and when the chord is removed the release of its coordinate is emitted once.
`Ledger` says so for whole runs and needs no condition.
-/

namespace Kanata.Chord

open Fallible ChordsV2 Machine Session

variable {A : Type}

/-! ## Statuses -/

/-- The action was handed out. -/
def ActiveChordStatus.isRead : ActiveChordStatus → Bool
  | .unread => false
  | .unreadReleased => false
  | .releasable => true
  | .released => true

/-- The keys were released. -/
def ActiveChordStatus.isReleased : ActiveChordStatus → Bool
  | .unread => false
  | .unreadReleased => true
  | .releasable => false
  | .released => true

@[simp] theorem isRead_release (st : ActiveChordStatus) :
    (ActiveChordStatus.release st).isRead = st.isRead := by
  cases st <;> rfl

@[simp] theorem isReleased_release (st : ActiveChordStatus) :
    (ActiveChordStatus.release st).isReleased = true := by
  cases st <;> rfl

theorem read_eq_some {st st' : ActiveChordStatus} (h : ActiveChordStatus.read st = some st') :
    st.isRead = false ∧ st'.isRead = true ∧ st'.isReleased = st.isReleased := by
  cases st <;> simp only [ActiveChordStatus.read, Option.some.injEq, reduceCtorEq] at h <;>
    subst h <;> exact ⟨rfl, rfl, rfl⟩

/-! ## The ledger -/

/-- What never changes of an active chord. -/
structure ChordIdentity (A : Type) where
  coordinate : Nat
  participatingKeys : List Nat
  action : A
  presses : List PressWithTime
  releaseBehaviour : ReleaseBehaviour

def ActiveChord.identity (ach : ActiveChord A) : ChordIdentity A where
  coordinate := ach.coordinate
  participatingKeys := ach.participatingKeys
  action := ach.action
  presses := ach.history.presses
  releaseBehaviour := ach.history.releaseBehaviour

@[simp] theorem tickAch_identity (ach : ActiveChord A) :
    (tickAch ach).identity = ach.identity := rfl

@[simp] theorem handOut_identity (ach : ActiveChord A) (st : ActiveChordStatus) :
    (handOut ach st).identity = ach.identity := rfl

@[simp] theorem releaseKey_identity (qd : Queued) (j : Nat) (ach : ActiveChord A) :
    (releaseKey qd j ach).identity = ach.identity := by
  unfold releaseKey
  split <;> rfl

@[simp] theorem releaseBy_identity (qds : List Queued) (ach : ActiveChord A) :
    (releaseBy qds ach).identity = ach.identity :=
  releaseBy_induct (P := fun a => a.identity = ach.identity)
    (fun qd _ j a _ h => by rw [releaseKey_identity, h]) rfl

/-- The counter of the history agrees with the status. -/
def HandedOutOnce (ach : ActiveChord A) : Prop :=
  ach.history.handedOut = if ach.status.isRead then 1 else 0

theorem HandedOutOnce.releaseBy {ach : ActiveChord A} (h : HandedOutOnce ach)
    (qds : List Queued) : HandedOutOnce (releaseBy qds ach) := by
  refine releaseBy_induct ?_ h
  intro qd i j a _ ha
  unfold HandedOutOnce releaseKey at *
  split
  · exact ha
  · dsimp only
    split
    · rw [isRead_release]
      exact ha
    · exact ha

theorem isRead_releaseBy (qds : List Queued) (ach : ActiveChord A) :
    (releaseBy qds ach).status.isRead = ach.status.isRead := by
  refine releaseBy_induct (P := fun a => a.status.isRead = ach.status.isRead) ?_ rfl
  intro qd i j a _ ha
  unfold releaseKey
  split
  · exact ha
  · dsimp only
    split
    · rw [isRead_release]
      exact ha
    · exact ha

/-- The coordinate of a release that no key sent and that is not the trigger. -/
def releasedCoord (qd : Queued) : Option Nat :=
  match qd.origin, qd.event with
  | none, .release 0 j => if j = triggerTapholdCoord.2 then none else some j
  | _, _ => none

/-- The coordinates whose release a step emits. -/
def releasedBy (l : Log A) : List Nat :=
  match l.out with
  | .ticked q => q.items.filterMap releasedCoord
  | _ => []

/-- The action that a step hands out, with its coordinate. -/
def handedBy (l : Log A) : List (Nat × A) :=
  match l.out with
  | .action (some (coord, _, action)) => [(coord.2, action)]
  | _ => []

/-- All chords that a run activates. -/
def activated (ls : List (Log A)) : List (ActiveChord A) := ls.flatMap (·.activated)

/-- All chords that a run removes. -/
def removed (ls : List (Log A)) : List (ActiveChord A) := ls.flatMap (·.removed)

/-- The name under which the action of a chord is handed out. -/
def handle (ach : ActiveChord A) : Nat × A := (ach.coordinate, ach.action)

/-- Every activated chord is active or removed, and not both. The actions handed
out are those of the removed chords and of the active ones that were read, each
once; the coordinates released are those of the removed chords, each once. -/
structure Ledger (ls : List (Log A)) (s : Session A) : Prop where
  chords : ((activated ls).map (·.identity)).Perm
    ((removed ls ++ s.chv2.activeChords.items).map (·.identity))
  actions : (ls.flatMap handedBy).Perm
    ((removed ls ++ s.chv2.activeChords.items.filter (·.status.isRead)).map handle)
  releases : ls.flatMap releasedBy = (removed ls).map (·.coordinate)
  once : ∀ ach ∈ removed ls ++ s.chv2.activeChords.items, HandedOutOnce ach
  gone : ∀ ach ∈ removed ls, ach.status = .released
  coordinates : ∀ ach ∈ s.chv2.activeChords.items, keyMax < ach.coordinate
  next : keyMax < s.chv2.nextCoord

theorem keyMax_lt_coordAfter {coord : Nat} (h : keyMax < coord) : keyMax < coordAfter coord := by
  unfold coordAfter
  split <;> omega

theorem keyMax_lt_iterate {coord : Nat} (h : keyMax < coord) (n : Nat) :
    keyMax < coordAfter^[n] coord := by
  induction n with
  | zero => exact h
  | succ n ih =>
    rw [Function.iterate_succ_apply']
    exact keyMax_lt_coordAfter ih

theorem mem_spawnAll {since : Nat} {rel : Bool} {presses : List PressWithTime} {coord : Nat}
    {cs : List (ChordV2 A)} {ach : ActiveChord A} (hcoord : keyMax < coord)
    (h : ach ∈ spawnAll since rel presses coord cs) :
    ∃ c ∈ cs, ∃ coord', keyMax < coord' ∧ ach = spawn c since coord' rel presses := by
  induction cs generalizing coord with
  | nil => simp [spawnAll] at h
  | cons c cs ih =>
    rcases List.mem_cons.mp h with rfl | h
    · exact ⟨c, List.mem_cons_self, coord, hcoord, rfl⟩
    · rcases ih (keyMax_lt_coordAfter hcoord) h with ⟨c', hc', coord', hlt, rfl⟩
      exact ⟨c', List.mem_cons_of_mem _ hc', coord', hlt, rfl⟩

theorem spawn_unread (c : ChordV2 A) (since coord : Nat) (rel : Bool)
    (presses : List PressWithTime) : (spawn c since coord rel presses).status.isRead = false := by
  simp only [spawn]
  split <;> rfl

/-- The releases that draining counts for the chords that are active. -/
def countedEvents (activeLayer : Nat) (s : ChordsV2 A) : List Queued :=
  if 0 < s.ticksToIgnoreChord then s.queue.items
  else if canSkip activeLayer s then []
  else leadingReleases (s.queue.items.filter isReal)

/-- The chords that draining activates. -/
def spawned (cfg : ChordsConfig A) (activeLayer : Nat) (s : ChordsV2 A) : List (ActiveChord A) :=
  if 0 < s.ticksToIgnoreChord ∨ canSkip activeLayer s = true then []
  else
    let queue := pendingOf s.queue.items
    let d := queueDecision cfg activeLayer 0 queue
    spawnAll (headSince queue) (releaseFound queue) d.taken (coordAfter^[d.burned] s.nextCoord)
      d.activations

/-- What draining does to the active chords: releases are counted for the old
ones, and the activated ones come after them. -/
theorem Drained.activeChords {cfg : ChordsConfig A} {activeLayer : Nat} {s s₁ : ChordsV2 A}
    (haged : Aged s.queue.items) (h : Drained cfg activeLayer s s₁) :
    s₁.activeChords.items = s.activeChords.items.map (releaseBy (countedEvents activeLayer s)) ++
      spawned cfg activeLayer s := by
  cases h with
  | ignoring hignore => simp [countedEvents, spawned, hignore]
  | skipped hignore hskip => simp [countedEvents, spawned, hignore, hskip]
  | processed hignore hskip _ _ hpresses =>
    have hqueue := settled_queue activeLayer s
    have hperform := processPresses_ok (haged.sublist (hqueue ▸ pendingOf_sublist _)) hpresses
    rw [hqueue] at hperform
    rcases perform_eq_ok.mp hperform with ⟨_, _, achs, hachs, rfl⟩
    simp only [performed, hachs, countedEvents, spawned, hignore, hskip, Nat.lt_irrefl, if_false,
      Bool.false_eq_true, or_self]
    rfl

/-- The active chords after draining. -/
def drainedChords (cfg : ChordsConfig A) (activeLayer : Nat) (s : ChordsV2 A) :
    List (ActiveChord A) :=
  s.activeChords.items.map (releaseBy (countedEvents activeLayer s)) ++ spawned cfg activeLayer s

/-- The events that leave in the tick before the chord releases: those of the
queue, the trigger press and the trigger release. -/
def leaving (cfg : ChordsConfig A) (activeLayer : Nat) (s : ChordsV2 A) : Nat :=
  (drainedEvents activeLayer s).length +
    (if (drainedChords cfg activeLayer s).length != s.activeChords.items.length then 1 else 0) +
    if (drainedChords cfg activeLayer s).any fun ach =>
      ach.status == .unreadReleased || ach.status == .released then 1 else 0

/-- The chords whose release is emitted in the tick. -/
def releasing (cfg : ChordsConfig A) (activeLayer : Nat) (s : ChordsV2 A) : Nat :=
  (drainedChords cfg activeLayer s).countP (·.status == .released)

theorem triggerEvents_length (n : Nat) (s : ChordsV2 A) :
    (triggerEvents n s).length = (if s.activeChords.items.length != n then 1 else 0) +
      if s.activeChords.items.any fun ach =>
        ach.status == .unreadReleased || ach.status == .released then 1 else 0 := by
  unfold triggerEvents
  rw [List.length_append]
  congr 1 <;> split <;> rfl

/-- Draining ends with the chords foretold. -/
theorem Drained.drainedChords {cfg : ChordsConfig A} {activeLayer : Nat} {s s₁ : ChordsV2 A}
    (haged : Aged s.queue.items) (h : Drained cfg activeLayer s s₁) :
    s₁.activeChords.items = Chord.drainedChords cfg activeLayer s :=
  h.activeChords haged

theorem Drained.leaving {cfg : ChordsConfig A} {activeLayer : Nat} {s s₁ : ChordsV2 A}
    (haged : Aged s.age.queue.items) (h : Drained cfg activeLayer s.age s₁) :
    (announced activeLayer s s₁).length = Chord.leaving cfg activeLayer s.age := by
  have hcount : s.age.activeChords.items.length = s.activeChords.items.length := by simp [age]
  rw [announced, List.length_append, triggerEvents_length, h.drainedChords haged, Chord.leaving,
    hcount, Nat.add_assoc]

theorem Drained.releasing {cfg : ChordsConfig A} {activeLayer : Nat} {s s₁ : ChordsV2 A}
    (haged : Aged s.age.queue.items) (h : Drained cfg activeLayer s.age s₁) :
    (releasedChords s₁).length = Chord.releasing cfg activeLayer s.age := by
  rw [releasedChords, h.drainedChords haged, Chord.releasing, List.countP_eq_length_filter]

theorem Drained.nextCoord {cfg : ChordsConfig A} {activeLayer : Nat} {s s₁ : ChordsV2 A}
    (haged : Aged s.queue.items) (h : Drained cfg activeLayer s s₁)
    (hnext : keyMax < s.nextCoord) : keyMax < s₁.nextCoord := by
  cases h with
  | ignoring _ => exact hnext
  | skipped _ _ => exact hnext
  | processed _ _ _ _ hpresses =>
    have hqueue := settled_queue activeLayer s
    have hperform := processPresses_ok (haged.sublist (hqueue ▸ pendingOf_sublist _)) hpresses
    rcases perform_eq_ok.mp hperform with ⟨_, _, achs, _, rfl⟩
    exact keyMax_lt_iterate hnext _

theorem mem_spawned {cfg : ChordsConfig A} {activeLayer : Nat} {s : ChordsV2 A}
    {ach : ActiveChord A} (hnext : keyMax < s.nextCoord) (h : ach ∈ spawned cfg activeLayer s) :
    s.ticksToIgnoreChord = 0 ∧ canSkip activeLayer s = false ∧
      ∃ c ∈ (queueDecision cfg activeLayer 0 (pendingOf s.queue.items)).activations,
        ∃ coord, keyMax < coord ∧
          ach = spawn c (headSince (pendingOf s.queue.items)) coord
            (releaseFound (pendingOf s.queue.items))
            (queueDecision cfg activeLayer 0 (pendingOf s.queue.items)).taken := by
  unfold spawned at h
  split at h
  · simp at h
  · rename_i hlook
    rw [not_or, Bool.not_eq_true] at hlook
    exact ⟨by omega, hlook.2, mem_spawnAll (keyMax_lt_iterate hnext _) h⟩

theorem releasedChords_read {s : ChordsV2 A} {ach : ActiveChord A}
    (h : ach ∈ releasedChords s) : ach.status = .released := by
  have := (List.mem_filter.mp h).2
  simpa using this

/-- Of the chords after draining, the released ones are removed and the others
stay. -/
theorem removed_perm (s : ChordsV2 A) :
    (releasedChords s ++ (closeTick s).activeChords.items).Perm s.activeChords.items := by
  have h := List.filter_append_perm (fun ach => ach.status == ActiveChordStatus.released)
    s.activeChords.items
  simpa only [releasedChords, closeTick, Bounded.retain_items, bne] using h

theorem releasedCoord_chordReleases {achs : List (ActiveChord A)}
    (h : ∀ ach ∈ achs, keyMax < ach.coordinate) :
    (chordReleases achs).filterMap releasedCoord = achs.map (·.coordinate) := by
  rw [chordReleases, List.filterMap_map, ← List.filterMap_eq_map]
  refine List.filterMap_congr fun ach hach => ?_
  have hlt := h ach hach
  have hne : ¬ ach.coordinate = triggerTapholdCoord.2 := by
    unfold keyMax at hlt
    show ¬ ach.coordinate = 0
    omega
  simp [releasedCoord, Queued.newRelease, hne]

theorem releasedCoord_triggerEvents {n : Nat} {s : ChordsV2 A} :
    ∀ qd ∈ triggerEvents n s, releasedCoord qd = none := by
  intro qd hqd
  rcases List.mem_append.mp hqd with hqd | hqd <;> split at hqd <;>
    simp_all [releasedCoord, Queued.newPress, Queued.newRelease, triggerTapholdCoord]

/-- Whatever is lost, the events of a queue after pushes were there or pushed. -/
theorem mem_pushAll {q : SmolQueue} {qds : List Queued} {qd : Queued}
    (h : qd ∈ (pushAll q qds).items) : qd ∈ q.items ++ qds := by
  induction qds generalizing q with
  | nil => simpa using h
  | cons qd' qds ih =>
    rw [pushAll_cons] at h
    rw [List.append_cons]
    rcases List.mem_append.mp (ih h) with hmem | hmem
    · exact List.mem_append_left _ ((Bounded.pushBack_sublist q qd').subset hmem)
    · exact List.mem_append_right _ hmem

/-- The releases at the end of a tick are never lost. -/
theorem tick_releases {activeLayer : Nat} {arrived : List Event} {s s₁ : ChordsV2 A}
    (hord : QueueOrdered arrived s.queue.items)
    (hroom : (pushAll .empty (announced activeLayer s s₁)).items.length +
      (releasedChords s₁).length ≤ smolQLen)
    (hcoord : ∀ ach ∈ s₁.activeChords.items, keyMax < ach.coordinate) :
    (pushAll .empty (announced activeLayer s s₁ ++
      chordReleases (releasedChords s₁))).items.filterMap releasedCoord =
        (releasedChords s₁).map (·.coordinate) := by
  have hreleased : ∀ ach ∈ releasedChords s₁, keyMax < ach.coordinate :=
    fun ach hach => hcoord ach (List.mem_filter.mp hach).1
  rw [pushAll_append, pushAll_items (by simpa [chordReleases] using hroom), List.filterMap_append,
    releasedCoord_chordReleases hreleased,
    List.filterMap_eq_nil_iff.mpr, List.nil_append]
  intro qd hqd
  have hmem := mem_pushAll hqd
  rw [Bounded.empty_items, List.nil_append, announced] at hmem
  rcases List.mem_append.mp hmem with hqd | hqd
  · -- an event that leaves has a number
    have hage : QueueOrdered arrived s.age.queue.items := hord.tick
    rcases hage.numbered qd (drainedEvents_subset activeLayer s.age qd hqd) with ⟨n, hn, _⟩
    simp [releasedCoord, hn]
  · exact releasedCoord_triggerEvents qd hqd

/-- Handing out finds no chord that is due, or changes the status of one. -/
theorem findUnread_cases (achs : List (ActiveChord A)) :
    findUnread achs = (achs, none) ∨
      ∃ before ach after st, achs = before ++ ach :: after ∧
        ActiveChordStatus.read ach.status = some st ∧
        findUnread achs = (before ++ handOut ach st :: after,
          some ((0, ach.coordinate), ach.delay, ach.action)) := by
  induction achs with
  | nil => exact Or.inl rfl
  | cons a achs ih =>
    rcases hread : ActiveChordStatus.read a.status with _ | st
    · simp only [findUnread, hread]
      rcases ih with hnone | ⟨before, ach, after, st, rfl, hst, hfound⟩
      · left
        rw [hnone]
      · right
        exact ⟨a :: before, ach, after, st, rfl, hst, by rw [hfound]; rfl⟩
    · right
      exact ⟨[], a, achs, st, rfl, hread, by simp [findUnread, hread]⟩

/-! ### Steps of the ledger -/

theorem activated_append (ls : List (Log A)) (l : Log A) :
    activated (ls ++ [l]) = activated ls ++ l.activated := by
  simp [activated]

theorem removed_append (ls : List (Log A)) (l : Log A) :
    removed (ls ++ [l]) = removed ls ++ l.removed := by
  simp [removed]

/-- A step that hands out nothing, activates nothing and removes nothing. -/
theorem Ledger.idle {ls : List (Log A)} {s s' : Session A} {l : Log A} (h : Ledger ls s)
    (hachs : s'.chv2.activeChords = s.chv2.activeChords)
    (hnext : s'.chv2.nextCoord = s.chv2.nextCoord) (hact : l.activated = [])
    (hrem : l.removed = []) (hhanded : handedBy l = []) (hreleased : releasedBy l = []) :
    Ledger (ls ++ [l]) s' := by
  have hactivated : activated (ls ++ [l]) = activated ls := by simp [activated_append, hact]
  have hremoved : removed (ls ++ [l]) = removed ls := by simp [removed_append, hrem]
  refine ⟨?_, ?_, ?_, ?_, ?_, ?_, ?_⟩
  · rw [hactivated, hremoved, hachs]
    exact h.chords
  · rw [hremoved, hachs]
    simpa [hhanded] using h.actions
  · rw [hremoved]
    simpa [hreleased] using h.releases
  · rw [hremoved, hachs]
    exact h.once
  · rw [hremoved]
    exact h.gone
  · rw [hachs]
    exact h.coordinates
  · rw [hnext]
    exact h.next

theorem Ledger.getAction {cfg : ChordsConfig A} {ls : List (Log A)} {s s' : Session A}
    {l : Log A} (h : Ledger ls s) (hstep : stepLogged cfg s .getAction = .ok (s', l)) :
    Ledger (ls ++ [l]) s' := by
  rcases stepLogged_eq_ok.mp hstep with ⟨haction, hact, hrem⟩
  simp only [Session.step, stepWith, pure_eq_ok, Prod.mk.injEq] at haction
  rcases haction with ⟨rfl, hout⟩
  rcases findUnread_cases s.chv2.activeChords.items
    with hnone | ⟨before, ach, after, st, hachs, hst, hfound⟩
  · -- no chord is due
    refine h.idle (Bounded.ext ?_) rfl hact hrem ?_ ?_
    · simp [getActionChv2, hnone]
    · simp [handedBy, ← hout, getActionChv2, hnone]
    · simp [releasedBy, ← hout]
  · -- one action is handed out
    rcases read_eq_some hst with ⟨hunread, hread, _⟩
    have hitems : (getActionChv2 s.chv2).1.activeChords.items =
        before ++ handOut ach st :: after := by
      simp [getActionChv2, hfound]
    have hactivated : activated (ls ++ [l]) = activated ls := by
      simp [activated_append, hact, activatedBy]
    have hremoved : removed (ls ++ [l]) = removed ls := by simp [removed_append, hrem, removedBy]
    have hhanded : handedBy l = [handle ach] := by
      simp [handedBy, ← hout, getActionChv2, hfound, handle]
    have honce := h.once
    have hcoordinates := h.coordinates
    have hactions := h.actions
    have hchords := h.chords
    rw [hachs] at honce hcoordinates hactions hchords
    refine ⟨?_, ?_, ?_, ?_, ?_, ?_, h.next⟩
    · rw [hactivated, hremoved, hitems]
      simpa using hchords
    · rw [hremoved, hitems, List.flatMap_append, List.flatMap_singleton, hhanded]
      have hhandle : handle (handOut ach st) = handle ach := rfl
      have hstatus : (handOut ach st).status = st := rfl
      simp only [List.filter_append, List.filter_cons, hstatus, hread, hunread, if_true,
        Bool.false_eq_true, if_false, List.map_append, List.map_cons, hhandle] at hactions ⊢
      refine (hactions.append_right _).trans ?_
      simp only [List.append_assoc]
      refine List.Perm.append_left _ (List.Perm.append_left _ ?_)
      exact List.perm_append_singleton _ _
    · rw [hremoved]
      simpa [releasedBy, ← hout] using h.releases
    · rw [hremoved, hitems]
      have hach := honce ach (by simp)
      intro a ha
      rcases List.mem_append.mp ha with ha | ha
      · exact honce a (List.mem_append_left _ ha)
      · rcases List.mem_append.mp ha with ha | ha
        · exact honce a (by simp [ha])
        · rcases List.mem_cons.mp ha with rfl | ha
          · -- its counter goes from none to one
            unfold HandedOutOnce at hach ⊢
            simp only [handOut, hread, if_true]
            simp [hach, hunread]
          · exact honce a (by simp [ha])
    · rw [hremoved]
      exact h.gone
    · rw [hitems]
      intro a ha
      rcases List.mem_append.mp ha with ha | ha
      · exact hcoordinates a (by simp [ha])
      · rcases List.mem_cons.mp ha with rfl | ha
        · exact hcoordinates ach (by simp)
        · exact hcoordinates a (by simp [ha])

theorem Ledger.tick {cfg : ChordsConfig A} {ls : List (Log A)} {s s' : Session A}
    {activeLayer : Nat} {l : Log A} (h : Ledger ls s) (hord : s.Ordered)
    (hstep : stepLogged cfg s (.tick activeLayer) = .ok (s', l)) : Ledger (ls ++ [l]) s' := by
  rcases stepLogged_tick hstep with ⟨s₁, hdrained, hroom, rfl, hout, hact, hrem⟩
  have haged : Aged s.chv2.age.queue.items := (QueueOrdered.tick hord).aged
  have hachs := hdrained.activeChords haged
  have hnext : keyMax < s.chv2.age.nextCoord := h.next
  have hnext₁ := hdrained.nextCoord haged hnext
  set old := s.chv2.age.activeChords.items.map
    (releaseBy (countedEvents activeLayer s.chv2.age)) with hold
  set new := spawned cfg activeLayer s.chv2.age with hnew
  have hfresh : ∀ ach ∈ new, ach.status.isRead = false ∧ HandedOutOnce ach ∧
      keyMax < ach.coordinate := by
    intro ach hach
    rcases mem_spawned hnext hach with ⟨_, _, c, _, coord, hlt, rfl⟩
    have hunread := spawn_unread c (headSince (pendingOf s.chv2.age.queue.items)) coord
      (releaseFound (pendingOf s.chv2.age.queue.items))
      (queueDecision cfg activeLayer 0 (pendingOf s.chv2.age.queue.items)).taken
    refine ⟨hunread, ?_, hlt⟩
    rw [HandedOutOnce, hunread]
    rfl
  have hoften : ∀ ach ∈ old, HandedOutOnce ach ∧ keyMax < ach.coordinate := by
    intro ach hach
    rcases List.mem_map.mp hach with ⟨ach', hach', rfl⟩
    rcases List.mem_map.mp hach' with ⟨ach'', hach'', rfl⟩
    refine ⟨HandedOutOnce.releaseBy ?_ _, ?_⟩
    · exact h.once ach'' (List.mem_append_right _ hach'')
    · rw [releaseBy_coordinate]
      exact h.coordinates ach'' hach''
  have hidentity : old.map (·.identity) = s.chv2.activeChords.items.map (·.identity) := by
    simp [hold, age, Function.comp_def]
  have hlen : s.chv2.activeChords.items.length = old.length := by simp [hold, age]
  have hactivated : l.activated = new := by rw [hact, hachs, hlen, List.drop_left]
  -- a chord is read after draining if and only if it was before
  have hread : (s₁.activeChords.items.filter (·.status.isRead)).map handle =
      (s.chv2.activeChords.items.filter (·.status.isRead)).map handle := by
    have hnone : new.filter (·.status.isRead) = [] :=
      List.filter_eq_nil_iff.mpr fun ach hach => by simp [(hfresh ach hach).1]
    rw [hachs, List.filter_append, hnone, List.append_nil, hold]
    simp only [age, Bounded.map_items, List.map_map, List.filter_map, Function.comp_def,
      isRead_releaseBy, tickAch]
    refine List.map_congr_left fun ach _ => ?_
    have hid := releaseBy_identity (countedEvents activeLayer s.chv2.age) (tickAch ach)
    exact congrArg (fun i : ChordIdentity A => (i.coordinate, i.action)) hid
  have hcoord : ∀ ach ∈ s₁.activeChords.items, keyMax < ach.coordinate := by
    intro ach hach
    rw [hachs] at hach
    rcases List.mem_append.mp hach with hach | hach
    · exact (hoften ach hach).2
    · exact (hfresh ach hach).2.2
  have hperm := removed_perm s₁
  refine ⟨?_, ?_, ?_, ?_, ?_, ?_, hnext₁⟩
  · rw [activated_append, removed_append, hactivated, hrem, List.append_assoc, List.map_append,
      List.map_append]
    refine (h.chords.append_right _).trans ?_
    rw [List.map_append, List.append_assoc, ← hidentity, ← List.map_append, ← hachs]
    exact List.Perm.append_left _ (hperm.symm.map _)
  · have hhanded : handedBy l = [] := by simp [handedBy, hout]
    rw [removed_append, hrem, List.flatMap_append, List.flatMap_singleton, hhanded,
      List.append_nil, List.append_assoc, List.map_append]
    refine h.actions.trans ?_
    rw [List.map_append, ← hread]
    refine List.Perm.append_left _ ?_
    refine ((hperm.filter _).symm.map handle).trans ?_
    rw [List.filter_append, List.filter_eq_self.mpr]
    · intro ach hach
      simp [releasedChords_read hach, ActiveChordStatus.isRead]
  · have hreleased : releasedBy l = (releasedChords s₁).map (·.coordinate) := by
      simp only [releasedBy, hout]
      exact tick_releases hord hroom hcoord
    rw [removed_append, hrem, List.flatMap_append, List.map_append, h.releases,
      List.flatMap_singleton, hreleased]
  · rw [removed_append, hrem, List.append_assoc]
    intro ach hach
    rcases List.mem_append.mp hach with hach | hach
    · exact h.once ach (List.mem_append_left _ hach)
    · have hmem := hperm.subset hach
      rw [hachs] at hmem
      rcases List.mem_append.mp hmem with hmem | hmem
      · exact (hoften ach hmem).1
      · exact (hfresh ach hmem).2.1
  · rw [removed_append, hrem]
    intro ach hach
    rcases List.mem_append.mp hach with hach | hach
    · exact h.gone ach hach
    · exact releasedChords_read hach
  · intro ach hach
    exact hcoord ach (List.mem_filter.mp hach).1

theorem Ledger.step {cfg : ChordsConfig A} {ls : List (Log A)} {s s' : Session A} {op : Op}
    {l : Log A} (h : Ledger ls s) (hord : s.Ordered) (hstep : stepLogged cfg s op = .ok (s', l)) :
    Ledger (ls ++ [l]) s' := by
  cases op with
  | push event =>
    rcases stepLogged_eq_ok.mp hstep with ⟨hpush, hact, hrem⟩
    simp only [Session.step, stepWith, pure_eq_ok, Prod.mk.injEq] at hpush
    rcases hpush with ⟨rfl, hout⟩
    refine h.idle rfl rfl hact hrem ?_ ?_
    · simp [handedBy, ← hout]
    · simp [releasedBy, ← hout]
  | getAction => exact h.getAction hstep
  | tick activeLayer => exact h.tick hord hstep

end Kanata.Chord
