import Kanata.Lib.Assoc
import Kanata.Parser.TemplateForms

/-!
# Kanata.Parser.TemplateExpansion — the passes end

* `evaluateAll_total`: the conditionals of an instance end in as many rounds as it has atoms and
  lists;
* `Ordered.exists_bounds`: a template expands only those before it, so there is a bound for the
  cost of its instances;
* `pass_keeps`, `expand_total`: a pass that replaces something lowers the cost, so the passes
  end;
* `expand_succ`: more fuel changes nothing.
-/

namespace Kanata.Templates

open Fallible

/-! ## Conditionals -/

/-- The induction over lists of expressions that asks for nothing. -/
theorem allLists_true : ∀ exprs : List SExpr, AllLists (fun _ => True) exprs
  | [] => .nil
  | .atomNode _ _ :: exprs => .atom (allLists_true exprs)
  | .listNode l _ :: exprs => .list trivial (allLists_true l) (allLists_true exprs)

/-- The number of atoms and lists. -/
def nodes (exprs : List SExpr) : Nat := cost (fun _ n => n) atomCost exprs

/-- When instances cost what their lists do, a call costs nothing more. -/
theorem callCost_nodes (l : List SExpr) (n : Nat) : callCost (fun _ n => n) l n = n := by
  unfold callCost
  split
  · split <;> rfl
  · rfl

/-- Every bound is at least the number of atoms and lists. -/
theorem nodes_le_cost {F : String → Nat → Nat} (hle : ∀ name n, n ≤ F name n)
    (exprs : List SExpr) : nodes exprs ≤ cost F atomCost exprs := by
  unfold nodes
  induction allLists_true exprs with
  | nil => exact Nat.le_refl 0
  | atom _ ih => exact Nat.add_le_add (Nat.le_refl _) ih
  | @list l sp exprs _ _ _ ihl ih =>
    refine Nat.add_le_add (Nat.add_le_add_left ?_ 1) ih
    rw [callCost_nodes]
    exact Nat.le_trans ihl (le_callCost hle l _)

theorem nodes_list (l : List SExpr) (sp : Span) (exprs : List SExpr) :
    nodes (.listNode l sp :: exprs) = 1 + nodes l + nodes exprs := by
  unfold nodes
  rw [cost, costExpr, callCost_nodes]

theorem nodes_nil : nodes [] = 0 := rfl

theorem nodes_append (exprs exprs' : List SExpr) :
    nodes (exprs ++ exprs') = nodes exprs + nodes exprs' := cost_append _ exprs exprs'

/-- A round that changes something leaves less, and one that changes nothing is the last. -/
theorem evaluateConditionals_shrinks {exprs : List SExpr} :
    ∀ {exprs' : List SExpr} {changed : Bool}, evaluateConditionals exprs = .ok (exprs', changed) →
      (changed = true → nodes exprs' < nodes exprs) ∧ (changed = false → exprs' = exprs) := by
  induction allLists_true exprs with
  | nil =>
    intro exprs' changed h
    cases h
    refine ⟨fun hchanged => ?_, fun _ => rfl⟩
    cases hchanged
  | atom _ ih =>
    intro exprs' changed h
    rcases bind_eq_ok.mp h with ⟨⟨here, changed₁⟩, hhere, h⟩
    rcases bind_eq_ok.mp h with ⟨⟨rest, changed₂⟩, hrest, h⟩
    cases hhere
    cases h
    rcases ih hrest with ⟨hless, hsame⟩
    refine ⟨fun hchanged => ?_, fun hchanged => ?_⟩
    · exact Nat.add_lt_add_left (hless hchanged) _
    · exact congrArg _ (hsame hchanged)
  | @list l sp exprs _ _ _ ihl ih =>
    intro exprs' changed h
    rcases bind_eq_ok.mp h with ⟨⟨here, changed₁⟩, hhere, h⟩
    rcases bind_eq_ok.mp h with ⟨⟨rest, changed₂⟩, hrest, h⟩
    cases h
    rcases ih hrest with ⟨hless, hsame⟩
    have hrest_le : nodes rest ≤ nodes exprs := by
      cases changed₂ with
      | true => exact Nat.le_of_lt (hless rfl)
      | false => rw [hsame rfl]
    -- the list is a conditional, or something inside it may change
    have hhere' : (changed₁ = true → nodes here < 1 + nodes l) ∧
        (changed₁ = false → here = [.listNode l sp]) := by
      rcases bind_eq_ok.mp hhere with ⟨r, hr, hhere⟩
      rcases r with _ | replacement
      · rcases bind_eq_ok.mp hhere with ⟨⟨l', changed₃⟩, hl', hhere⟩
        cases hhere
        rcases ihl hl' with ⟨hlessl, hsamel⟩
        refine ⟨fun hchanged => ?_, fun hchanged => by rw [hsamel hchanged]⟩
        have := hlessl hchanged
        rw [nodes_list, nodes_nil]
        omega
      · cases hhere
        refine ⟨fun _ => ?_, fun hchanged => by cases hchanged⟩
        -- what is left is a part of the conditional, or nothing
        rcases (conditional_some hr).2 with rfl | rfl
        · have : nodes (l.drop 3) ≤ nodes l := cost_drop_le _ l 3
          omega
        · exact Nat.lt_of_lt_of_le Nat.zero_lt_one (Nat.le_add_right 1 _)
    rw [nodes_append, nodes_list]
    refine ⟨fun hchanged => ?_, fun hchanged => ?_⟩
    · cases hc : changed₁ with
      | true =>
        have := hhere'.1 hc
        omega
      | false =>
        rw [hc, Bool.false_or] at hchanged
        have := hless hchanged
        rw [hhere'.2 hc, nodes_list, nodes_nil]
        omega
    · rw [Bool.or_eq_false_iff] at hchanged
      rw [hhere'.2 hchanged.1, hsame hchanged.2]
      rfl

/-- A result is not the lack of fuel. -/
theorem ok_ne_none {α : Type} (a : α) : (.ok a : Steps α) ≠ .error none := by
  intro h
  cases h

/-- Nor is an error of the configuration. -/
theorem some_ne_none {α : Type} (e : ParseFault) :
    (.error (some e) : Steps α) ≠ .error none := by
  intro h
  cases h

/-- The conditionals are evaluated in at most as many rounds as there are atoms and lists. -/
theorem evaluateAll_total : ∀ {fuel : Nat} {exprs : List SExpr}, nodes exprs < fuel →
    evaluateAll fuel exprs ≠ .error none
  | 0, _, h => absurd h (Nat.not_lt_zero _)
  | fuel + 1, exprs, h => by
    unfold evaluateAll
    split
    · exact some_ne_none _
    · rename_i exprs' heval
      have := (evaluateConditionals_shrinks heval).1 rfl
      exact evaluateAll_total (by omega)
    · exact ok_ne_none _

/-- Rounds that are not needed are not made. -/
theorem evaluateAll_succ : ∀ {fuel : Nat} {exprs : List SExpr},
    evaluateAll fuel exprs ≠ .error none →
      evaluateAll (fuel + 1) exprs = evaluateAll fuel exprs
  | 0, _, h => absurd rfl h
  | fuel + 1, exprs, h => by
    rw [evaluateAll] at h ⊢
    conv => rhs; rw [evaluateAll]
    split
    · rfl
    · rename_i exprs' heval
      rw [heval] at h
      exact evaluateAll_succ h
    · rfl

/-- All rounds together keep the forms and raise no cost. -/
theorem evaluateAll_keeps {F : String → Nat → Nat} (hmono : ∀ name, Monotone (F name)) :
    ∀ {fuel : Nat} {exprs exprs' : List SExpr}, Headed exprs →
      evaluateAll fuel exprs = .ok exprs' →
        Headed exprs' ∧ cost F atomCost exprs' ≤ cost F atomCost exprs
  | 0, _, _, _, h => nomatch h
  | fuel + 1, exprs, exprs', hheaded, h => by
    unfold evaluateAll at h
    split at h
    · cases h
    · rename_i exprs₁ heval
      rcases evaluateAll_keeps hmono (headed_evaluateConditionals hheaded heval) h with
        ⟨hheaded', hcost⟩
      exact ⟨hheaded', Nat.le_trans hcost (cost_evaluateConditionals hmono hheaded heval)⟩
    · rename_i exprs₁ heval
      cases h
      exact ⟨headed_evaluateConditionals hheaded heval,
        cost_evaluateConditionals hmono hheaded heval⟩

/-! ## Bounds of the templates -/

/-- What atoms cost may grow. -/
theorem cost_mono {F : String → Nat → Nat} (hmono : ∀ name, Monotone (F name))
    {v v' : String → Nat} (hv : ∀ a, v a ≤ v' a) (exprs : List SExpr) :
    cost F v exprs ≤ cost F v' exprs := by
  induction allLists_true exprs with
  | nil => exact Nat.le_refl 0
  | @atom a sp exprs _ ih => exact Nat.add_le_add (hv a) ih
  | @list l sp exprs _ _ _ ihl ih =>
    exact Nat.add_le_add (Nat.add_le_add_left (callCost_mono hmono l ihl) 1) ih

/-- Only the templates that are expanded matter for the cost. -/
theorem cost_congr {F F' : String → Nat → Nat} {names : List String}
    (hF : ∀ a ∈ names, F' a = F a) (v : String → Nat) {exprs : List SExpr}
    (h : CallsIn names exprs) : cost F' v exprs = cost F v exprs := by
  induction h with
  | nil => rfl
  | atom _ ih => rw [cost, cost, ih]; rfl
  | @list l sp exprs hP _ _ ihl ih =>
    rw [cost, cost, ih, costExpr, costExpr, ihl]
    congr 2
    unfold callCost
    split
    · rename_i hcall
      split
      · rename_i name hname
        rw [hF name (hP hcall name hname)]
      · rfl
    · rfl

/-- Every template has a name of its own and expands those before it. -/
inductive Ordered : List Template → Prop where
  | nil : Ordered []
  | concat {templates : List Template} {t : Template} (h : Ordered templates)
      (hname : ∀ t' ∈ templates, t'.name ≠ t.name)
      (hcalls : CallsIn (templates.map Template.name) t.content) : Ordered (templates ++ [t])

/-- More templates may be expanded. -/
theorem callsIn_mono {names names' : List String} (hsub : names ⊆ names') {exprs : List SExpr}
    (h : CallsIn names exprs) : CallsIn names' exprs := by
  induction h with
  | nil => exact .nil
  | atom _ ih => exact .atom ih
  | list hP _ _ ihl ih => exact .list (fun hcall a ha => hsub (hP hcall a ha)) ihl ih

/-- Each template expands templates of the list. -/
theorem Ordered.callsIn {templates : List Template} (h : Ordered templates) :
    ∀ t ∈ templates, CallsIn (templates.map Template.name) t.content := by
  induction h with
  | nil =>
    intro t hmem
    cases hmem
  | @concat templates t _ _ hcalls ih =>
    intro t' hmem
    have hsub : templates.map Template.name ⊆ (templates ++ [t]).map Template.name := by
      rw [List.map_append]
      exact List.subset_append_left _ _
    rcases List.mem_append.mp hmem with hmem | hmem
    · exact callsIn_mono hsub (ih t' hmem)
    · rw [List.mem_singleton.mp hmem]
      exact callsIn_mono hsub hcalls

/-- Templates in order have bounds: a new one is worth what its contents are. -/
theorem Ordered.exists_bounds {templates : List Template} (h : Ordered templates) :
    ∃ F, Bounds templates F := by
  induction h with
  | nil =>
    refine ⟨fun _ n => n, fun _ => monotone_id, fun _ n => Nat.le_refl n, ?_⟩
    intro t hmem
    cases hmem
  | @concat templates t hordered hname hcalls ih =>
    rcases ih with ⟨F, hF⟩
    -- the new template costs what its contents do when each parameter costs `n`; the others
    -- keep their bounds
    let F' : String → Nat → Nat := fun name n =>
      if name = t.name then n + cost F (paramCost t.varsSubstituteNames n) t.content
      else F name n
    have hself : ∀ n, F' t.name n =
        n + cost F (paramCost t.varsSubstituteNames n) t.content := fun n => if_pos rfl
    have hother : ∀ name ∈ templates.map Template.name, F' name = F name := by
      intro name hmem
      rcases List.mem_map.mp hmem with ⟨t', ht', rfl⟩
      exact funext fun n => if_neg (hname t' ht')
    refine ⟨F', ?_, ?_, ?_⟩
    · intro name m n hmn
      by_cases hn : name = t.name
      · rw [hn, hself, hself]
        refine Nat.add_le_add hmn (cost_mono hF.mono (fun a => ?_) _)
        unfold paramCost
        split
        · exact hmn
        · exact Nat.le_refl 1
      · simp only [F', if_neg hn]
        exact hF.mono name hmn
    · intro name n
      by_cases hn : name = t.name
      · rw [hn, hself]
        exact Nat.le_add_right n _
      · simp only [F', if_neg hn]
        exact hF.le name n
    · intro t' hmem n hn
      rcases List.mem_append.mp hmem with hmem | hmem
      · rw [cost_congr hother _ (hordered.callsIn t' hmem),
          hother _ (List.mem_map_of_mem hmem)]
        exact hF.content t' hmem n hn
      · rw [List.mem_singleton.mp hmem, hself, cost_congr hother _ hcalls]
        exact Nat.le_add_left _ n

/-- The check of `template-expand` finds the name among the templates before. -/
theorem validateAtom_ok {templates : List Template} {a : String} {sp : Span} {exprs : List SExpr}
    (h : validateAtom templates a sp exprs.head? = .ok ()) (ha : a = "template-expand" ∨ a = "t!")
    {name : String} (hname : headAtom exprs = some name) :
    name ∈ templates.map Template.name := by
  unfold validateAtom at h
  rw [if_neg (by rcases ha with rfl | rfl <;> decide), if_pos ha] at h
  match exprs, hname with
  | .atomNode b sp' :: _, hname =>
    cases hname
    simp only [List.head?_cons] at h
    split at h
    · rename_i hany
      rcases List.any_eq_true.mp hany with ⟨t, ht, hb⟩
      exact List.mem_map.mpr ⟨t, ht, beq_iff_eq.mp hb⟩
    · cases h

/-- Contents that are valid expand known templates. -/
theorem callsIn_of_validateAll {templates : List Template} {exprs : List SExpr}
    (h : validateAll templates exprs = .ok ()) :
    CallsIn (templates.map Template.name) exprs := by
  induction allLists_true exprs with
  | nil => exact .nil
  | atom _ ih =>
    rcases bind_eq_ok.mp h with ⟨_, -, h⟩
    exact .atom (ih h)
  | @list l sp exprs _ _ _ ihl ih =>
    rcases bind_eq_ok.mp h with ⟨_, hl, h⟩
    refine .list ?_ (ihl hl) (ih h)
    intro hcall name hname
    match l, hcall with
    | .atomNode a sp' :: rest, hcall =>
      rcases bind_eq_ok.mp hl with ⟨_, ha, -⟩
      exact validateAtom_ok ha (isExpand_cons.mp hcall) hname

/-- What `deftemplate` checks: the name is new, and the contents expand known templates. -/
theorem parseTemplate_ok {templates : List Template} {list : List SExpr} {span : Span}
    {t : Template} (h : parseTemplate templates list span = .ok t) :
    (∀ t' ∈ templates, t'.name ≠ t.name) ∧ t.content = list.drop 3 ∧
      CallsIn (templates.map Template.name) t.content := by
  rcases bind_eq_ok.mp h with ⟨name, hname, h⟩
  rcases bind_eq_ok.mp h with ⟨vars, -, h⟩
  rcases bind_eq_ok.mp h with ⟨_, hvalid, h⟩
  cases h
  refine ⟨?_, rfl, callsIn_of_validateAll hvalid⟩
  unfold parseTemplateName at hname
  split at hname
  · cases hname
  · cases hname
  · split at hname
    · cases hname
    · rename_i hany
      cases hname
      intro t' ht' heq
      exact hany (List.any_eq_true.mpr ⟨t', ht', beq_iff_eq.mpr heq⟩)

/-- The templates of a configuration are in order. -/
theorem ordered_parseTemplates : ∀ {toplevel : List (List SExpr × Span)}
    {templates templates' : List Template}, Ordered templates →
      parseTemplates toplevel templates = .ok templates' → Ordered templates'
  | [], _, _, hordered, h => by
    cases h
    exact hordered
  | (list, span) :: toplevel, templates, templates', hordered, h => by
    unfold parseTemplates at h
    split at h
    · rcases bind_eq_ok.mp h with ⟨t, ht, h⟩
      rcases parseTemplate_ok ht with ⟨hname, -, hcalls⟩
      exact ordered_parseTemplates (.concat hordered hname hcalls) h
    · exact ordered_parseTemplates hordered h

/-- The contents of the templates are at the top. -/
theorem mem_parseTemplates : ∀ {toplevel : List (List SExpr × Span)}
    {templates templates' : List Template}, parseTemplates toplevel templates = .ok templates' →
      ∀ t ∈ templates', t ∈ templates ∨
        ∃ tl ∈ toplevel, headAtom tl.1 = some "deftemplate" ∧ t.content = tl.1.drop 3
  | [], _, _, h => by
    cases h
    exact fun t hmem => .inl hmem
  | (list, span) :: toplevel, templates, templates', h => by
    have hlater : ∀ t : Template, (∃ tl ∈ toplevel, headAtom tl.1 = some "deftemplate" ∧
        t.content = tl.1.drop 3) → ∃ tl ∈ (list, span) :: toplevel,
          headAtom tl.1 = some "deftemplate" ∧ t.content = tl.1.drop 3 := by
      rintro t ⟨tl, hmem, htl⟩
      exact ⟨tl, List.mem_cons_of_mem _ hmem, htl⟩
    intro t hmem
    unfold parseTemplates at h
    split at h
    · rename_i hhead
      rcases bind_eq_ok.mp h with ⟨t', ht', h⟩
      rcases mem_parseTemplates h t hmem with hold | hnew
      · rcases List.mem_append.mp hold with hold | hhere
        · exact .inl hold
        · rw [List.mem_singleton.mp hhere]
          exact .inr ⟨_, List.mem_cons_self, hhead, (parseTemplate_ok ht').2.1⟩
      · exact .inr (hlater t hnew)
    · rcases mem_parseTemplates h t hmem with hold | hnew
      · exact .inl hold
      · exact .inr (hlater t hnew)

/-! ## An instance -/

/-- The template that is expanded has the name that is given. -/
theorem findTemplate_ok {templates : List Template} {l : List SExpr} {sp : Span} {t : Template}
    (h : findTemplate templates l sp = .ok t) : t ∈ templates ∧ nameOf l = some t.name := by
  unfold findTemplate at h
  split at h
  · cases h
  · cases h
  · rename_i name sp' hget
    split at h
    · cases h
    · rename_i template hfind
      cases h
      refine ⟨List.mem_of_find?_eq_some hfind, ?_⟩
      have hname : t.name = name := beq_iff_eq.mp (List.find?_some hfind :)
      unfold nameOf headAtom
      rw [List.head?_drop, hget, hname]
      rfl

/-- The contents of a template with the values of an expansion. -/
def parameterized (t : Template) (l : List SExpr) : List SExpr :=
  joinLists (substitute (t.varsSubstituteNames.zip (l.drop 2)) t.content)

/-- Only the conditionals of an instance need fuel. -/
theorem instantiate_cases (templates : List Template) (l : List SExpr) (sp : Span) :
    (∃ e, ∀ fuel, instantiate templates fuel l sp = .error (some e)) ∨
      ∃ t ∈ templates, nameOf l = some t.name ∧
        ∀ fuel, instantiate templates fuel l sp = evaluateAll fuel (parameterized t l) := by
  rcases hfind : findTemplate templates l sp with e | t
  · refine .inl ⟨e, fun fuel => ?_⟩
    unfold instantiate
    rw [hfind]
    rfl
  · by_cases hlen : l.length - 2 ≠ t.vars.length
    · left
      unfold instantiate
      rw [hfind]
      exact ⟨_, fun fuel => if_pos hlen⟩
    · rcases findTemplate_ok hfind with ⟨hmem, hname⟩
      refine .inr ⟨t, hmem, hname, fun fuel => ?_⟩
      unfold instantiate
      rw [hfind]
      exact if_neg hlen

/-- In the contents of the template no parameter is a head, or the name of an expansion. -/
structure Template.Disciplined (t : Template) : Prop where
  headed : Headed t.content
  fixed : Fixed t.varsSubstituteNames t.content

theorem lookup_zip_of_not_mem {vars : List String} (values : List SExpr) {a : String}
    (ha : a ∉ vars) : (vars.zip values).lookup a = none := by
  rw [Assoc.lookup_eq_none]
  intro hmem
  rcases List.mem_map.mp hmem with ⟨p, hp, rfl⟩
  exact ha (List.of_mem_zip hp).1

theorem mem_of_lookup_zip {vars : List String} {l : List SExpr} {a : String} {expr : SExpr}
    (h : (vars.zip (l.drop 2)).lookup a = some expr) : expr ∈ l :=
  List.mem_of_mem_drop (List.of_mem_zip (Assoc.mem_of_lookup h)).2

theorem one_le_cost_of_nameOf {F : String → Nat → Nat} {l : List SExpr} {name : String}
    (h : nameOf l = some name) : 1 ≤ cost F atomCost l := by
  have hdrop := cost_drop_le (F := F) atomCost l 1
  unfold nameOf at h
  match hrest : l.drop 1, h with
  | .atomNode a sp :: exprs, _ =>
    rw [hrest, cost] at hdrop
    exact Nat.le_trans (Nat.le_add_right 1 _) hdrop

section Passes

variable {templates : List Template} {F : String → Nat → Nat}

/-- With the parameters in place the contents cost no more than the bound of the template. -/
theorem parameterized_keeps (hF : Bounds templates F) {t : Template} (ht : t ∈ templates)
    (hdisc : t.Disciplined) {l : List SExpr} (hname : nameOf l = some t.name)
    (hl : Headed l) : Headed (parameterized t l) ∧
      cost F atomCost (parameterized t l) ≤ F t.name (cost F atomCost l) := by
  have hnone : ∀ a ∉ t.varsSubstituteNames,
      (t.varsSubstituteNames.zip (l.drop 2)).lookup a = none :=
    fun a ha => lookup_zip_of_not_mem _ ha
  have hheaded := headed_substitute hnone (fun a expr h => hl.mem (mem_of_lookup_zip h))
    hdisc.headed hdisc.fixed
  refine ⟨headed_joinLists hheaded, ?_⟩
  calc cost F atomCost (parameterized t l)
      ≤ cost F atomCost (substitute (t.varsSubstituteNames.zip (l.drop 2)) t.content) :=
        cost_joinLists hF.mono hheaded
    _ ≤ cost F (paramCost t.varsSubstituteNames (cost F atomCost l)) t.content :=
        cost_substitute hF.mono hnone
          (fun a expr h => costExpr_le_cost atomCost (mem_of_lookup_zip h))
          (one_le_cost_of_nameOf hname) hdisc.headed hdisc.fixed
    _ ≤ F t.name (cost F atomCost l) :=
        hF.content t ht _ (one_le_cost_of_nameOf hname)

/-- An expansion costs the bound of its template. -/
theorem costExpr_expansion {l : List SExpr} (hcall : isExpand l = true) {name : String}
    (hname : nameOf l = some name) (sp : Span) :
    costExpr F atomCost (.listNode l sp) = 1 + F name (cost F atomCost l) := by
  rw [costExpr]
  unfold callCost
  rw [if_pos hcall, hname]

/-- An instance is worth less than its expansion. -/
theorem instantiate_keeps (hF : Bounds templates F) (hdisc : ∀ t ∈ templates, t.Disciplined)
    {fuel : Nat} {l content : List SExpr} {sp : Span} (hcall : isExpand l = true)
    (hl : Headed l) (h : instantiate templates fuel l sp = .ok content) :
    Headed content ∧ cost F atomCost content < costExpr F atomCost (.listNode l sp) := by
  rcases instantiate_cases templates l sp with ⟨e, herror⟩ | ⟨t, ht, hname, heq⟩
  · cases (herror fuel).symm.trans h
  · rw [heq] at h
    rcases parameterized_keeps hF ht (hdisc t ht) hname hl with ⟨hheaded, hcost⟩
    rcases evaluateAll_keeps hF.mono hheaded h with ⟨hheaded', hcost'⟩
    rw [costExpr_expansion hcall hname]
    exact ⟨hheaded', by omega⟩

/-- An instance does not run out of fuel that its expansion has. -/
theorem instantiate_total (hF : Bounds templates F) (hdisc : ∀ t ∈ templates, t.Disciplined)
    {fuel : Nat} {l : List SExpr} {sp : Span} (hcall : isExpand l = true) (hl : Headed l)
    (hfuel : costExpr F atomCost (.listNode l sp) < fuel + 1) :
    instantiate templates fuel l sp ≠ .error none := by
  rcases instantiate_cases templates l sp with ⟨e, herror⟩ | ⟨t, ht, hname, heq⟩
  · rw [herror]
    exact some_ne_none e
  · rw [heq]
    have hcost := (parameterized_keeps hF ht (hdisc t ht) hname hl).2
    have hnodes := nodes_le_cost hF.le (parameterized t l)
    rw [costExpr_expansion hcall hname] at hfuel
    exact evaluateAll_total (by omega)

/-- Nor does more fuel change it. -/
theorem instantiate_succ {fuel : Nat} {l : List SExpr} {sp : Span}
    (h : instantiate templates fuel l sp ≠ .error none) :
    instantiate templates (fuel + 1) l sp = instantiate templates fuel l sp := by
  rcases instantiate_cases templates l sp with ⟨e, herror⟩ | ⟨t, -, -, heq⟩
  · rw [herror, herror]
  · rw [heq] at h
    rw [heq, heq]
    exact evaluateAll_succ h

/-! ## A pass -/

/-- What a pass and the calls for the lists inside keep. -/
structure Keeps (F : String → Nat → Nat) (exprs exprs' : List SExpr) : Prop where
  sameHead : wellHeaded exprs = true → SameHead exprs exprs'
  headed : Headed exprs'
  cost : cost F atomCost exprs' ≤ cost F atomCost exprs

/-- What a pass makes of a list that is no expansion, and of one that is. -/
theorem pass_list {fuel : Nat} {deeper : List SExpr → Steps (List SExpr)}
    {l exprs r : List SExpr} {sp : Span} {replaced : Bool}
    (h : pass templates fuel deeper (.listNode l sp :: exprs) = .ok (r, replaced)) :
    ∃ rest replaced', pass templates fuel deeper exprs = .ok (rest, replaced') ∧
      ((isExpand l = false ∧ replaced = replaced' ∧
          ∃ l', deeper l = .ok l' ∧ r = .listNode l' sp :: rest) ∨
        (isExpand l = true ∧ replaced = true ∧
          ∃ content, instantiate templates fuel l sp = .ok content ∧ r = content ++ rest)) := by
  rcases bind_eq_ok.mp h with ⟨⟨here, replaced₁⟩, hhere, h⟩
  rcases bind_eq_ok.mp h with ⟨⟨rest, replaced₂⟩, hrest, h⟩
  cases h
  refine ⟨rest, replaced₂, hrest, ?_⟩
  rw [passExpr] at hhere
  split at hhere
  · rename_i hcall
    rcases bind_eq_ok.mp hhere with ⟨content, hcontent, hhere⟩
    cases hhere
    exact .inr ⟨hcall, rfl, _, hcontent, rfl⟩
  · rename_i hcall
    rcases bind_eq_ok.mp hhere with ⟨l', hl', hhere⟩
    cases hhere
    exact .inl ⟨Bool.eq_false_of_not_eq_true hcall, Bool.false_or _, l', hl', rfl⟩

/-- A pass leaves atoms alone. -/
theorem pass_atom {fuel : Nat} {deeper : List SExpr → Steps (List SExpr)}
    {a : String} {exprs r : List SExpr} {sp : Span} {replaced : Bool}
    (h : pass templates fuel deeper (.atomNode a sp :: exprs) = .ok (r, replaced)) :
    ∃ rest, r = .atomNode a sp :: rest ∧
      pass templates fuel deeper exprs = .ok (rest, replaced) := by
  rcases bind_eq_ok.mp h with ⟨⟨here, replaced₁⟩, hhere, h⟩
  rcases bind_eq_ok.mp h with ⟨⟨rest, replaced₂⟩, hrest, h⟩
  cases hhere
  cases h
  exact ⟨rest, rfl, hrest⟩

/-- A list that stays has no head that is replaced. -/
theorem isExpand_of_stays {l : List SExpr} (h : stays l = true) : isExpand l = false := by
  by_contra hcall
  unfold isExpand at hcall
  simp only [Bool.not_eq_false, Bool.or_eq_true, decide_eq_true_eq] at hcall
  rcases hcall with hhead | hhead
  · exact not_mem_words h hhead (by decide)
  · exact not_mem_words h hhead (by decide)

variable {fuel : Nat} {deeper : List SExpr → Steps (List SExpr)}

/-- A pass keeps the head of a list that is no expansion. -/
theorem sameHead_pass
    (hdeeper : ∀ l l', Headed l → deeper l = .ok l' → Keeps F l l')
    {l l' : List SExpr} {replaced : Bool} (hl : wellHeaded l = true) (hheaded : Headed l)
    (h : pass templates fuel deeper l = .ok (l', replaced)) : SameHead l l' := by
  refine sameHead_of_copies
    (fun l l' => ∃ replaced, pass templates fuel deeper l = .ok (l', replaced))
    (fun _ => True) ?_ ?_ hl ?_ (fun _ _ => trivial) (fun _ _ _ => trivial) ⟨replaced, h⟩
  · rintro l' ⟨replaced, h⟩
    cases h
    rfl
  -- an atom is copied
  · rintro a sp exprs l' - ⟨replaced, h⟩
    rcases pass_atom h with ⟨rest, hr, hrest⟩
    exact ⟨rest, hr, replaced, hrest⟩
  -- a list that stays is no expansion, so it keeps its place
  · rintro l₁ sp exprs rfl hstays
    rcases pass_list h with ⟨rest, -, -, ⟨-, -, l₂, hl₂, rfl⟩ | ⟨hcall, -⟩⟩
    · rcases hheaded.items with ⟨hl₁, hheaded₁⟩
      exact ⟨l₂, rest, rfl, ((hdeeper l₁ l₂ hheaded₁ hl₂).sameHead hl₁).head⟩
    · rw [isExpand_of_stays hstays] at hcall
      cases hcall

/-- A pass keeps the forms. One that replaces something lowers the cost, and one that replaces
nothing has no expansion left. -/
theorem pass_keeps (hF : Bounds templates F) (hdisc : ∀ t ∈ templates, t.Disciplined)
    (hdeeper : ∀ l l', Headed l → deeper l = .ok l' → Keeps F l l')
    (hnocalls : ∀ l l', Headed l → deeper l = .ok l' → NoCalls l')
    {exprs : List SExpr} (hexprs : Headed exprs) : ∀ {r : List SExpr} {replaced : Bool},
      pass templates fuel deeper exprs = .ok (r, replaced) →
        Keeps F exprs r ∧ (replaced = true → cost F atomCost r < cost F atomCost exprs) ∧
          (replaced = false → NoCalls r) := by
  induction hexprs with
  | nil =>
    intro r replaced h
    cases h
    refine ⟨⟨fun _ => ⟨rfl, fun _ => rfl, rfl⟩, .nil, Nat.le_refl _⟩, ?_, fun _ => .nil⟩
    intro hreplaced
    cases hreplaced
  | @atom a sp exprs hexprs ih =>
    intro r replaced h
    have hhead := fun hl => sameHead_pass hdeeper hl (.atom hexprs) h
    rcases pass_atom h with ⟨rest, rfl, hrest⟩
    rcases ih hrest with ⟨hkeeps, hless, hdone⟩
    refine ⟨⟨hhead, .atom hkeeps.headed, Nat.add_le_add_left hkeeps.cost _⟩, ?_, ?_⟩
    · exact fun hreplaced => Nat.add_lt_add_left (hless hreplaced) _
    · exact fun hreplaced => .atom (hdone hreplaced)
  | @list l sp exprs hl hheaded hexprs _ ih =>
    intro r replaced h
    have hhead := fun hl' => sameHead_pass hdeeper hl' (.list hl hheaded hexprs) h
    rcases pass_list h with ⟨rest, replaced', hrest, hcases⟩
    rcases ih hrest with ⟨hkeeps, hless, hdone⟩
    rcases hcases with ⟨hcall, rfl, l', hl', rfl⟩ | ⟨hcall, rfl, content, hcontent, rfl⟩
    · have hinside := hdeeper l l' hheaded hl'
      have hsame := hinside.sameHead hl
      have hle : costExpr F atomCost (.listNode l' sp) ≤ costExpr F atomCost (.listNode l sp) := by
        rw [costExpr, costExpr, callCost_of_sameHead hsame]
        exact Nat.add_le_add_left (callCost_mono hF.mono l hinside.cost) 1
      refine ⟨⟨hhead, .list hsame.wellHeaded hinside.headed hkeeps.headed,
        Nat.add_le_add hle hkeeps.cost⟩, ?_, ?_⟩
      · exact fun hreplaced => Nat.add_lt_add_of_le_of_lt hle (hless hreplaced)
      · exact fun hreplaced => .list (hsame.isExpand.trans hcall)
          (hnocalls l l' hheaded hl') (hdone hreplaced)
    · rcases instantiate_keeps hF hdisc hcall hheaded hcontent with ⟨hheaded', hcost⟩
      -- the instance is worth less than the expansion that it replaces
      have hlt : cost F atomCost (content ++ rest) <
          cost F atomCost (.listNode l sp :: exprs) := by
        rw [cost_append, cost]
        exact Nat.add_lt_add_of_lt_of_le hcost hkeeps.cost
      refine ⟨⟨hhead, hheaded'.append hkeeps.headed, Nat.le_of_lt hlt⟩, fun _ => hlt, ?_⟩
      intro hreplaced
      cases hreplaced

/-- Steps that have fuel enough, one after the other. -/
theorem bind_ne_none {α β : Type} {x : Steps α} {f : α → Steps β} (hx : x ≠ .error none)
    (hf : ∀ a, x = .ok a → f a ≠ .error none) : (x >>= f) ≠ .error none := by
  match x, hx with
  | .ok a, _ => exact hf a rfl
  | .error none, hx => exact absurd rfl hx
  | .error (some e), _ => exact some_ne_none e

/-- A pass does not run out of fuel when the calls for the lists inside do not. -/
theorem pass_total (hF : Bounds templates F) (hdisc : ∀ t ∈ templates, t.Disciplined)
    (hdeeper : ∀ l, Headed l → cost F atomCost l < fuel → deeper l ≠ .error none)
    {exprs : List SExpr} (hexprs : Headed exprs) (hfuel : cost F atomCost exprs < fuel + 1) :
    pass templates fuel deeper exprs ≠ .error none := by
  induction hexprs with
  | nil => exact ok_ne_none _
  | atom _ ih =>
    rw [cost] at hfuel
    refine bind_ne_none (ok_ne_none _) fun here _ => ?_
    exact bind_ne_none (ih (by omega)) fun rest _ => ok_ne_none _
  | @list l sp exprs hl hheaded _ _ ih =>
    rw [cost] at hfuel
    refine bind_ne_none ?_ fun here _ =>
      bind_ne_none (ih (by omega)) fun rest _ => ok_ne_none _
    rw [passExpr]
    split
    · rename_i hcall
      exact bind_ne_none (instantiate_total hF hdisc hcall hheaded (by omega))
        fun content _ => ok_ne_none _
    · rename_i hcall
      refine bind_ne_none (hdeeper l hheaded ?_) fun l' _ => ok_ne_none _
      rw [costExpr, callCost_of_not (Bool.eq_false_of_not_eq_true hcall)] at hfuel
      omega

end Passes

/-! ## The expansion -/

section Expand

variable {templates : List Template} {F : String → Nat → Nat}

/-- All passes together: the forms stay, the cost does not grow, and no expansion is left. -/
theorem expand_keeps (hF : Bounds templates F) (hdisc : ∀ t ∈ templates, t.Disciplined) :
    ∀ {fuel : Nat} {exprs r : List SExpr}, Headed exprs →
      expand templates fuel exprs = .ok r → Keeps F exprs r ∧ NoCalls r
  | 0, _, _, _, h => nomatch h
  | fuel + 1, exprs, r, hexprs, h => by
    rcases bind_eq_ok.mp h with ⟨⟨exprs', replaced⟩, hpass, h⟩
    rcases pass_keeps hF hdisc (fun l l' hl hl' => (expand_keeps hF hdisc hl hl').1)
      (fun l l' hl hl' => (expand_keeps hF hdisc hl hl').2) hexprs hpass with
      ⟨hkeeps, -, hdone⟩
    cases replaced with
    | false =>
      cases h
      exact ⟨hkeeps, hdone rfl⟩
    | true =>
      rcases expand_keeps hF hdisc hkeeps.headed h with ⟨hkeeps', hnocalls⟩
      refine ⟨⟨fun hl => ?_, hkeeps'.headed, Nat.le_trans hkeeps'.cost hkeeps.cost⟩, hnocalls⟩
      have hfirst := hkeeps.sameHead hl
      exact hfirst.trans (hkeeps'.sameHead hfirst.wellHeaded)

/-- The passes end, as every one of them that goes on lowers the cost. -/
theorem expand_total (hF : Bounds templates F) (hdisc : ∀ t ∈ templates, t.Disciplined) :
    ∀ {fuel : Nat} {exprs : List SExpr}, Headed exprs → cost F atomCost exprs < fuel →
      expand templates fuel exprs ≠ .error none
  | 0, _, _, h => absurd h (Nat.not_lt_zero _)
  | fuel + 1, exprs, hexprs, h => by
    refine bind_ne_none (pass_total hF hdisc
      (fun l hl hcost => expand_total hF hdisc hl hcost) hexprs h) ?_
    rintro ⟨exprs', replaced⟩ hpass
    rcases pass_keeps hF hdisc (fun l l' hl hl' => (expand_keeps hF hdisc hl hl').1)
      (fun l l' hl hl' => (expand_keeps hF hdisc hl hl').2) hexprs hpass with
      ⟨hkeeps, hless, -⟩
    cases replaced with
    | false => exact ok_ne_none _
    | true =>
      have := hless rfl
      exact expand_total hF hdisc hkeeps.headed (by omega)

end Expand

/-! More fuel changes nothing. -/

/-- Steps that agree as long as fuel is left. -/
theorem bind_congr_of_ne {α β : Type} {x x' : Steps α} {f f' : α → Steps β}
    (h : (x >>= f) ≠ .error none) (hx : x ≠ .error none → x' = x)
    (hf : ∀ a, x = .ok a → f a ≠ .error none → f' a = f a) : (x' >>= f') = (x >>= f) := by
  match x, h, hx, hf with
  | .ok a, h, hx, hf =>
    rw [hx (ok_ne_none a)]
    exact hf a rfl h
  | .error none, h, _, _ => exact absurd rfl h
  | .error (some e), _, hx, _ =>
    rw [hx (some_ne_none e)]
    rfl

/-- A pass with more fuel. -/
theorem pass_succ {templates : List Template} {fuel : Nat}
    {deeper deeper' : List SExpr → Steps (List SExpr)}
    (hdeeper : ∀ l, deeper l ≠ .error none → deeper' l = deeper l) : ∀ {exprs : List SExpr},
      pass templates fuel deeper exprs ≠ .error none →
        pass templates (fuel + 1) deeper' exprs = pass templates fuel deeper exprs
  | [], _ => rfl
  | expr :: exprs, h => by
    refine bind_congr_of_ne h (fun hhere => ?_) fun here _ h =>
      bind_congr_of_ne h (fun hrest => pass_succ hdeeper hrest) fun rest _ _ => rfl
    match expr with
    | .atomNode a sp => rfl
    | .listNode l sp =>
      by_cases hcall : isExpand l = true
      · simp only [passExpr, if_pos hcall] at hhere ⊢
        exact bind_congr_of_ne hhere (fun h => instantiate_succ h) fun content _ _ => rfl
      · simp only [passExpr, if_neg hcall] at hhere ⊢
        exact bind_congr_of_ne hhere (fun h => hdeeper l h) fun l' _ _ => rfl

/-- All passes with more fuel. -/
theorem expand_succ {templates : List Template} : ∀ {fuel : Nat} {exprs : List SExpr},
    expand templates fuel exprs ≠ .error none →
      expand templates (fuel + 1) exprs = expand templates fuel exprs
  | 0, _, h => absurd rfl h
  | fuel + 1, exprs, h => by
    refine bind_congr_of_ne h (fun hpass => pass_succ (fun l hl => expand_succ hl) hpass) ?_
    rintro ⟨exprs', replaced⟩ -
    cases replaced with
    | false => exact fun _ => rfl
    | true => exact fun h => expand_succ h

/-- Any fuel that is enough gives the same. -/
theorem expand_of_le {templates : List Template} {fuel fuel' : Nat} {exprs : List SExpr}
    (hle : fuel ≤ fuel') (h : expand templates fuel exprs ≠ .error none) :
    expand templates fuel' exprs = expand templates fuel exprs := by
  induction hle with
  | refl => rfl
  | step _ ih => rw [expand_succ (ih ▸ h), ih]

end Kanata.Templates
