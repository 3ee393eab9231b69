import Mathlib.Data.List.Count
import TekLang.Proofs.Grammar.Places
import TekLang.Proofs.Lint.Reports
import TekLang.Proofs.Lint.Resolution

/-!
# What a check finds on a walk

A check finds nothing twice if it does not at one node and a finding tells which node it is about.
By its place it does: a spelt token stands at one node of a text, and so does the beginning of a
construct that has a word of its own in front. Four of the rules make at most one finding at a node;
that on the bodies of classes makes one for each member, and the place of its value tells the
member.
-/

namespace TekLang

/-- What a check finds on the walk through a program. -/
def findings (check : Site → List Finding) (program : Node) (tree : ScopeTree) : List Finding :=
  ((walk program tree).filter (·.phase = .enter)).flatMap fun v => check (v.site tree)

theorem Finding.diagnostic_injective (rule : String) :
    Function.Injective (Finding.diagnostic rule) := by
  rintro ⟨message, span⟩ ⟨message', span'⟩ same
  cases same
  rfl

section Findings

variable {program : Node} {tree : ScopeTree} {check : Site → List Finding} {f : Finding}

theorem mem_findings : f ∈ findings check program tree ↔
    ∃ v ∈ walk program tree, v.phase = .enter ∧ f ∈ check (v.site tree) := by
  simp [findings, and_assoc]

theorem count_findings_append (check check' : Site → List Finding) :
    (findings (fun site => check site ++ check' site) program tree).count f =
      (findings check program tree).count f + (findings check' program tree).count f := by
  unfold findings
  induction (walk program tree).filter (·.phase = .enter) with
  | nil => rfl
  | cons v vs ih =>
    simp only [List.flatMap_cons, List.count_append, ih]
    omega

/-- A check finds nothing twice if it does not at one node and a finding tells the node. -/
theorem nodup_findings (distinct : (program.descendants.map (·.id)).Nodup)
    (alone : ∀ v ∈ walk program tree, (check (v.site tree)).Nodup)
    (apart : ∀ v ∈ walk program tree, ∀ w ∈ walk program tree, ∀ f ∈ check (v.site tree),
      f ∈ check (w.site tree) → v.node = w.node) : (findings check program tree).Nodup := by
  refine List.nodup_flatMap.2 ⟨fun v entered => alone v (List.mem_of_mem_filter entered), ?_⟩
  refine (Walk.nodup_entered distinct tree).pairwise_of_forall_ne ?_
  intro v entered w entered' differs f found found'
  obtain ⟨visits, enters⟩ := List.mem_filter.1 entered
  obtain ⟨visits', enters'⟩ := List.mem_filter.1 entered'
  have node := apart v visits w visits' f found found'
  exact differs (Walk.eq_of_entered distinct visits visits' (of_decide_eq_true enters)
    (of_decide_eq_true enters') (congrArg Node.id node))

/-- A check that makes at most one finding at a node, with a place that tells the node. -/
theorem nodup_findings_of_place (distinct : (program.descendants.map (·.id)).Nodup)
    (Place : Node → Span → Prop)
    (here : ∀ v ∈ walk program tree, check (v.site tree) = [] ∨
      ∃ message span, Place v.node span ∧ check (v.site tree) = [⟨message, span⟩])
    (apart : ∀ n ∈ program.descendants, ∀ m ∈ program.descendants, ∀ span,
      Place n span → Place m span → n = m) : (findings check program tree).Nodup := by
  refine nodup_findings distinct ?_ ?_
  · intro v visits
    rcases here v visits with none | ⟨message, span, -, one⟩
    · exact none ▸ .nil
    · exact one ▸ List.nodup_singleton _
  · intro v visits w visits' f found found'
    rcases here v visits with none | ⟨message, span, place, one⟩
    · rw [none] at found
      cases found
    rcases here w visits' with none | ⟨message', span', place', one'⟩
    · rw [none] at found'
      cases found'
    rw [one] at found
    rw [one'] at found'
    cases List.mem_singleton.1 found
    cases List.mem_singleton.1 found'
    exact apart v.node (Walk.mem_descendants_of_mem visits) w.node
      (Walk.mem_descendants_of_mem visits') span place place'

/-- A node with a number of its own has one parent. -/
theorem Node.eq_of_child (distinct : (program.descendants.map (·.id)).Nodup) {n p q : Node}
    (below : p ∈ program.descendants) (below' : q ∈ program.descendants) (stands : n ∈ p.children)
    (stands' : n ∈ q.children) : p = q := by
  have entered {p : Node} (below : p ∈ program.descendants) (stands : n ∈ p.children) :
      ∃ scope around, ⟨.enter, n, scope, p :: around⟩ ∈ walk program (.ofProgram 0) := by
    obtain ⟨scope, around, entered⟩ := Walk.exists_entered (.ofProgram 0) below
    rw [← p.map_snd_placed] at stands
    obtain ⟨⟨region, n⟩, placed, rfl⟩ := List.mem_map.1 stands
    exact ⟨_, _, Walk.entered_of_placed entered placed⟩
  obtain ⟨scope, around, first⟩ := entered below stands
  obtain ⟨scope', around', second⟩ := entered below' stands'
  cases Walk.eq_of_entered distinct first second rfl rfl rfl
  rfl

theorem Node.nodup_parts (distinct : (program.descendants.map (·.id)).Nodup) {n : Node}
    (below : n ∈ program.descendants) : n.form.parts.Nodup := by
  have nodes := (distinct.of_map).sublist (Node.descendants_sublist below)
  rw [Node.descendants_eq, List.nodup_cons, List.nodup_flatMap] at nodes
  refine n.children_perm.nodup_iff.1 (nodes.2.2.imp ?_)
  rintro child _ apart rfl
  exact apart child.mem_descendants_self child.mem_descendants_self

end Findings

/-- A report is a finding of a rule that runs. -/
theorem exists_finding_of_mem_lint {config : LintConfig} {program : Node} {tree : ScopeTree}
    {d : Diagnostic} (reported : d ∈ lint config program tree) :
    ∃ r ∈ config.rules, config.disabled.contains r.name = false ∧
      ∃ f : Finding, d = f.diagnostic r.name := by
  rw [lint, mem_inSourceOrder, List.mem_flatMap] at reported
  obtain ⟨v, -, reported⟩ := reported
  obtain ⟨r, runs, reported⟩ := List.mem_flatMap.1 reported
  obtain ⟨f, -, rfl⟩ := List.mem_map.1 reported
  obtain ⟨there, enabled⟩ := List.mem_filter.1 runs
  exact ⟨r, there, by simpa [LintConfig.isEnabled] using enabled, f, rfl⟩

theorem not_mem_lint_of_disabled {config : LintConfig} {d : Diagnostic}
    (disabled : config.disabled.contains d.source = true) (program : Node) (tree : ScopeTree) :
    d ∉ lint config program tree := by
  intro reported
  obtain ⟨r, -, enabled, f, rfl⟩ := exists_finding_of_mem_lint reported
  cases enabled.symm.trans disabled

/-- A rule that runs reports each finding as often as it is found. -/
theorem count_lint {config : LintConfig} {r : Rule} (there : r ∈ config.rules)
    (enabled : config.disabled.contains r.name = false) (program : Node) (tree : ScopeTree)
    (f : Finding) : (lint config program tree).count (f.diagnostic r.name) =
      (findings r.check program tree).count f := by
  have own : ((lint config program tree).filter (·.source = r.name)).count (f.diagnostic r.name) =
      (lint config program tree).count (f.diagnostic r.name) :=
    List.count_filter (decide_eq_true rfl)
  rw [← own, filter_lint there enabled, (inSourceOrder_perm ..).count_eq, ← List.map_flatMap]
  exact List.count_map_of_injective _ _ (Finding.diagnostic_injective r.name) f

section Text

variable {source : String} {tree : ScopeTree} {check : Site → List Finding}

/-- Findings that have the place of a node which begins with a word of its own. -/
theorem nodup_findings_of_announced (here : ∀ site, check site = [] ∨
      site.node.form.isAnnounced = true ∧ ∃ message, check site = [⟨message, site.node.span⟩]) :
    (findings check (parse (lex source).tokens).program tree).Nodup := by
  refine nodup_findings_of_place (parse_ids_nodup _)
    (fun n span => n.form.isAnnounced = true ∧ span = n.span) ?_ ?_
  · intro v _
    refine (here (v.site tree)).imp_right ?_
    rintro ⟨announced, message, one⟩
    exact ⟨message, v.node.span, ⟨announced, rfl⟩, one⟩
  · rintro n below m below' span ⟨announced, rfl⟩ ⟨announced', same⟩
    exact eq_of_start below below' announced announced' (congrArg Span.start same)

/-- Findings that have the place of a token with a spelling which the node holds. -/
theorem nodup_findings_of_token (here : ∀ v ∈ walk (parse (lex source).tokens).program tree,
      check (v.site tree) = [] ∨ ∃ t ∈ v.node.form.tokens, t.kind.isContent = true ∧
        ∃ message, check (v.site tree) = [⟨message, t.span⟩]) :
    (findings check (parse (lex source).tokens).program tree).Nodup := by
  refine nodup_findings_of_place (parse_ids_nodup _)
    (fun n span => ∃ t ∈ n.form.tokens, t.kind.isContent = true ∧ span = t.span) ?_ ?_
  · intro v visits
    refine (here v visits).imp_right ?_
    rintro ⟨t, holds, spelt, message, one⟩
    exact ⟨message, t.span, ⟨t, holds, spelt, rfl⟩, one⟩
  · rintro n below m below' span ⟨t, holds, spelt, rfl⟩ ⟨u, holds', spelt', same⟩
    exact eq_of_token below below' holds holds' spelt spelt' (congrArg Span.start same)

/-- Findings about constituents of the node, if a finding tells the constituent. -/
theorem nodup_findings_of_parts (Meant : Node → Prop) (g : Node → Option Finding)
    (parts : ∀ v ∈ walk (parse (lex source).tokens).program tree, ∃ ms : List Node,
      ms.Sublist v.node.form.parts ∧ (∀ m ∈ ms, Meant m) ∧ check (v.site tree) = ms.filterMap g)
    (apart : ∀ m ∈ (parse (lex source).tokens).program.descendants,
      ∀ m' ∈ (parse (lex source).tokens).program.descendants, Meant m → Meant m' →
        ∀ f, g m = some f → g m' = some f → m = m') :
    (findings check (parse (lex source).tokens).program tree).Nodup := by
  have distinct := parse_ids_nodup (lex source).tokens
  have below {v : Visit} (visits : v ∈ walk (parse (lex source).tokens).program tree) {m : Node}
      (stands : m ∈ v.node.form.parts) :
      m ∈ (parse (lex source).tokens).program.descendants := by
    have under := Node.mem_descendants_of_child (Node.mem_children.2 stands) m.mem_descendants_self
    exact (Node.descendants_sublist (Walk.mem_descendants_of_mem visits)).subset under
  refine nodup_findings distinct ?_ ?_
  · intro v visits
    obtain ⟨ms, part, meant, finds⟩ := parts v visits
    have each := (Node.nodup_parts distinct (Walk.mem_descendants_of_mem visits)).sublist part
    rw [finds]
    refine List.pairwise_filterMap.2 (each.imp_of_mem ?_)
    rintro m m' there there' differs f found _ found' rfl
    exact differs (apart m (below visits (part.subset there)) m' (below visits (part.subset there'))
      (meant m there) (meant m' there') f found found')
  · intro v visits w visits' f found found'
    obtain ⟨ms, part, meant, finds⟩ := parts v visits
    obtain ⟨ms', part', meant', finds'⟩ := parts w visits'
    rw [finds] at found
    rw [finds'] at found'
    obtain ⟨m, there, found⟩ := List.mem_filterMap.1 found
    obtain ⟨m', there', found'⟩ := List.mem_filterMap.1 found'
    obtain rfl := apart m (below visits (part.subset there)) m'
      (below visits' (part'.subset there')) (meant m there) (meant' m' there') f found found'
    exact Node.eq_of_child distinct (Walk.mem_descendants_of_mem visits)
      (Walk.mem_descendants_of_mem visits') (Node.mem_children.2 (part.subset there))
      (Node.mem_children.2 (part'.subset there'))

end Text

namespace Undefined

theorem nodup_findings (source : String) (globals : NameSet) (tree : ScopeTree) :
    (findings (check globals) (parse (lex source).tokens).program tree).Nodup := by
  refine nodup_findings_of_token fun v visits => ?_
  unfold check
  split
  · exact .inl rfl
  · next name used =>
    split
    · exact .inl rfl
    · refine .inr ⟨name, mem_tokens_of_used used, ?_, _, rfl⟩
      rw [parse_usedName (Walk.mem_descendants_of_mem visits) used]
      rfl

end Undefined

namespace ClassPlacement

theorem nodup_findings (source : String) (tree : ScopeTree) :
    (findings check (parse (lex source).tokens).program tree).Nodup := by
  refine nodup_findings_of_announced fun site => ?_
  unfold check
  split
  · next form =>
    split
    · exact .inl rfl
    · exact .inr ⟨by rw [form]; rfl, _, rfl⟩
  · exact .inl rfl

end ClassPlacement

namespace ControlPlacement

theorem isAnnounced_of_requirement {form : Form Node} {r : Requirement}
    (requires : requirement? form.kind = some r) : form.isAnnounced = true := by
  cases form with
  | assignment | binary | call | index | member | instanceOf | expressionStmt | program
  | classMember => cases requires
  | _ => rfl

theorem nodup_findings (source : String) (tree : ScopeTree) :
    (findings check (parse (lex source).tokens).program tree).Nodup := by
  refine nodup_findings_of_announced fun site => ?_
  unfold check
  split
  · exact .inl rfl
  · next r requires =>
    split
    · exact .inl rfl
    · exact .inr ⟨isAnnounced_of_requirement requires, _, rfl⟩

end ControlPlacement

namespace IfValue

theorem nodup_findings (source : String) (tree : ScopeTree) :
    (findings check (parse (lex source).tokens).program tree).Nodup := by
  refine nodup_findings_of_announced fun site => ?_
  unfold check
  split
  · next form => exact .inr ⟨by rw [form]; rfl, _, rfl⟩
  · exact .inl rfl

end IfValue

namespace ClassBody

/-- What stands among the members of a class stands in a class. -/
theorem isAnnounced_of_member {form : Form Node} {m : Node} (stands : (.member, m) ∈ form.fields) :
    form.isAnnounced = true := by
  cases form with
  | classDecl => rfl
  | _ => simp [Form.fields, Form.mem_inField] at stands

theorem mem_children_of_value {n value : Node} {isStatic : Bool}
    (form : n.form = .classMember isStatic value) : value ∈ n.children := by
  rw [Node.mem_children, form]
  exact List.mem_cons_self

/-- What is below the value of a member of a class and is a member itself starts behind the start of
    that value, for the class that it belongs to begins there or behind. -/
theorem start_lt_of_member {source : String} {n m value : Node} {isStatic : Bool}
    (below : m ∈ (parse (lex source).tokens).program.descendants)
    (form : m.form = .classMember isStatic value) (member : n.kind = .classProp)
    (under : n ∈ value.descendants) : value.start < n.start := by
  have grammatical := parse_isGrammatical (lex source).tokens
  have stands := mem_children_of_value form
  have inside {k : Node} (under : k ∈ value.descendants) :
      k ∈ (parse (lex source).tokens).program.descendants :=
    (Node.descendants_sublist below).subset (Node.mem_descendants_of_child stands under)
  have place {p child : Node} (within : p ∈ (parse (lex source).tokens).program.descendants)
      (part : child ∈ p.children) (member : child.kind = .classProp) :
      (.member, child) ∈ p.form.fields := by
    obtain ⟨field, there⟩ := Node.mem_children_iff_field.1 part
    rwa [← grammatical.parts p within field child there .member (by rw [member]; rfl)]
  rcases Node.exists_parent under with rfl | ⟨p, within, part⟩
  · have there := place below stands member
    rw [form, Form.fields, Form.mem_inField] at there
    cases there.1
  · have announced := isAnnounced_of_member (place (inside within) part member)
    have first := start_lt_of_mem_descendants (inside within) announced part n.mem_descendants_self
    have nests (k : Node) (under : k ∈ value.descendants) : k.Nests :=
      parse_nests (inTextOrder_lex source) k (inside under)
    exact Position.lt_of_le_of_lt (Node.contains_of_mem_descendants nests within).1 first

/-- The value of a member of a class starts at a place. -/
def StartsValueAt (n : Node) (p : Position) : Prop :=
  ∃ isStatic value, n.form = .classMember isStatic value ∧ value.start = p

/-- Two members of classes are one if their values start in one place. -/
theorem eq_of_value {source : String} {n m value value' : Node} {isStatic isStatic' : Bool}
    (below : n ∈ (parse (lex source).tokens).program.descendants)
    (below' : m ∈ (parse (lex source).tokens).program.descendants)
    (form : n.form = .classMember isStatic value) (form' : m.form = .classMember isStatic' value')
    (same : value.start = value'.start) : n = m := by
  have nests := parse_nests (inTextOrder_lex source)
  have extent {k v : Node} {isStatic : Bool}
      (there : k ∈ (parse (lex source).tokens).program.descendants)
      (form : k.form = .classMember isStatic v) :
      k.start ≤ v.start ∧ v.start < k.span.stop := by
    have part := mem_children_of_value form
    have within := (nests k there).contains v part
    exact ⟨within.1, Position.lt_of_lt_of_le ((nests k there).proper v part) within.2⟩
  refine Node.eq_of_mark StartsValueAt nests ?_ ?_ below below'
    ⟨isStatic, value, form, same⟩ ⟨isStatic', value', form', rfl⟩
  · rintro k there p ⟨isStatic, v, form, rfl⟩
    exact extent there form
  · rintro k there child part l under p q ⟨isStatic, v, form, rfl⟩ ⟨isStatic', v', form', rfl⟩
    rw [Node.mem_children, form, Form.parts, List.mem_singleton] at part
    subst part
    have inside := (Node.descendants_sublist there).subset
      (Node.mem_descendants_of_child (mem_children_of_value form) under)
    have less := start_lt_of_member there form (by rw [Node.kind, form']; rfl) under
    exact Position.lt_of_lt_of_le less (extent inside form').1

theorem exists_value_of_offence {n : Node} {f : Finding} (found : offence? n = some f) :
    ∃ isStatic value, n.form = .classMember isStatic value ∧ f.span = value.span := by
  unfold offence? at found
  split at found
  · next isStatic value form =>
    split at found
    · cases found
    · cases found
      exact ⟨isStatic, value, form, rfl⟩
  · cases found

theorem nodup_findings (source : String) (tree : ScopeTree) :
    (findings check (parse (lex source).tokens).program tree).Nodup := by
  refine nodup_findings_of_parts (fun _ => True) offence? ?_ ?_
  · intro v visits
    unfold check
    split
    · next name generics bases constructors statics instances form =>
      refine ⟨statics ++ instances, ?_, fun _ _ => trivial, rfl⟩
      have whole : v.node.form = _ := form
      rw [whole, Form.parts, List.append_assoc constructors]
      exact ((List.sublist_append_right ..).trans (List.sublist_append_right ..))
    · exact ⟨[], List.nil_sublist _, nofun, rfl⟩
  · intro n below m below' _ _ f found found'
    obtain ⟨isStatic, value, form, span⟩ := exists_value_of_offence found
    obtain ⟨isStatic', value', form', span'⟩ := exists_value_of_offence found'
    exact eq_of_value below below' form form' (congrArg Span.start (span.symm.trans span'))

end ClassBody

end TekLang
