import Mathlib.Data.List.Nodup
import Mathlib.Data.List.Pairwise
import TekLang.Lint
import TekLang.Proofs.Grammar.Grammatical
import TekLang.Proofs.Scope.Conflict

/-!
# What reports are about

The rule on names in use reports declarations at their names, and no two declarations of a text have
their names in one place. So the reports at a name are what the rule finds where it comes to the one
node that declares it.
-/

namespace TekLang

/-- Two nodes of a text are one if they hold tokens with a spelling in one place. -/
theorem eq_of_token {source : String} {n m : Node}
    (below : n ∈ (parse (lex source).tokens).program.descendants)
    (below' : m ∈ (parse (lex source).tokens).program.descendants) {t u : Token}
    (holds : t ∈ n.form.tokens) (holds' : u ∈ m.form.tokens) (spelt : t.kind.isContent = true)
    (spelt' : u.kind.isContent = true) (same : t.span.start = u.span.start) : n = m := by
  have distinct : (((parse (lex source).tokens).program.tokens.filter (·.kind.isContent)).map
      (·.span.start)).Nodup := by
    have reading := (parse (lex source).tokens).program.reading_perm_tokens
    refine ((reading.filter _).map _).nodup_iff.1 ?_
    refine List.pairwise_map.2 ((parse_reading_inOrder source).imp ?_)
    rintro t u less equal
    rw [equal] at less
    exact Position.lt_irrefl _ less
  have place {k : Node} {v : Token} (holds : v ∈ k.form.tokens) (spelt : v.kind.isContent = true) :
      v.span.start ∈ (k.form.tokens.filter (·.kind.isContent)).map (·.span.start) :=
    List.mem_map.2 ⟨v, List.mem_filter.2 ⟨holds, spelt⟩, rfl⟩
  have there := place holds spelt
  have there' := place holds' spelt'
  rw [Node.tokens, List.filter_flatMap, List.map_flatMap, List.nodup_flatMap] at distinct
  by_contra differs
  have symm : Std.Symm (Function.onFun List.Disjoint fun k : Node =>
      (k.form.tokens.filter (·.kind.isContent)).map (·.span.start)) :=
    ⟨fun _ _ apart _ one two => apart two one⟩
  have apart := distinct.2.forall below below' differs
  rw [same] at there
  exact apart there there'

theorem isContent_of_declaredName {tokens : List Token} {n : Node}
    (below : n ∈ (parse tokens).program.descendants) {name : Token}
    (named : n.declaredName? = some name) : name.kind.isContent = true := by
  rw [parse_declaredName below named]
  rfl

/-- Two nodes of a text are one if what they declare is named in one place. -/
theorem eq_of_declaredName {source : String} {n m : Node}
    (below : n ∈ (parse (lex source).tokens).program.descendants)
    (below' : m ∈ (parse (lex source).tokens).program.descendants) {name other : Token}
    (named : n.declaredName? = some name) (named' : m.declaredName? = some other)
    (same : name.span.start = other.span.start) : n = m :=
  eq_of_token below below' (Node.mem_reading_of_declaredName named).1
    (Node.mem_reading_of_declaredName named').1 (isContent_of_declaredName below named)
    (isContent_of_declaredName below' named') same

/-- A walk enters no node twice. -/
theorem Walk.nodup_entered {program : Node} (distinct : (program.descendants.map (·.id)).Nodup)
    (tree : ScopeTree) : ((walk program tree).filter (·.phase = .enter)).Nodup := by
  rw [← Walk.entered_eq tree [] ScopeTree.root] at distinct
  exact distinct.of_map.of_map

/-- If the others come to nothing, what a list is taken to is what one of its entries is taken
    to. -/
theorem flatMap_of_alone {α β : Type} {f : α → List β} {x : α} {xs : List α} (distinct : xs.Nodup)
    (there : x ∈ xs) (others : ∀ y ∈ xs, y ≠ x → f y = []) : xs.flatMap f = f x := by
  obtain ⟨before, after, rfl⟩ := List.append_of_mem there
  have apart := (List.nodup_middle.1 distinct).notMem
  have silent : (before ++ after).flatMap f = [] := by
    refine List.flatMap_eq_nil_iff.2 fun y member => others y ?_ ?_
    · exact List.perm_middle.symm.subset (.tail _ member)
    · rintro rfl
      exact apart member
  rw [List.flatMap_append, List.append_eq_nil_iff] at silent
  rw [List.flatMap_append, List.flatMap_cons, silent.1, silent.2, List.nil_append, List.append_nil]

theorem LintConfig.names_nodup (config : LintConfig) : (config.rules.map (·.name)).Nodup := by
  have names : config.rules.map (·.name) = ["illegal-redeclaration", "no-undefined",
    "class-at-top-level", "illegal-control-statement", "invalid-class-body", "illegal-if"] := rfl
  rw [names]
  decide

/-- The reports of a rule that runs are what it finds on the walk, in the order of the text. -/
theorem filter_lint {config : LintConfig} {r : Rule} (there : r ∈ config.rules)
    (enabled : config.disabled.contains r.name = false) (program : Node) (tree : ScopeTree) :
    (lint config program tree).filter (·.source = r.name) =
      inSourceOrder (·.span.start) (((walk program tree).filter (·.phase = .enter)).flatMap fun v =>
        (r.check (v.site tree)).map (Finding.diagnostic r.name)) := by
  have runs : r ∈ config.rules.filter config.isEnabled := by
    rw [List.mem_filter, LintConfig.isEnabled, enabled]
    exact ⟨there, rfl⟩
  have names := config.names_nodup.sublist ((List.filter_sublist (p := config.isEnabled)).map _)
  unfold lint
  rw [← inSourceOrder_filter, List.filter_flatMap]
  refine congrArg _ (List.flatMap_congr fun v _ => ?_)
  unfold Site.diagnostics
  rw [List.filter_flatMap, flatMap_of_alone names.of_map runs]
  · simp [Finding.diagnostic]
  · intro other member differs
    have apart : other.name ≠ r.name := fun same =>
      differs (List.inj_on_of_nodup_map names member runs same)
    simp [Finding.diagnostic, apart]

namespace Redeclaration

/-- What a finding at a node is about: the name that it declares, or for a class one of its
    constructors or generics. -/
inductive About (n : Node) : Finding → Prop
  | name {name} (named : n.declaredName? = some name) (what : String) :
    About n (alreadyUsed what name)
  | constructor (ofClass : n.kind = .classDecl) (span : Span) :
    About n ⟨"Identical constructor overload exists", span⟩
  | generic {m name} (ofClass : n.kind = .classDecl) (stands : (.generic, m) ∈ n.form.fields)
    (named : m.declaredName? = some name) : About n (alreadyUsed "generic" name)

theorem repeated_sublist (key : Node → Option String) (ns : List Node) (seen : List String) :
    (repeated key ns seen).Sublist ns := by
  fun_induction repeated key ns seen with
  | case1 => exact .slnil
  | case2 n ns seen none ih => exact ih.cons _
  | case3 n ns seen k is known ih => exact ih.cons_cons _
  | case4 n ns seen k is isNew ih => exact ih.cons _

theorem checkName_eq (site : Site) (scope : ScopeId) (what : String) :
    checkName site scope what = [] ∨ ∃ name, site.node.declaredName? = some name ∧
      checkName site scope what = [alreadyUsed what name] := by
  unfold checkName
  split
  · exact .inl rfl
  · next name named =>
    split
    · exact .inr ⟨name, named, rfl⟩
    · exact .inl rfl

theorem about_of_checkName {site : Site} {scope : ScopeId} {what : String} {f : Finding}
    (found : f ∈ checkName site scope what) : About site.node f := by
  rcases checkName_eq site scope what with none | ⟨name, named, one⟩
  · rw [none] at found
    cases found
  · rw [one] at found
    obtain rfl := List.mem_singleton.1 found
    exact .name named what

theorem about_of_mem_check {site : Site} {f : Finding} (found : f ∈ check site) :
    About site.node f := by
  obtain ⟨tree, ⟨id, span, form⟩, scope, parents⟩ := site
  cases form with
  | variableDecl | forEach | catchClause | parameter | importedName | generic =>
    exact about_of_checkName found
  | functionDecl name generics params =>
    replace found : f ∈ checkFunction _ name _ := found
    unfold checkFunction at found
    split at found
    · obtain rfl := List.mem_singleton.1 found
      exact .name rfl _
    · cases found
  | importDecl path rename exposed =>
    replace found : f ∈ if _ then checkName _ _ "import" else [] := found
    split at found
    · exact about_of_checkName found
    · cases found
  | classDecl name generics bases constructors statics instances =>
    rcases List.mem_append.1 found with found | found
    · rcases List.mem_append.1 found with found | found
      · exact about_of_checkName found
      · obtain ⟨m, -, rfl⟩ := List.mem_map.1 found
        exact .constructor rfl m.span
    · obtain ⟨m, again, listed⟩ := List.mem_filterMap.1 found
      obtain ⟨name, named, rfl⟩ := Option.map_eq_some_iff.1 listed
      have stands := (repeated_sublist _ generics []).subset again
      refine .generic rfl ?_ named
      simp [Form.fields, Form.mem_inField, stands]
  | _ => cases found

/-- What stands among the generics of a node is a generic. -/
theorem kind_of_generic {tokens : List Token} {n m : Node}
    (below : n ∈ (parse tokens).program.descendants) (stands : (.generic, m) ∈ n.form.fields) :
    m.kind = .genericParam := by
  rcases eq_or_conforms_of_mem_descendants below with rfl | ⟨phrase, conforms⟩
  · obtain ⟨id, span, body, tree, -⟩ := parse_conforms tokens
    rw [tree, Form.fields, Form.mem_inField] at stands
    cases stands.1
  · exact of_decide_eq_true (conforms.admits stands)

theorem head?_append {text : String} {c : Char} (first : text.toList.head? = some c)
    (more : String) : (text ++ more).toList.head? = some c := by
  rw [String.toList_append, List.head?_append, first, Option.some_or]

theorem head?_alreadyUsed (what : String) (name : Token) :
    (alreadyUsed what name).message.toList.head? = some 'Y' := by
  have first : "You can't declare a ".toList.head? = some 'Y' := by decide +kernel
  exact head?_append (head?_append (head?_append (head?_append first _) _) _) _

/-- A report with the name of a declaration is found where the rule comes to that declaration. Only
    a generic of a class is looked at twice. -/
theorem mem_check_of_mem_lint {source : String} {config : LintConfig} {tree : ScopeTree} {v : Visit}
    (visits : v ∈ walk (parse (lex source).tokens).program tree)
    (other : v.node.kind ≠ .genericParam) {name : Token}
    (named : v.node.declaredName? = some name) {what : String}
    (reported : (alreadyUsed what name).diagnostic rule.name ∈
      lint config (parse (lex source).tokens).program tree) :
    alreadyUsed what name ∈ check (v.site tree) := by
  have below := Walk.mem_descendants_of_mem visits
  rw [lint, mem_inSourceOrder, List.mem_flatMap] at reported
  obtain ⟨w, entered, reported⟩ := reported
  obtain ⟨visits', enters⟩ := List.mem_filter.1 entered
  obtain ⟨r, runs, reported⟩ := List.mem_flatMap.1 reported
  obtain ⟨f, found, same⟩ := List.mem_map.1 reported
  have rules : r.name = rule.name := congrArg Diagnostic.source same
  obtain rfl := List.inj_on_of_nodup_map config.names_nodup (List.mem_of_mem_filter runs)
    List.mem_cons_self rules
  obtain ⟨message, span⟩ := f
  cases same
  replace found : alreadyUsed what name ∈ check (w.site tree) := found
  have below' := Walk.mem_descendants_of_mem visits'
  have node : w.node = v.node := by
    generalize is : alreadyUsed what name = f at found
    cases about_of_mem_check found with
    | @name other' named' what' =>
      have span : name.span = other'.span := congrArg Finding.span is
      exact eq_of_declaredName below' below named' named (by rw [span])
    | constructor =>
      have initial := head?_alreadyUsed what name
      have other : "Identical constructor overload exists".toList.head? ≠ some 'Y' := by
        decide +kernel
      rw [is] at initial
      exact absurd initial other
    | @generic m other' _ stands named' =>
      have part := Node.mem_children_iff_field.2 ⟨_, stands⟩
      have under := Node.mem_descendants_of_child part m.mem_descendants_self
      have inside := (Node.descendants_sublist below').subset under
      have span : name.span = other'.span := congrArg Finding.span is
      obtain rfl := eq_of_declaredName inside below named' named (by rw [span])
      exact absurd (kind_of_generic below' stands) other
  have one := Walk.eq_of_entered (parse_isRegular (lex source).tokens).distinct visits'
    (Walk.entered_of_mem tree v visits) (of_decide_eq_true enters) rfl (congrArg Node.id node)
  rwa [one] at found

/-- Whether there are no classes in a program. -/
def ClassFree (program : Node) : Prop := ∀ n ∈ program.descendants, n.kind ≠ .classDecl

instance (program : Node) : Decidable (ClassFree program) :=
  inferInstanceAs (Decidable (∀ n ∈ program.descendants, _))

/-- Without classes, a finding is about the name of the node. -/
theorem exists_name_of_mem_check {site : Site} (other : site.node.kind ≠ .classDecl) {f : Finding}
    (found : f ∈ check site) :
    ∃ what name, site.node.declaredName? = some name ∧ f = alreadyUsed what name := by
  cases about_of_mem_check found with
  | name named what => exact ⟨what, _, named, rfl⟩
  | constructor ofClass | generic ofClass => exact absurd ofClass other

/-- Then the reports at a name are what the rule finds at the node that declares it. -/
theorem filter_lint_name {source : String} {config : LintConfig}
    (enabled : config.disabled.contains rule.name = false) {tree : ScopeTree}
    (free : ClassFree (parse (lex source).tokens).program) {v : Visit}
    (visits : v ∈ walk (parse (lex source).tokens).program tree) {name : Token}
    (named : v.node.declaredName? = some name) :
    (lint config (parse (lex source).tokens).program tree).filter
        (fun d => d.source = rule.name ∧ d.span = name.span) =
      (check (v.site tree)).map (Finding.diagnostic rule.name) := by
  have distinct := (parse_isRegular (lex source).tokens).distinct
  have below := Walk.mem_descendants_of_mem visits
  have here : ⟨.enter, v.node, v.scope, v.parents⟩ ∈
      (walk (parse (lex source).tokens).program tree).filter (·.phase = .enter) :=
    List.mem_filter.2 ⟨Walk.entered_of_mem tree v visits, rfl⟩
  have apart : (lint config (parse (lex source).tokens).program tree).filter
      (fun d => d.source = rule.name ∧ d.span = name.span) =
        ((lint config (parse (lex source).tokens).program tree).filter
          (·.source = rule.name)).filter (·.span = name.span) := by
    rw [List.filter_filter]
    refine List.filter_congr fun d _ => ?_
    rw [Bool.decide_and, Bool.and_comm]
  rw [apart, filter_lint List.mem_cons_self enabled, ← inSourceOrder_filter, List.filter_flatMap,
    flatMap_of_alone (Walk.nodup_entered distinct tree) here]
  · have all : ∀ d ∈ (check (v.site tree)).map (Finding.diagnostic rule.name),
        d.span = name.span := by
      intro d there
      obtain ⟨f, found, rfl⟩ := List.mem_map.1 there
      obtain ⟨what, name', named', rfl⟩ := exists_name_of_mem_check (free v.node below) found
      cases named.symm.trans named'
      rfl
    have kept : ((check (v.site tree)).map (Finding.diagnostic rule.name)).filter
        (·.span = name.span) = _ :=
      List.filter_eq_self.2 fun d there => decide_eq_true (all d there)
    refine (congrArg _ kept).trans (inSourceOrder_of_pairwise ?_)
    refine List.pairwise_of_forall_mem_list fun d there e there' => ?_
    rw [all d there, all e there']
    exact Position.le_refl _
  · intro w entered differs
    obtain ⟨visits', enters⟩ := List.mem_filter.1 entered
    have below' := Walk.mem_descendants_of_mem visits'
    rw [List.filter_eq_nil_iff]
    intro d there same
    obtain ⟨f, found, rfl⟩ := List.mem_map.1 there
    obtain ⟨what, name', named', rfl⟩ := exists_name_of_mem_check (free w.node below') found
    have span : name'.span = name.span := of_decide_eq_true same
    have node : w.node = v.node := eq_of_declaredName below' below named' named (by rw [span])
    exact differs (Walk.eq_of_entered distinct visits' (Walk.entered_of_mem tree v visits)
      (of_decide_eq_true enters) rfl (congrArg Node.id node))

end Redeclaration

end TekLang
