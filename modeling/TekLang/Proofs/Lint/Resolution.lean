import TekLang.Lint
import TekLang.Proofs.Scope.Lookup

/-!
# Names without a declaration

Which names of a program have no declaration, said of the tree alone: on the way down the names of
the regions around are carried along, and a name that is used is looked for there. The rule that
reports undefined names reports just these.
-/

namespace TekLang

/-- The reports of one rule are what is left of all reports. -/
theorem Site.filter_diagnostics (site : Site) (rules : List Rule) (name : String) :
    (site.diagnostics rules).filter (·.source = name) =
      site.diagnostics (rules.filter (·.name = name)) := by
  unfold diagnostics
  rw [List.filter_flatMap]
  induction rules with
  | nil => rfl
  | cons r rules ih =>
    rw [List.flatMap_cons, ih]
    by_cases own : r.name = name
    · simp [own, Finding.diagnostic]
    · simp [own, Finding.diagnostic]

namespace Node

/-- The names declared in the regions around, innermost first, for what stands in each of the
    regions of a node. The static members of a class have only its static side around them. -/
def surroundings (n : Node) (outer : List (List String)) : Regions (List (List String)) :=
  ⟨outer, n.namesIn .own :: outer, n.namesIn .statics :: outer⟩

/-- The nodes of a tree in the order of the text, with the names of the regions around each. -/
def located (outer : List (List String)) (n : Node) : List (Node × List (List String)) :=
  (n, outer) :: n.placed.attach.flatMap fun ⟨(region, child), _⟩ =>
    child.located ((n.surroundings outer).get region)
termination_by n.descendants.length
decreasing_by exact length_descendants_lt (mem_children_of_mem_placed ‹_›)

theorem located_eq (outer : List (List String)) (n : Node) :
    n.located outer = (n, outer) :: n.placed.flatMap fun child =>
      child.2.located ((n.surroundings outer).get child.1) := by
  rw [located]
  conv_rhs => rw [← List.attach_map_subtype_val n.placed, List.flatMap_map]

/-- Every node is located once. -/
theorem map_fst_located (outer : List (List String)) (n : Node) :
    (n.located outer).map (·.1) = n.descendants := by
  induction n using induction_on_children generalizing outer with
  | step n ih =>
    have below : (n.placed.flatMap fun child =>
        (child.2.located ((n.surroundings outer).get child.1)).map (·.1)) =
          n.placed.flatMap fun child => child.2.descendants := by
      apply List.flatMap_congr
      intro child member
      exact ih child.2 (mem_children_of_mem_placed member) _
    rw [located_eq, descendants_eq, ← flatMap_placed, ← below, List.map_cons, List.map_flatMap]

end Node

namespace Undefined

/-- The name that a node uses, if nothing around it declares the name. -/
def undeclared? (globals : NameSet) (n : Node) (outer : List (List String)) : Option Token :=
  (usedName? n.form).filter fun name =>
    !(outer.any (·.contains name.lexeme) || globals.contains name.lexeme)

/-- The names of a program that are used and not declared, in the order of the text. -/
def undeclared (globals : NameSet) (program : Node) : List Token :=
  (program.located [program.namesIn .around]).filterMap fun place =>
    undeclared? globals place.1 place.2

/-- What is reported of a name. -/
def report (name : Token) : Diagnostic :=
  ⟨"no-undefined", "No symbol with the name '" ++ name.lexeme ++ "'", name.span⟩

/-- In a scope the plain names can be seen that are declared around it. -/
def Matches (tree : ScopeTree) (s : ScopeId) (outer : List (List String)) : Prop :=
  ∀ name, IsPlainName name → (tree.Sees s name ↔ ∃ names ∈ outer, name ∈ names)

theorem Matches.get {program : Node} {tree : ScopeTree} {record : List (Node × Regions ScopeId)}
    (builds : Builds program tree record) {n m : Node} {r : Regions ScopeId}
    (there : (n, r) ∈ record) {outer : List (List String)}
    (around : Matches tree r.around outer) {region : Region} (stands : (region, m) ∈ n.placed) :
    Matches tree (r.get region) ((n.surroundings outer).get region) := by
  have regular := builds.regular.of_mem_descendants (builds.mem_descendants there)
  have has := has_of_placed stands
  have inside (inner : region ≠ .around) (name : String) (plain : IsPlainName name) :
      tree.Sees (r.get region) name ↔ ∃ names ∈ n.namesIn region :: outer, name ∈ names := by
    rw [builds.sees_get there has inner, exists_bindingsIn_iff regular plain, around name plain,
      List.exists_mem_cons_iff]
  cases region with
  | around => exact around
  | own | statics => exact inside nofun

theorem matches_root {program : Node} {tree : ScopeTree} {record : List (Node × Regions ScopeId)}
    (builds : Builds program tree record) :
    Matches tree ScopeTree.root [program.namesIn .around] := by
  intro name plain
  rw [builds.sees_root, Node.introduced_eq, exists_bindingsIn_iff builds.regular plain]
  simp

/-- Lists that are put together of related parts are related. -/
theorem forall₂_flatMap {α β γ : Type} {R : β → γ → Prop} {xs : List α} {f : α → List β}
    {g : α → List γ} (each : ∀ x ∈ xs, List.Forall₂ R (f x) (g x)) :
    List.Forall₂ R (xs.flatMap f) (xs.flatMap g) := by
  induction xs with
  | nil => exact .nil
  | cons x xs ih =>
    have first := each x List.mem_cons_self
    have others := ih fun y member => each y (.tail _ member)
    rw [List.flatMap_cons, List.flatMap_cons]
    exact List.rel_append first others

theorem flatMap_eq_of_forall₂ {α β γ : Type} {R : α → β → Prop} {xs : List α} {ys : List β}
    {f : α → List γ} {g : β → List γ} (related : List.Forall₂ R xs ys)
    (same : ∀ x y, R x y → f x = g y) : xs.flatMap f = ys.flatMap g := by
  induction related with
  | nil => rfl
  | cons first _ ih => rw [List.flatMap_cons, List.flatMap_cons, same _ _ first, ih]

/-- The walk enters the nodes in the order in which they are located, in scopes where the names can
    be seen that are declared around them. -/
theorem forall₂_located {program : Node} {tree : ScopeTree}
    {record : List (Node × Regions ScopeId)} (builds : Builds program tree record) {n : Node}
    {parents : List Node} {scope : ScopeId} {outer : List (List String)}
    (part : ∀ v ∈ Walk.node tree parents scope n, v ∈ walk program tree)
    (around : Matches tree scope outer) :
    List.Forall₂ (fun v place => v.node = place.1 ∧ v ∈ walk program tree ∧
        Matches tree v.scope place.2)
      ((Walk.node tree parents scope n).filter (·.phase = .enter)) (n.located outer) := by
  induction n using Node.induction_on_children generalizing parents scope outer with
  | step n ih =>
    rw [Walk.node_eq] at part
    have enters := part _ List.mem_cons_self
    have below := Walk.mem_descendants_of_mem enters
    have children : List.Forall₂ (fun v place => v.node = place.1 ∧ v ∈ walk program tree ∧
          Matches tree v.scope place.2)
        (n.placed.flatMap fun child => (Walk.node tree (n :: parents)
          ((Walk.regions tree scope n).get child.1) child.2).filter (·.phase = .enter))
        (n.placed.flatMap fun child =>
          child.2.located ((n.surroundings outer).get child.1)) := by
      apply forall₂_flatMap
      intro child stands
      apply ih child.2 (Node.mem_children_of_mem_placed stands)
      · intro v visits
        apply part v
        apply List.mem_cons_of_mem
        exact List.mem_append_left _ (List.mem_flatMap.2 ⟨child, stands, visits⟩)
      -- The scope of a detail is that around it; of any other node the record knows the scopes.
      · rcases builds.isDetail_or_mem_record below with detail | ⟨r, there⟩
        · rw [around_of_placed_of_isDetail detail stands]
          exact around
        · obtain rfl := builds.scope_eq enters there
          rw [builds.regions_get there stands]
          exact Matches.get builds there around stands
    rw [Walk.node_eq, Node.located_eq]
    have whole := children.cons (a := ⟨.enter, n, scope, parents⟩) (b := (n, outer))
      ⟨rfl, enters, around⟩
    simpa [List.filter_flatMap] using whole

theorem kind_of_used {phrase : Phrase} {n : Node} (conforms : Conforms phrase n) {name : Token}
    (used : usedName? n.form = some name) : name.kind = .identifier := by
  obtain ⟨id, span, form⟩ := n
  cases conforms with
  | mk made =>
    cases made with
    | identifier kind =>
      cases used
      exact kind
    | @typeRef first others _ _ _ _ _ _ _ named =>
      cases others with
      | nil =>
        cases used
        exact named
      | cons => cases used
    | _ => cases used

theorem mem_tokens_of_used {form : Form Node} {name : Token} (used : usedName? form = some name) :
    name ∈ form.tokens := by
  unfold usedName? at used
  split at used
  · cases used
    exact List.mem_singleton_self name
  · cases used
    exact List.mem_singleton_self name
  · cases used

theorem parse_usedName {tokens : List Token} {n : Node}
    (below : n ∈ (parse tokens).program.descendants) {name : Token}
    (used : usedName? n.form = some name) : name.kind = .identifier := by
  rcases eq_or_conforms_of_mem_descendants below with rfl | ⟨phrase, conforms⟩
  · obtain ⟨id, span, body, tree, -⟩ := parse_conforms tokens
    rw [tree] at used
    cases used
  · exact kind_of_used conforms used

/-- Names that are used in the tree of a text are plain. -/
theorem isPlainName_of_used (source : String) {n : Node}
    (below : n ∈ (parse (lex source).tokens).program.descendants) {name : Token}
    (used : usedName? n.form = some name) : IsPlainName name.lexeme := by
  have there : name ∈ (parse (lex source).tokens).program.tokens :=
    List.mem_flatMap.2 ⟨n, below, mem_tokens_of_used used⟩
  exact isPlainName_of_mem_lex source (mem_of_mem_tokens_parse there) (parse_usedName below used)

/-- The rule stands alone under its name. -/
theorem filter_rules {config : LintConfig}
    (enabled : config.disabled.contains "no-undefined" = false) :
    (config.rules.filter config.isEnabled).filter (·.name = "no-undefined") =
      [rule config.globals] := by
  have alone : config.rules.filter (·.name = "no-undefined") = [rule config.globals] := by
    simp [LintConfig.rules, rule, Redeclaration.rule, ClassPlacement.rule, ControlPlacement.rule,
      ClassBody.rule, IfValue.rule]
  have runs : config.isEnabled (rule config.globals) = true := by
    rw [LintConfig.isEnabled, rule, enabled]
    rfl
  rw [List.filter_comm, alone, List.filter_cons_of_pos runs, List.filter_nil]

/-- At a site where the names declared around it can be seen the rule reports what is undeclared. -/
theorem check_eq {globals : NameSet} {v : Visit} {tree : ScopeTree} {outer : List (List String)}
    (around : Matches tree v.scope outer)
    (plain : ∀ name, usedName? v.node.form = some name → IsPlainName name.lexeme) :
    (check globals (v.site tree)).map (Finding.diagnostic "no-undefined") =
      (undeclared? globals v.node outer).toList.map report := by
  have node : (v.site tree).node = v.node := rfl
  unfold check undeclared?
  rw [node]
  cases used : usedName? v.node.form with
  | none => rfl
  | some name =>
    have seen : (tree.hasSymbol v.scope name.lexeme || tree.hasFunction v.scope name.lexeme) =
        outer.any (·.contains name.lexeme) := by
      rw [Bool.eq_iff_iff, Bool.or_eq_true, List.any_eq_true]
      simp only [List.contains_iff_mem]
      exact around name.lexeme (plain name used)
    have defined : isDefined globals (v.site tree) name.lexeme =
        (outer.any (·.contains name.lexeme) || globals.contains name.lexeme) := by
      rw [← seen]
      rfl
    dsimp only
    rw [defined, Option.filter_some]
    cases outer.any (·.contains name.lexeme) || globals.contains name.lexeme <;> rfl

end Undefined

/-- What the rule on undefined names reports of the program of a text is each name that is used and
    that nothing declares in the regions around, once for each node that uses it. -/
theorem lint_undefined (source : String) (config : LintConfig)
    (enabled : config.disabled.contains "no-undefined" = false) {tree : ScopeTree}
    (built : buildScopes (parse (lex source).tokens).program = .ok tree) :
    ((parse (lex source).tokens).program.located
        [(parse (lex source).tokens).program.namesIn .around]).map (·.1) =
      (parse (lex source).tokens).program.descendants ∧
    (lint config (parse (lex source).tokens).program tree).filter (·.source = "no-undefined") =
      inSourceOrder (·.span.start)
        ((Undefined.undeclared config.globals (parse (lex source).tokens).program).map
          Undefined.report) := by
  refine ⟨Node.map_fst_located .., ?_⟩
  obtain ⟨record, builds⟩ := builds_of_ok (parse_isRegular _) built
  have located := Undefined.forall₂_located builds (fun v visits => visits)
    (Undefined.matches_root builds)
  have reports (v : Visit) : ((v.site tree).diagnostics
      (config.rules.filter config.isEnabled)).filter (·.source = "no-undefined") =
        (Undefined.check config.globals (v.site tree)).map (Finding.diagnostic "no-undefined") := by
    rw [Site.filter_diagnostics, Undefined.filter_rules enabled]
    exact List.flatMap_singleton ..
  unfold lint
  rw [← inSourceOrder_filter, List.filter_flatMap]
  refine congrArg _ ?_
  rw [List.flatMap_congr fun v _ => reports v, Undefined.undeclared,
    List.filterMap_eq_flatMap_toList, List.map_flatMap]
  apply Undefined.flatMap_eq_of_forall₂ located
  rintro v place ⟨same, visits, around⟩
  have below := Walk.mem_descendants_of_mem visits
  have plain : ∀ name, Undefined.usedName? v.node.form = some name → IsPlainName name.lexeme := by
    intro name used
    exact Undefined.isPlainName_of_used source below used
  rw [← same]
  exact Undefined.check_eq around plain

/-- A static member does not see the members of instances, though it stands among them. -/
theorem lint_undefined_static :
    (inSourceOrder (·.span.start) ((Undefined.undeclared LintConfig.standard.globals
      (parse (lex "class A\n  var x = 1\n  static var y = x\n").tokens).program).map
        Undefined.report)).map (·.message) = ["No symbol with the name 'x'"] := by
  have found : (buildScopes (parse
      (lex "class A\n  var x = 1\n  static var y = x\n").tokens).program).toOption.map (fun tree =>
        ((lint .standard (parse (lex "class A\n  var x = 1\n  static var y = x\n").tokens).program
          tree).filter (·.source = "no-undefined")).map (·.message)) =
            some ["No symbol with the name 'x'"] := by
    decide +kernel
  cases built : buildScopes (parse
      (lex "class A\n  var x = 1\n  static var y = x\n").tokens).program with
  | error e =>
    rw [built] at found
    cases found
  | ok tree =>
    rw [built] at found
    rw [← (lint_undefined _ .standard rfl built).2]
    exact Option.some.inj found

end TekLang
