import TekLang.Proofs.Check
import TekLang.Proofs.Lint.Findings
import TekLang.Proofs.Scope.Paths

/-!
# How often a problem is reported

The rule on names in use comes to the generics of a class twice, with the class and each by itself.
With the class it looks for repetitions among them, by themselves for their names around the class.
A generic that has the name of an earlier one is reported twice if its name is in use around the
class as well; nothing else is.
-/

namespace TekLang

namespace Redeclaration

/-- What is found at a node about the name that it declares itself. -/
def checkDeclared (site : Site) : List Finding :=
  match site.node.form with
  | .classDecl .. => checkName site site.scope "class"
  | _ => check site

/-- What is found at a class about its constructors. -/
def checkConstructorsOf (site : Site) : List Finding :=
  match site.node.form with
  | .classDecl _ generics _ constructors _ _ => checkConstructors generics constructors
  | _ => []

/-- What is found at a class about its generics. -/
def checkGenericsOf (site : Site) : List Finding :=
  match site.node.form with
  | .classDecl _ generics .. => checkGenerics generics
  | _ => []

theorem check_eq (site : Site) :
    check site = checkDeclared site ++ checkConstructorsOf site ++ checkGenericsOf site := by
  obtain ⟨tree, ⟨id, span, form⟩, scope, parents⟩ := site
  cases form with
  | classDecl => rfl
  | _ => simp [checkDeclared, checkConstructorsOf, checkGenericsOf]

theorem checkDeclared_eq (site : Site) : checkDeclared site = [] ∨ ∃ what name,
    site.node.declaredName? = some name ∧ checkDeclared site = [alreadyUsed what name] := by
  have byName (scope : ScopeId) (what : String) : checkName site scope what = [] ∨
      ∃ what' name, site.node.declaredName? = some name ∧
        checkName site scope what = [alreadyUsed what' name] :=
    (checkName_eq site scope what).imp_right fun found => ⟨what, found⟩
  obtain ⟨tree, ⟨id, span, form⟩, scope, parents⟩ := site
  cases form with
  | variableDecl | forEach | catchClause | parameter | importedName | generic | classDecl =>
    exact byName _ _
  | functionDecl name generics params =>
    simp only [checkDeclared, check, checkFunction]
    split
    · exact .inr ⟨_, name, rfl, rfl⟩
    · exact .inl rfl
  | importDecl path rename exposed =>
    simp only [checkDeclared, check]
    split
    · exact byName _ _
    · exact .inl rfl
  | _ => exact .inl rfl

variable {source : String} {tree : ScopeTree}

theorem nodup_findings_declared (source : String) (tree : ScopeTree) :
    (findings checkDeclared (parse (lex source).tokens).program tree).Nodup := by
  refine nodup_findings_of_token fun v visits => ?_
  refine (checkDeclared_eq (v.site tree)).imp_right ?_
  rintro ⟨what, name, named, one⟩
  exact ⟨name, (Node.mem_reading_of_declaredName named).1,
    isContent_of_declaredName (Walk.mem_descendants_of_mem visits) named, _, one⟩

theorem nodup_findings_constructors (source : String) (tree : ScopeTree) :
    (findings checkConstructorsOf (parse (lex source).tokens).program tree).Nodup := by
  refine nodup_findings_of_parts (fun m => ∃ params body, m.form = .constructor params body)
    (fun m => some ⟨"Identical constructor overload exists", m.span⟩) ?_ ?_
  · intro v visits
    have sides := (parse_isRegular _).sides v.node (Walk.mem_descendants_of_mem visits)
    unfold checkConstructorsOf
    split
    · next name generics bases constructors statics instances form =>
      have form : v.node.form = _ := form
      rw [form] at sides ⊢
      refine ⟨repeated _ constructors [], ?_, ?_, congrFun List.filterMap_eq_map.symm _⟩
      · have part : constructors.Sublist (constructors ++ statics ++ instances) :=
          (List.sublist_append_left ..).trans (List.sublist_append_left ..)
        exact (repeated_sublist ..).trans (part.trans (List.sublist_append_right ..))
      · intro m again
        exact sides.1 m ((repeated_sublist ..).subset again)
    · exact ⟨[], List.nil_sublist _, nofun, rfl⟩
  · rintro m below m' below' ⟨params, body, form⟩ ⟨params', body', form'⟩ f found found'
    cases found
    have span := congrArg Finding.span (Option.some.inj found')
    exact eq_of_start below below' (by rw [form]; rfl) (by rw [form']; rfl)
      (congrArg Span.start span.symm)

theorem nodup_findings_generics (source : String) (tree : ScopeTree) :
    (findings checkGenericsOf (parse (lex source).tokens).program tree).Nodup := by
  refine nodup_findings_of_parts (fun _ => True)
    (fun m => m.declaredName?.map (alreadyUsed "generic")) ?_ ?_
  · intro v visits
    unfold checkGenericsOf
    split
    · next name generics bases constructors statics instances form =>
      have form : v.node.form = _ := form
      rw [form]
      refine ⟨repeated _ generics [], ?_, fun _ _ => trivial, rfl⟩
      exact (repeated_sublist ..).trans
        ((List.sublist_append_left ..).trans (List.sublist_append_left ..))
    · exact ⟨[], List.nil_sublist _, nofun, rfl⟩
  · intro m below m' below' _ _ f found found'
    obtain ⟨name, named, rfl⟩ := Option.map_eq_some_iff.1 found
    obtain ⟨name', named', same⟩ := Option.map_eq_some_iff.1 found'
    exact eq_of_declaredName below below' named named'
      (congrArg (·.span.start) same.symm)

/-- What is repeated has the key of something in front of it. -/
theorem exists_earlier_of_mem_repeated {key : Node → Option String} {ns : List Node}
    {seen : List String} {n : Node} (again : n ∈ repeated key ns seen) :
    ∃ before after k, ns = before ++ n :: after ∧ key n = some k ∧
      (k ∈ seen ∨ ∃ m ∈ before, key m = some k) := by
  fun_induction repeated key ns seen with
  | case1 => exact absurd again List.not_mem_nil
  | case2 m ns seen none ih =>
    obtain ⟨before, after, k, rfl, is, known⟩ := ih again
    exact ⟨m :: before, after, k, rfl, is, known.imp_right List.exists_mem_cons_of_exists⟩
  | case3 m ns seen k is known ih =>
    rcases List.mem_cons.1 again with rfl | again
    · exact ⟨[], ns, k, rfl, is, .inl known⟩
    · obtain ⟨before, after, k', rfl, is', known'⟩ := ih again
      exact ⟨m :: before, after, k', rfl, is', known'.imp_right List.exists_mem_cons_of_exists⟩
  | case4 m ns seen k is isNew ih =>
    obtain ⟨before, after, k', rfl, is', known⟩ := ih again
    refine ⟨m :: before, after, k', rfl, is', ?_⟩
    rcases known with known | known
    · rcases List.mem_cons.1 known with rfl | known
      · exact .inr ⟨m, List.mem_cons_self, is⟩
      · exact .inl known
    · exact .inr (List.exists_mem_cons_of_exists known)

theorem mem_repeated_of_earlier {key : Node → Option String} {n : Node} {k : String}
    (is : key n = some k) {before : List Node} (after : List Node) {seen : List String}
    (known : k ∈ seen ∨ ∃ m ∈ before, key m = some k) :
    n ∈ repeated key (before ++ n :: after) seen := by
  induction before generalizing seen with
  | nil =>
    have known : k ∈ seen := known.resolve_right (by simp)
    simp [repeated, is, known]
  | cons m before ih =>
    rw [List.exists_mem_cons_iff] at known
    rw [List.cons_append, repeated]
    split
    · next none =>
      rw [none] at known
      exact ih (known.imp_right fun earlier => earlier.resolve_left (Option.some_ne_none k).symm)
    · next k' is' =>
      rw [is', Option.some.injEq] at known
      split
      · next seen' =>
        refine .tail _ (ih ?_)
        rcases known with known | rfl | known
        · exact .inl known
        · exact .inl seen'
        · exact .inr known
      · refine ih ?_
        rcases known with known | rfl | known
        · exact .inl (.tail _ known)
        · exact .inl List.mem_cons_self
        · exact .inr known

theorem mem_checkGenerics {generics : List Node} {f : Finding} : f ∈ checkGenerics generics ↔
    ∃ before m after name, generics = before ++ m :: after ∧ m.declaredName? = some name ∧
      (∃ n ∈ before, n.declaredName?.map (·.lexeme) = some name.lexeme) ∧
        f = alreadyUsed "generic" name := by
  unfold checkGenerics
  rw [List.mem_filterMap]
  constructor
  · rintro ⟨m, again, listed⟩
    obtain ⟨name, named, rfl⟩ := Option.map_eq_some_iff.1 listed
    obtain ⟨before, after, k, rfl, is, known⟩ := exists_earlier_of_mem_repeated again
    rw [named] at is
    cases is
    exact ⟨before, m, after, name, rfl, named, known.resolve_left List.not_mem_nil, rfl⟩
  · rintro ⟨before, m, after, name, rfl, named, again, rfl⟩
    have is : m.declaredName?.map (·.lexeme) = some name.lexeme := by rw [named]; rfl
    exact ⟨m, mem_repeated_of_earlier is after (.inr again), by rw [named]; rfl⟩

/-- All that is found at a node about its own name is that the name is in use. -/
theorem exists_name_of_mem_declared {program : Node} {f : Finding}
    (found : f ∈ findings checkDeclared program tree) : ∃ what name, f = alreadyUsed what name := by
  obtain ⟨v, -, -, found⟩ := mem_findings.1 found
  rcases checkDeclared_eq (v.site tree) with none | ⟨what, name, -, one⟩
  · rw [none] at found
    cases found
  · rw [one] at found
    exact ⟨what, name, List.mem_singleton.1 found⟩

theorem exists_name_of_mem_generics {program : Node} {f : Finding}
    (found : f ∈ findings checkGenericsOf program tree) :
    ∃ name, f = alreadyUsed "generic" name := by
  obtain ⟨v, -, -, found⟩ := mem_findings.1 found
  unfold checkGenericsOf at found
  split at found
  · obtain ⟨-, -, -, name, -, -, -, is⟩ := mem_checkGenerics.1 found
    exact ⟨name, is⟩
  · cases found

/-- What is found about constructors is about no name. -/
theorem ne_of_mem_constructors {program : Node} {f : Finding}
    (found : f ∈ findings checkConstructorsOf program tree) (what : String) (name : Token) :
    f ≠ alreadyUsed what name := by
  rintro rfl
  obtain ⟨v, -, -, found⟩ := mem_findings.1 found
  unfold checkConstructorsOf at found
  split at found
  · obtain ⟨m, -, is⟩ := List.mem_map.1 found
    have initial := head?_alreadyUsed what name
    have other : "Identical constructor overload exists".toList.head? ≠ some 'Y' := by
      decide +kernel
    rw [← is] at initial
    exact other initial
  · cases found

/-- A report on a generic of a class that has the name of an earlier one, where that name is also in
    use around the class. -/
inductive IsSeenTwice (program : Node) (tree : ScopeTree) : Diagnostic → Prop
  | mk {v className before m after bases constructors statics instances name}
    (visits : v ∈ walk program tree)
    (ofClass : v.node.form =
      .classDecl className (before ++ m :: after) bases constructors statics instances)
    (named : m.declaredName? = some name)
    (again : ∃ n ∈ before, n.declaredName?.map (·.lexeme) = some name.lexeme)
    (used : isTaken tree v.scope m.id name.lexeme = true ∨
      tree.hasFunction v.scope name.lexeme = true) :
    IsSeenTwice program tree ((alreadyUsed "generic" name).diagnostic rule.name)

/-- The generics of a class are looked at from the scope that the class stands in. -/
theorem scopeOfGeneric_own {program : Node} {record : List (Node × Regions ScopeId)}
    (builds : Builds program tree record) {v : Visit} (visits : v ∈ walk program tree)
    (ofClass : v.node.form.opensStatics = true) :
    scopeOfGeneric tree (Walk.regions tree v.scope v.node).own = v.scope := by
  have opens := Form.opens?_of_opensStatics ofClass
  rcases builds.isDetail_or_mem_record (Walk.mem_descendants_of_mem visits) with detail | ⟨r, there⟩
  · cases (opens?_of_isDetail detail).symm.trans opens
  rw [builds.scope_eq visits there]
  have own : (Walk.regions tree r.around v.node).own = r.own := by
    rw [Walk.regions, builds.ownScope?_of_opens there opens]
    rfl
  have has := builds.has_opened there (own_mem_openings r opens)
  have kind : tree.kind? r.own = some .instances := has.kind?
  have parent : tree.parent? r.own = some r.around := by
    obtain ⟨scope, is, -⟩ := has.found
    exact Option.bind_eq_some_iff.2 ⟨scope, is, has.parent? is⟩
  rw [own, scopeOfGeneric, if_pos kind, parent]
  rfl

theorem exists_generic_of_kind {form : Form Node} (kind : form.kind = .genericParam) :
    ∃ name bound, form = .generic name bound := by
  unfold Form.kind at kind
  split at kind <;> first | exact ⟨_, _, rfl⟩ | cases kind

theorem mem_checkDeclared_generic {m : Node} (kind : m.kind = .genericParam) {name : Token}
    (named : m.declaredName? = some name) (tree : ScopeTree) (own : ScopeId)
    (parents : List Node) : alreadyUsed "generic" name ∈ checkDeclared ⟨tree, m, own, parents⟩ ↔
      isTaken tree (scopeOfGeneric tree own) m.id name.lexeme = true ∨
        tree.hasFunction (scopeOfGeneric tree own) name.lexeme = true := by
  obtain ⟨name', bound, form⟩ := exists_generic_of_kind kind
  simp only [checkDeclared, check, form, checkName, named, Bool.or_eq_true]
  split
  · next used => exact iff_of_true List.mem_cons_self used
  · next unused => exact iff_of_false List.not_mem_nil unused

/-- A name is reported where it is declared. -/
theorem eq_of_mem_checkDeclared {v : Visit}
    (visits : v ∈ walk (parse (lex source).tokens).program tree) {m : Node}
    (below : m ∈ (parse (lex source).tokens).program.descendants) {what : String} {name : Token}
    (named : m.declaredName? = some name)
    (found : alreadyUsed what name ∈ checkDeclared (v.site tree)) : v.node = m := by
  rcases checkDeclared_eq (v.site tree) with none | ⟨what', name', named', one⟩
  · rw [none] at found
    cases found
  · rw [one] at found
    have same := List.mem_singleton.1 found
    exact eq_of_declaredName (Walk.mem_descendants_of_mem visits) below named' named
      (congrArg (·.span.start) same.symm)

/-- By itself a generic of a class is reported if its name is in use around the class. -/
theorem mem_findings_declared_iff {record : List (Node × Regions ScopeId)}
    (builds : Builds (parse (lex source).tokens).program tree record) {v : Visit}
    (visits : v ∈ walk (parse (lex source).tokens).program tree) {className : Token}
    {generics bases constructors statics instances : List Node}
    (form : v.node.form = .classDecl className generics bases constructors statics instances)
    {m : Node} (stands : m ∈ generics) {name : Token} (named : m.declaredName? = some name) :
    alreadyUsed "generic" name ∈
        findings checkDeclared (parse (lex source).tokens).program tree ↔
      isTaken tree v.scope m.id name.lexeme = true ∨
        tree.hasFunction v.scope name.lexeme = true := by
  have placed : (Region.own, m) ∈ v.node.placed := by
    rw [Node.placed, form]
    exact List.mem_append_left _ (List.mem_append_left _ (mem_inRegion.2 ⟨rfl, stands⟩))
  have entered := Walk.entered_of_placed (Walk.entered_of_mem tree v visits) placed
  have field : (.generic, m) ∈ v.node.form.fields := by
    rw [form]
    simp [Form.fields, Form.mem_inField, stands]
  have kind := kind_of_generic (Walk.mem_descendants_of_mem visits) field
  have here := mem_checkDeclared_generic kind named tree
    (Walk.regions tree v.scope v.node).own (v.node :: v.parents)
  rw [scopeOfGeneric_own builds visits (by rw [form]; rfl)] at here
  constructor
  · intro found
    obtain ⟨w, visits', enters, found⟩ := mem_findings.1 found
    have node := eq_of_mem_checkDeclared visits' (Walk.mem_descendants_of_mem entered) named found
    obtain rfl := Walk.eq_of_entered builds.regular.distinct visits' entered enters rfl
      (congrArg Node.id node)
    exact here.1 found
  · intro used
    exact mem_findings.2 ⟨_, entered, rfl, here.2 used⟩

/-- A finding is made with a class and at a generic of it just if it is reported twice. -/
theorem isSeenTwice_iff {record : List (Node × Regions ScopeId)}
    (builds : Builds (parse (lex source).tokens).program tree record) {f : Finding} :
    IsSeenTwice (parse (lex source).tokens).program tree (f.diagnostic rule.name) ↔
      f ∈ findings checkDeclared (parse (lex source).tokens).program tree ∧
        f ∈ findings checkGenericsOf (parse (lex source).tokens).program tree := by
  constructor
  · generalize is : f.diagnostic rule.name = d
    rintro ⟨visits, form, named, again, used⟩
    obtain rfl := Finding.diagnostic_injective rule.name is
    rename_i v className before m after bases constructors statics instances name
    have stands : m ∈ before ++ m :: after := List.mem_append_right _ List.mem_cons_self
    refine ⟨(mem_findings_declared_iff builds visits form stands named).2 used, ?_⟩
    refine mem_findings.2 ⟨_, Walk.entered_of_mem tree _ visits, rfl, ?_⟩
    simp only [checkGenericsOf, Visit.site, form]
    exact mem_checkGenerics.2 ⟨_, _, _, _, rfl, named, again, rfl⟩
  · rintro ⟨declared, found⟩
    obtain ⟨v, visits, -, found⟩ := mem_findings.1 found
    unfold checkGenericsOf at found
    split at found
    · next className generics bases constructors statics instances form =>
      obtain ⟨before, m, after, name, rfl, named, again, rfl⟩ := mem_checkGenerics.1 found
      have stands : m ∈ before ++ m :: after := List.mem_append_right _ List.mem_cons_self
      exact .mk visits form named again
        ((mem_findings_declared_iff builds visits form stands named).1 declared)
    · cases found

/-- The rule reports a finding at most twice, and twice just if it is made with a class and at a
    generic of it. -/
theorem count_lint_le_two (source : String) (tree : ScopeTree) {config : LintConfig}
    (enabled : config.disabled.contains rule.name = false) (f : Finding) :
    (lint config (parse (lex source).tokens).program tree).count (f.diagnostic rule.name) ≤ 2 ∧
      ((lint config (parse (lex source).tokens).program tree).count (f.diagnostic rule.name) = 2 ↔
        f ∈ findings checkDeclared (parse (lex source).tokens).program tree ∧
          f ∈ findings checkGenericsOf (parse (lex source).tokens).program tree) := by
  have split : Redeclaration.rule.check =
      fun site => checkDeclared site ++ checkConstructorsOf site ++ checkGenericsOf site :=
    funext check_eq
  rw [count_lint List.mem_cons_self enabled, split, count_findings_append, count_findings_append,
    (nodup_findings_declared source tree).count, (nodup_findings_constructors source tree).count,
    (nodup_findings_generics source tree).count]
  by_cases other : f ∈ findings checkConstructorsOf (parse (lex source).tokens).program tree
  · have undeclared : f ∉ findings checkDeclared (parse (lex source).tokens).program tree := by
      intro found
      obtain ⟨what, name, is⟩ := exists_name_of_mem_declared found
      exact ne_of_mem_constructors other what name is
    have nongeneric : f ∉ findings checkGenericsOf (parse (lex source).tokens).program tree := by
      intro found
      obtain ⟨name, is⟩ := exists_name_of_mem_generics found
      exact ne_of_mem_constructors other "generic" name is
    rw [if_neg undeclared, if_pos other, if_neg nongeneric]
    exact ⟨by decide, iff_of_false (by decide) fun both => undeclared both.1⟩
  · rw [if_neg other]
    by_cases declared : f ∈ findings checkDeclared (parse (lex source).tokens).program tree
    all_goals
      by_cases again : f ∈ findings checkGenericsOf (parse (lex source).tokens).program tree
      all_goals simp [declared, again]

end Redeclaration

/-- Every rule but that on names in use finds nothing twice. -/
theorem nodup_findings_of_rule {config : LintConfig} {r : Rule} (there : r ∈ config.rules)
    (other : r.name ≠ "illegal-redeclaration") (source : String) (tree : ScopeTree) :
    (findings r.check (parse (lex source).tokens).program tree).Nodup := by
  simp only [LintConfig.rules, List.mem_cons, List.not_mem_nil, or_false] at there
  rcases there with rfl | rfl | rfl | rfl | rfl | rfl
  · exact absurd rfl other
  · exact Undefined.nodup_findings source config.globals tree
  · exact ClassPlacement.nodup_findings source tree
  · exact ControlPlacement.nodup_findings source tree
  · exact ClassBody.nodup_findings source tree
  · exact IfValue.nodup_findings source tree

theorem count_lint_le_one (config : LintConfig) (source : String) (tree : ScopeTree)
    {d : Diagnostic} (other : d.source ≠ "illegal-redeclaration") :
    (lint config (parse (lex source).tokens).program tree).count d ≤ 1 := by
  by_cases reported : d ∈ lint config (parse (lex source).tokens).program tree
  · obtain ⟨r, there, enabled, f, rfl⟩ := exists_finding_of_mem_lint reported
    rw [count_lint there enabled]
    exact List.nodup_iff_count_le_one.1 (nodup_findings_of_rule there other source tree) f
  · rw [List.count_eq_zero_of_not_mem reported]
    exact Nat.zero_le 1

/-- No report is made more than twice. Those are made twice that are about a generic of a class with
    the name of an earlier one while that name is also in use around the class: once with the class
    and once by itself. -/
theorem lint_once {source : String} {config : LintConfig} {report : Report}
    (checked : check source config = .ok report) (d : Diagnostic) :
    report.lint.count d ≤ 2 ∧ (report.lint.count d = 2 ↔
      config.disabled.contains "illegal-redeclaration" = false ∧
        Redeclaration.IsSeenTwice report.program report.tree d) := by
  cases built : buildScopes (parse (lex source).tokens).program with
  | error e =>
    rw [check_eq_error_iff.2 built] at checked
    cases checked
  | ok tree =>
    rw [check_of_ok built] at checked
    cases checked
    by_cases own : d.source = "illegal-redeclaration"
    · obtain ⟨source', message, span⟩ := d
      subst own
      obtain ⟨record, builds⟩ := builds_of_ok (parse_isRegular _) built
      have twice := Redeclaration.isSeenTwice_iff builds (f := ⟨message, span⟩)
      cases enabled : config.disabled.contains "illegal-redeclaration" with
      | false =>
        have counted := Redeclaration.count_lint_le_two source tree enabled ⟨message, span⟩
        exact ⟨counted.1, counted.2.trans (twice.symm.trans (and_iff_right rfl).symm)⟩
      | true =>
        rw [List.count_eq_zero_of_not_mem (not_mem_lint_of_disabled enabled _ _)]
        exact ⟨Nat.zero_le 2, iff_of_false (by decide) fun both => absurd both.1 (by decide)⟩
    · have once := count_lint_le_one config source tree own
      refine ⟨Nat.le_succ_of_le once, iff_of_false (fun twice => ?_) ?_⟩
      · rw [twice] at once
        exact absurd once (by decide)
      · rintro ⟨-, ⟨-, -, -, -, -⟩⟩
        exact own rfl

/-- A repeated name that is not in use around the class. -/
theorem lint_once_unused :
    ∃ report d, check "class Box<T, T>\n" .standard = .ok report ∧ report.lint = [d] ∧
      d.source = "illegal-redeclaration" ∧
      ¬ Redeclaration.IsSeenTwice report.program report.tree d := by
  have test : (check "class Box<T, T>\n" .standard).toOption.any (fun report =>
      decide (report.lint.map (·.source) = ["illegal-redeclaration"])) = true := by
    decide +kernel
  cases checked : check "class Box<T, T>\n" .standard with
  | error e =>
    rw [checked] at test
    cases test
  | ok report =>
    rw [checked] at test
    obtain ⟨d, lint, source⟩ := List.map_eq_singleton_iff.1 (of_decide_eq_true test)
    have counted := (lint_once checked d).2
    rw [lint, List.count_singleton_self] at counted
    refine ⟨report, d, rfl, lint, source, fun twice => ?_⟩
    exact absurd (counted.2 ⟨by decide, twice⟩) (by decide)

/-- One that is. -/
theorem not_lint_once_used :
    ∃ report, check "class T\nclass Box<T, T>\n" .standard = .ok report ∧
      ¬ report.lint.Nodup := by
  have test : (check "class T\nclass Box<T, T>\n" .standard).toOption.any (fun report =>
      decide (¬ report.lint.Nodup)) = true := by
    decide +kernel
  cases checked : check "class T\nclass Box<T, T>\n" .standard with
  | error e =>
    rw [checked] at test
    cases test
  | ok report =>
    rw [checked] at test
    exact ⟨report, rfl, of_decide_eq_true test⟩

end TekLang
