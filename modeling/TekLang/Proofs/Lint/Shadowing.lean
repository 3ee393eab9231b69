import TekLang.Lint
import TekLang.Proofs.Scope.Contents
import TekLang.Proofs.Scope.Paths

/-!
# Local declarations that shadow others

A local declaration is reported if its name is bound to another node in a scope that can be seen
from where it stands, unless that is a scope of a class. The rule has a walk of its own through the
scopes around a declaration, and that walk ends at a scope of static members and at a class that
stands in another class.
-/

namespace TekLang

theorem exists_of_mem_parameterBindings {ns : List Node} {b : Binding}
    (made : b ∈ parameterBindings ns) : ∃ m ∈ ns, m.id = b.node := by
  rw [parameterBindings_eq] at made
  obtain ⟨d, there, rfl⟩ := List.mem_map.1 made
  obtain ⟨m, member, is⟩ := List.mem_filterMap.1 there
  obtain ⟨rfl, _⟩ := Node.of_parameter? is
  obtain ⟨name, node, sort⟩ := d
  refine ⟨node, member, ?_⟩
  cases sort <;> rfl

theorem exists_of_mem_importBindings {node : NodeId} {path : List Token} {rename : Option Token}
    {exposed : List Node} {b : Binding} (made : b ∈ importBindings node path rename exposed) :
    b.node = node ∨ ∃ m ∈ exposed, m.id = b.node := by
  unfold importBindings at made
  split at made
  · obtain rfl := List.mem_singleton.1 made
    exact .inl rfl
  · split at made
    · obtain ⟨last, _, rfl⟩ := List.mem_map.1 made
      exact .inl rfl
    · obtain ⟨m, member, listed⟩ := List.mem_filterMap.1 made
      obtain ⟨name, _, rfl⟩ := Option.map_eq_some_iff.1 listed
      exact .inr ⟨m, member, rfl⟩

theorem of_mem_constructorBindings {generics : List Node} {n : Node} {b : Binding}
    (made : b ∈ constructorBindings generics n) : n.id = b.node ∧ Region.ofMember n = .own := by
  unfold constructorBindings at made
  split at made
  · next form =>
    obtain rfl := List.mem_singleton.1 made
    exact ⟨rfl, by rw [Region.ofMember, form]⟩
  · cases made

/-- A binding that a node makes in one of its regions is made for the node itself or for one that
    stands in the region. -/
theorem node_of_enter_mem_plan {n : Node} {region : Region} {b : Binding}
    (planned : .enter region b ∈ n.plan) :
    b.node = n.id ∨ ∃ m, (region, m) ∈ n.placed ∧ m.id = b.node := by
  obtain ⟨id, span, form⟩ := n
  cases form with
  | functionDecl name generics params result body =>
    simp [Node.plan, Node.steps, Regions.names, openOwn] at planned
    rcases planned with ⟨_, rfl⟩ | ⟨rfl, made⟩ | ⟨rfl, made⟩
    · exact .inl rfl
    all_goals
      obtain ⟨m, member, same⟩ := exists_of_mem_parameterBindings made
      refine .inr ⟨m, ?_, same⟩
      simp [Node.placed, mem_inRegion, Node.children, Form.parts, member]
  | classDecl name generics bases constructors statics instances =>
    simp [Node.plan, Node.steps, Regions.names] at planned
    rcases planned with ⟨_, rfl⟩ | ⟨rfl, made⟩ | ⟨rfl, m, member, made⟩
    · exact .inl rfl
    · obtain ⟨m, member, same⟩ := exists_of_mem_parameterBindings made
      refine .inr ⟨m, ?_, same⟩
      simp [Node.placed, mem_inRegion, member]
    · obtain ⟨same, own⟩ := of_mem_constructorBindings made
      refine .inr ⟨m, ?_, same⟩
      simp [Node.placed, mem_inMemberRegions, member, own]
  | constructor params body =>
    simp [Node.plan, Node.steps, Regions.names, openOwn] at planned
    obtain ⟨rfl, made⟩ := planned
    obtain ⟨m, member, same⟩ := exists_of_mem_parameterBindings made
    refine .inr ⟨m, ?_, same⟩
    simp [Node.placed, mem_inRegion, Node.children, Form.parts, member]
  | importDecl path rename exposed =>
    simp [Node.plan, Node.steps, Regions.names] at planned
    obtain ⟨rfl, made⟩ := planned
    rcases exists_of_mem_importBindings made with same | ⟨m, member, same⟩
    · exact .inl same
    · exact .inr ⟨m, mem_inRegion.2 ⟨rfl, member⟩, same⟩
  | _ =>
    left
    cases region <;> simp [Node.plan, Node.steps, Regions.names, openOwn] at planned
    all_goals
      subst planned
      rfl

namespace Runs

variable {steps : List (ScopeStep ScopeId)} {tree tree' : ScopeTree}
  {record : List (Node × Regions ScopeId)}

/-- What a name is bound to is what it was bound to or what a binding of the run says. -/
theorem of_table (runs : Runs steps tree record tree') {s : ScopeId} {name : String}
    {entry : SymbolEntry} (bound : (tree'.table s).get? name = some entry) :
    (tree.table s).get? name = some entry ∨
      ∃ b, .enter s b ∈ performed steps record ∧ b.key = name ∧ b.node = entry.node := by
  induction runs with
  | nil => exact .inl bound
  | @enter scope b steps tree record tree' known _ _ ih =>
    rcases ih bound with was | ⟨b', entered, made⟩
    · by_cases here : scope = s
      · subst here
        rw [ScopeTree.table_enter _ _ _ known, SymbolTable.get?_enter, Option.or_eq_some_iff] at was
        rcases was with was | ⟨_, new⟩
        · exact .inl was
        · obtain ⟨key, same⟩ := Option.ite_none_right_eq_some.1 new
          cases same
          exact .inr ⟨b, List.mem_cons_self, key, rfl⟩
      · rw [ScopeTree.table_enter_of_ne _ _ here] at was
        exact .inl was
    · exact .inr ⟨b', .tail _ entered, made⟩
  | opening known _ _ ih =>
    rcases ih bound with was | ⟨b, entered, made⟩
    · rw [ScopeTree.table_add known] at was
      exact .inl was
    · exact .inr ⟨b, .tail _ entered, made⟩
  | visit _ _ _ _ ih_within ih =>
    rcases ih bound with was | ⟨b, entered, made⟩
    · rcases ih_within was with was | ⟨b, entered, made⟩
      · exact .inl was
      · exact .inr ⟨b, mem_performed_visit.2 (.inr (.inl entered)), made⟩
    · exact .inr ⟨b, mem_performed_visit.2 (.inr (.inr entered)), made⟩

end Runs

namespace Builds

variable {program : Node} {tree : ScopeTree} {record : List (Node × Regions ScopeId)}

theorem around_le_get (builds : Builds program tree record) {n : Node} {r : Regions ScopeId}
    (there : (n, r) ∈ record) {region : Region} (has : n.form.Has region) :
    r.around ≤ r.get region := by
  cases region with
  | around => exact Nat.le_refl _
  | own =>
    obtain ⟨kind, opens⟩ := Option.ne_none_iff_exists'.1 has
    exact Nat.le_of_lt (builds.has_opened there (own_mem_openings r opens)).behind
  | statics =>
    have own := builds.has_opened there (own_mem_openings r (Form.opens?_of_opensStatics has))
    have statics := builds.has_opened there (statics_mem_openings r has)
    exact Nat.le_of_lt (Nat.lt_trans own.behind statics.behind)

/-- What is bound in a scope was bound by a node for one of its regions. -/
theorem exists_enter_of_bound (builds : Builds program tree record) {s : ScopeId} {name : String}
    {entry : SymbolEntry} (bound : (tree.table s).get? name = some entry) :
    ∃ n r region b, (n, r) ∈ record ∧ .enter region b ∈ n.plan ∧ r.get region = s ∧
      b.node = entry.node := by
  have unbound : (ScopeTree.ofProgram program.id).table s = .empty := by
    cases s <;> rfl
  rcases builds.runs.of_table bound with was | ⟨b, entered, _, node⟩
  · rw [unbound] at was
    cases was
  obtain ⟨n, r, there, taken⟩ : ∃ n r, (n, r) ∈ record ∧ .enter s b ∈ n.steps r := by
    rcases List.mem_append.1 entered with first | taken
    · cases List.mem_singleton.1 first
    · obtain ⟨⟨n, r⟩, there, taken⟩ := List.mem_flatMap.1 taken
      exact ⟨n, r, there, taken⟩
  rw [steps_eq_map_plan] at taken
  obtain ⟨step, planned, same⟩ := List.mem_map.1 taken
  cases step with
  | enter region b =>
    cases same
    exact ⟨n, r, region, b, there, planned, rfl, node⟩
  | _ => cases same

/-- No node is bound in a scope further out than the one it stands in. -/
theorem scope_le_of_bound (builds : Builds program tree record) {v : Visit}
    (visits : v ∈ walk program tree) {s : ScopeId} {name : String} {entry : SymbolEntry}
    (bound : (tree.table s).get? name = some entry) (same : entry.node = v.node.id) :
    v.scope ≤ s := by
  obtain ⟨n, r, region, b, there, planned, rfl, node⟩ := builds.exists_enter_of_bound bound
  have below := Walk.mem_descendants_of_mem visits
  rcases node_of_enter_mem_plan planned with own | ⟨m, stands, child⟩
  · have number : n.id = v.node.id := own.symm.trans (node.trans same)
    obtain rfl := List.inj_on_of_nodup_map builds.regular.distinct (builds.mem_descendants there)
      below number
    rw [builds.scope_eq visits there]
    exact builds.around_le_get there (has_scope_of_mem_plan _ _ planned)
  · obtain ⟨around, enters⟩ := builds.entered there
    have inside := Walk.entered_of_placed enters stands
    have number : v.node.id = m.id := (child.trans (node.trans same)).symm
    have one := Walk.eq_of_entered builds.regular.distinct (Walk.entered_of_mem tree v visits)
      inside rfl rfl number
    rw [← builds.regions_get there stands]
    exact Nat.le_of_eq (congrArg (·.scope) one)

end Builds

namespace ScopeTree

variable {tree : ScopeTree}

/-- Whether a scope is one of the two scopes of a class. -/
def IsOfClass (tree : ScopeTree) (s : ScopeId) : Prop :=
  tree.kind? s = some .instances ∨ tree.kind? s = some .statics

instance (s : ScopeId) : Decidable (tree.IsOfClass s) := inferInstanceAs (Decidable (_ ∨ _))

/-- The part of a path in front of one of its scopes. -/
def inFrontOf (b : ScopeId) (path : List ScopeId) : List ScopeId := path.takeWhile (· ≠ b)

theorem inFrontOf_cons {b s : ScopeId} (differs : s ≠ b) (path : List ScopeId) :
    inFrontOf b (s :: path) = s :: inFrontOf b path :=
  List.takeWhile_cons_of_pos (decide_eq_true differs)

/-- What does not end the walk of the rule: on the way there is no scope of static members, and no
    class stands directly in another class. -/
structure IsOpen (tree : ScopeTree) (way : List ScopeId) : Prop where
  statics : ∀ s ∈ way, tree.kind? s ≠ some .statics
  classes : way.IsChain fun inner outer =>
    ¬(tree.kind? inner = some .instances ∧ tree.kind? outer = some .instances)

theorem isOpen_iff {way : List ScopeId} : tree.IsOpen way ↔
    (∀ s ∈ way, tree.kind? s ≠ some .statics) ∧ way.IsChain fun inner outer =>
      ¬(tree.kind? inner = some .instances ∧ tree.kind? outer = some .instances) :=
  ⟨fun way => ⟨way.statics, way.classes⟩, fun way => ⟨way.1, way.2⟩⟩

instance (way : List ScopeId) : Decidable (tree.IsOpen way) := decidable_of_iff' _ isOpen_iff

theorem IsOpen.tail {s : ScopeId} {way : List ScopeId} (open' : tree.IsOpen (s :: way)) :
    tree.IsOpen way := by
  refine ⟨?_, open'.classes.of_cons⟩
  intro other member
  exact open'.statics other (.tail _ member)

end ScopeTree

namespace Redeclaration

variable {tree : ScopeTree}

theorem relevant_of_isOfClass {id : ScopeId} (ofClass : tree.IsOfClass id) (outer : List ScopeId) :
    relevant tree (id :: outer) = [id] := by
  cases outer with
  | nil => rfl
  | cons next outer =>
    rw [relevant]
    exact if_pos ofClass

theorem relevant_of_not_isOfClass {id : ScopeId} (other : ¬tree.IsOfClass id) (next : ScopeId)
    (outer : List ScopeId) : relevant tree (id :: next :: outer) =
      id :: if tree.kind? next = some .instances then relevant tree outer
        else relevant tree (next :: outer) := by
  rw [relevant]
  exact if_neg other

/-- The walk of the rule gets to nothing that names are not looked up in. -/
theorem relevant_subset (tree : ScopeTree) (path : List ScopeId) :
    relevant tree path ⊆ tree.skipInstances path := by
  fun_induction relevant tree path with
  | case1 | case2 => exact List.Subset.refl _
  | case3 id next outer ofClass =>
    intro s member
    obtain rfl := List.mem_singleton.1 member
    rw [ScopeTree.skipInstances]
    exact List.mem_cons_self
  | case4 id next outer other skipping going =>
    have notStatic : tree.kind? id ≠ some .statics := fun static => other (.inr static)
    rw [ScopeTree.skipInstances_cons notStatic]
    refine List.cons_subset_cons _ ?_
    split
    · next isClass =>
      rw [ScopeTree.skipInstances_cons (by simp [isClass])]
      exact List.subset_cons_of_subset _ skipping
    · exact going

/-- The walk of the rule gets to a scope that is none of a class if the way there is open. -/
theorem mem_relevant {b : ScopeId} {path : List ScopeId} (member : b ∈ path)
    (other : ¬tree.IsOfClass b) (inner : ∀ s ∈ path.head?, ¬tree.IsOfClass s)
    (way : tree.IsOpen (ScopeTree.inFrontOf b path)) : b ∈ relevant tree path := by
  fun_induction relevant tree path with
  | case1 => cases member
  | case2 id => exact member
  | case3 id next outer ofClass => exact absurd ofClass (inner id rfl)
  | case4 id next outer _ skipping going =>
    rcases List.mem_cons.1 member with rfl | member
    · exact List.mem_cons_self
    by_cases here : id = b
    · rw [here]
      exact List.mem_cons_self
    rw [ScopeTree.inFrontOf_cons here] at way
    refine .tail _ ?_
    split
    · next isClass =>
      -- The class that is passed over is not the scope looked for, and what is around it is none.
      have next_ne : next ≠ b := by
        rintro rfl
        exact other (.inl isClass)
      have member := (List.mem_cons.1 member).resolve_left (Ne.symm next_ne)
      rw [ScopeTree.inFrontOf_cons next_ne] at way
      refine skipping member ?_ way.tail.tail
      intro s first
      cases outer with
      | nil => cases first
      | cons s' outer =>
        cases first
        by_cases found : s = b
        · rw [found]
          exact other
        · rw [ScopeTree.inFrontOf_cons found] at way
          have apart := (List.isChain_cons_cons.1 way.tail.classes).1
          rintro (instances | static)
          · exact apart ⟨isClass, instances⟩
          · exact way.statics s (by simp) static
    · next noClass =>
      refine going member ?_ way.tail
      intro s first
      cases first
      by_cases found : next = b
      · rw [found]
        exact other
      · rw [ScopeTree.inFrontOf_cons found] at way
        rintro (instances | static)
        · exact noClass instances
        · exact way.statics next (by simp) static

theorem relevant_cons (tree : ScopeTree) (id : ScopeId) (outer : List ScopeId) :
    ∃ rest, relevant tree (id :: outer) = id :: rest ∧ rest.Sublist outer := by
  have sublist (path : List ScopeId) : (relevant tree path).Sublist path := by
    fun_induction relevant tree path with
    | case1 => exact .slnil
    | case2 id => exact .refl _
    | case3 id next outer ofClass => exact (List.nil_sublist _).cons_cons _
    | case4 id next outer _ skipping going =>
      split
      · exact (skipping.cons _).cons_cons _
      · exact going.cons_cons _
  cases outer with
  | nil => exact ⟨[], rfl, .slnil⟩
  | cons next outer =>
    rw [relevant]
    split
    · exact ⟨[], rfl, List.nil_sublist _⟩
    · refine ⟨_, rfl, ?_⟩
      split
      · exact (sublist outer).cons _
      · exact sublist (next :: outer)

/-- A name is taken if a scope that the walk gets to has it bound to another node. -/
theorem isTaken_of_bound {program : Node} {record : List (Node × Regions ScopeId)}
    (builds : Builds program tree record) {v : Visit} (visits : v ∈ walk program tree) {b : ScopeId}
    (member : b ∈ relevant tree (tree.path v.scope)) {name : String} {entry : SymbolEntry}
    (bound : (tree.table b).get? name = some entry) (other : entry.node ≠ v.node.id) :
    isTaken tree v.scope v.node.id name = true := by
  unfold isTaken declaration?
  cases is : tree.get? v.scope with
  | none =>
    rw [ScopeTree.path, is] at member
    cases member
  | some scope =>
    have path : tree.path v.scope = v.scope :: scope.around := by rw [ScopeTree.path, is]
    obtain ⟨rest, relevant, part⟩ := relevant_cons tree v.scope scope.around
    rw [path, relevant] at member ⊢
    rw [List.reverse_cons, List.findSome?_append]
    -- The outermost binding counts. Further out than it stands the node is not bound, so what is
    -- found there is another one.
    cases outermost : rest.reverse.findSome? fun s => (tree.table s).get? name with
    | some entry' =>
      obtain ⟨s, further, bound'⟩ := List.exists_of_findSome?_eq_some outermost
      rw [Option.some_or, Option.any_some, decide_eq_true_eq]
      intro same
      have inside := builds.scope_le_of_bound visits bound' same
      have outside := builds.lt_of_mem_around is s (part.subset (List.mem_reverse.1 further))
      exact absurd outside (Nat.not_lt.2 inside)
    | none =>
      rcases List.mem_cons.1 member with rfl | further
      · rw [Option.none_or, List.findSome?_singleton, bound, Option.any_some, decide_eq_true_eq]
        exact other
      · rw [List.findSome?_eq_none_iff] at outermost
        rw [outermost b (List.mem_reverse.2 further)] at bound
        cases bound

/-- What reports call a local declaration. -/
def localSort? : Form Node → Option String
  | .variableDecl .. | .forEach .. | .catchClause .. => some "variable"
  | .parameter .. => some "param"
  | .importedName .. => some "import"
  | .importDecl _ rename exposed =>
    if rename.isSome || exposed.isEmpty then some "import" else none
  | _ => none

theorem check_of_localSort {site : Site} {what : String}
    (sort : localSort? site.node.form = some what) :
    check site = checkName site site.scope what := by
  obtain ⟨tree, ⟨id, span, form⟩, scope, parents⟩ := site
  cases form with
  | variableDecl | forEach | catchClause | parameter | importedName =>
    cases sort
    rfl
  | importDecl path rename exposed =>
    obtain ⟨declares, same⟩ := Option.ite_none_right_eq_some.1 sort
    cases same
    exact if_pos declares
  | _ => cases sort

theorem checkName_of_isTaken {site : Site} {scope : ScopeId} {what : String} {name : Token}
    (named : site.node.declaredName? = some name)
    (taken : isTaken site.tree scope site.node.id name.lexeme = true) :
    checkName site scope what = [alreadyUsed what name] := by
  rw [checkName, named]
  refine if_pos ?_
  rw [taken, Bool.true_or]

/-- The scope that a local declaration is made in: the one that is opened for the variable of a loop
    or of a handler, and any other is made where it stands. -/
def home (tree : ScopeTree) (v : Visit) : ScopeId :=
  match v.node.form with
  | .forEach .. | .catchClause .. => (tree.ownScope? v.scope v.node.id).getD v.scope
  | _ => v.scope

/-- Whether a declaration shadows what its name is bound to in another scope, or further up in its
    own one. -/
structure Shadows (tree : ScopeTree) (v : Visit) (name : String) (b : ScopeId) : Prop where
  reached : b ∈ tree.lookupChain (home tree v)
  outside : ¬tree.IsOfClass b
  bound : ∃ entry, (tree.table b).get? name = some entry ∧ entry.node ≠ v.node.id

theorem shadows_iff {v : Visit} {name : String} {b : ScopeId} : Shadows tree v name b ↔
    b ∈ tree.lookupChain (home tree v) ∧ ¬tree.IsOfClass b ∧
      ((tree.table b).get? name).any (·.node ≠ v.node.id) = true := by
  simp only [Option.any_eq_true, decide_eq_true_eq]
  exact ⟨fun shadows => ⟨shadows.reached, shadows.outside, shadows.bound⟩,
    fun ⟨reached, outside, bound⟩ => ⟨reached, outside, bound⟩⟩

instance (v : Visit) (name : String) (b : ScopeId) : Decidable (Shadows tree v name b) :=
  decidable_of_iff' _ shadows_iff

section Reports

variable {program : Node} {record : List (Node × Regions ScopeId)} {v : Visit} {b : ScopeId}

/-- The variable of a loop or of a handler is what its name is bound to in the scope opened for it,
    so what it shadows is further out. -/
theorem mem_path_of_opens (builds : Builds program tree record) (visits : v ∈ walk program tree)
    {name : String} (opens : v.node.form.opens? = some .block)
    (first : ∃ others, v.node.bindingsIn .own = .plain name v.node.id :: others)
    (reached : b ∈ tree.lookupChain ((tree.ownScope? v.scope v.node.id).getD v.scope))
    {entry : SymbolEntry} (bound : (tree.table b).get? name = some entry)
    (other : entry.node ≠ v.node.id) : b ∈ tree.lookupChain v.scope := by
  have has : v.node.form.Has .own := by
    rw [Form.Has, opens]
    exact Option.some_ne_none _
  have inner : Region.own ≠ .around := by decide
  rcases builds.isDetail_or_mem_record (Walk.mem_descendants_of_mem visits) with detail | ⟨r, there⟩
  · have own : Opens program v.node .own _ := .own opens
    exact absurd detail (not_isDetail_of_opens own inner)
  rw [builds.scope_eq visits there, builds.ownScope?_of_opens there opens, Option.getD_some,
    ← Regions.get.eq_2, builds.lookupChain_get there has inner] at reached
  rw [builds.scope_eq visits there]
  rcases List.mem_cons.1 reached with rfl | outside
  · obtain ⟨others, first⟩ := first
    have head : (Binding.plain name v.node.id :: others).find? (·.key = name) =
        some (.plain name v.node.id) := List.find?_cons_of_pos (decide_eq_true rfl)
    rw [builds.table_get there has inner, first, SymbolTable.get?_foldl, head] at bound
    cases bound
    exact absurd rfl other
  · exact outside

theorem mem_path_of_shadows (builds : Builds program tree record) (visits : v ∈ walk program tree)
    {name : Token} (named : v.node.declaredName? = some name)
    (shadows : Shadows tree v name.lexeme b) : b ∈ tree.path v.scope := by
  obtain ⟨reached, _, entry, bound, other⟩ := shadows
  have outside : b ∈ tree.lookupChain v.scope := by
    obtain ⟨phase, ⟨id, span, form⟩, scope, parents⟩ := v
    cases form with
    | forEach | catchClause =>
      cases named
      refine mem_path_of_opens builds visits rfl ?_ reached bound other
      simp [Node.bindingsIn, Node.plan, Node.steps, Regions.names, openOwn, ScopeStep.makes]
    | _ => exact reached
  exact (tree.skipInstances_sublist _).subset outside

/-- A site where the rule finds something is in the report. -/
theorem mem_lint_of_check {config : LintConfig}
    (enabled : config.disabled.contains rule.name = false) (visits : v ∈ walk program tree)
    {finding : Finding} (found : finding ∈ check (v.site tree)) :
    finding.diagnostic rule.name ∈ lint config program tree := by
  have runs : rule ∈ config.rules.filter config.isEnabled := by
    rw [List.mem_filter, LintConfig.isEnabled, enabled]
    exact ⟨List.mem_cons_self, rfl⟩
  have entered : ⟨.enter, v.node, v.scope, v.parents⟩ ∈
      (walk program tree).filter (·.phase = .enter) :=
    List.mem_filter.2 ⟨Walk.entered_of_mem tree v visits, rfl⟩
  rw [lint, (inSourceOrder_perm ..).mem_iff, List.mem_flatMap]
  exact ⟨_, entered, List.mem_flatMap.2 ⟨rule, runs, List.mem_map_of_mem found⟩⟩

end Reports

end Redeclaration

/-- A local declaration is reported if it shadows another declaration and the way out to that one's
    scope is open. -/
theorem lint_shadowing (tokens : List Token) (config : LintConfig)
    (enabled : config.disabled.contains "illegal-redeclaration" = false) {tree : ScopeTree}
    (built : buildScopes (parse tokens).program = .ok tree) {v : Visit}
    (visits : v ∈ walk (parse tokens).program tree) {what : String}
    (sort : Redeclaration.localSort? v.node.form = some what) {name : Token}
    (named : v.node.declaredName? = some name) (inner : ¬tree.IsOfClass v.scope) {b : ScopeId}
    (shadows : Redeclaration.Shadows tree v name.lexeme b)
    (way : tree.IsOpen (ScopeTree.inFrontOf b (tree.path v.scope))) :
    (Redeclaration.alreadyUsed what name).diagnostic "illegal-redeclaration" ∈
      lint config (parse tokens).program tree := by
  obtain ⟨record, builds⟩ := builds_of_ok (parse_isRegular tokens) built
  have member := Redeclaration.mem_path_of_shadows builds visits named shadows
  have first : ∀ s ∈ (tree.path v.scope).head?, ¬tree.IsOfClass s := by
    intro s first
    rw [ScopeTree.path] at first
    split at first
    · cases first
    · cases first
      exact inner
  have relevant := Redeclaration.mem_relevant member shadows.outside first way
  obtain ⟨entry, bound, other⟩ := shadows.bound
  have taken := Redeclaration.isTaken_of_bound builds visits relevant bound other
  have finds : Redeclaration.check (v.site tree) = [Redeclaration.alreadyUsed what name] :=
    (Redeclaration.check_of_localSort sort).trans (Redeclaration.checkName_of_isTaken named taken)
  refine Redeclaration.mem_lint_of_check enabled visits ?_
  rw [finds]
  exact List.mem_singleton_self _

/-- The variable of a method is reported, for the way out leads past its class. -/
theorem lint_shadowing_method :
    let program :=
      (parse (lex "var x = 1\nclass A\n  function f()\n    var x = 2\n").tokens).program
    ∃ tree v name, buildScopes program = .ok tree ∧ v ∈ walk program tree ∧
      Redeclaration.localSort? v.node.form = some "variable" ∧
      v.node.declaredName? = some name ∧ ¬tree.IsOfClass v.scope ∧
      Redeclaration.Shadows tree v name.lexeme ScopeTree.root ∧
      tree.IsOpen (ScopeTree.inFrontOf ScopeTree.root (tree.path v.scope)) ∧
      (Redeclaration.alreadyUsed "variable" name).diagnostic "illegal-redeclaration" ∈
        lint .standard program tree := by
  intro program
  have test : (buildScopes program).toOption.any (fun tree => (walk program tree).any fun v =>
      v.node.declaredName?.any fun name =>
        decide (Redeclaration.localSort? v.node.form = some "variable" ∧
          ¬tree.IsOfClass v.scope ∧ Redeclaration.Shadows tree v name.lexeme ScopeTree.root ∧
          tree.IsOpen (ScopeTree.inFrontOf ScopeTree.root (tree.path v.scope)))) = true := by
    decide +kernel
  obtain ⟨tree, built, test⟩ := exists_of_any test
  obtain ⟨v, visits, test⟩ := List.any_eq_true.1 test
  obtain ⟨name, named, test⟩ := (Option.any_eq_true ..).1 test
  obtain ⟨sort, inner, shadows, way⟩ := of_decide_eq_true test
  exact ⟨tree, v, name, built, visits, sort, named, inner, shadows, way,
    lint_shadowing _ .standard rfl built visits sort named inner shadows way⟩

/-- The variable of a static method is not, for the way out ends at the scope of the static
    members. -/
theorem not_lint_shadowing_static_method :
    let program :=
      (parse (lex "var x = 1\nclass A\n  static function f()\n    var x = 2\n").tokens).program
    ∃ tree v name, buildScopes program = .ok tree ∧ v ∈ walk program tree ∧
      (∃ n ∈ v.parents, n.kind = .functionDecl) ∧
      Redeclaration.localSort? v.node.form = some "variable" ∧
      v.node.declaredName? = some name ∧ ¬tree.IsOfClass v.scope ∧
      Redeclaration.Shadows tree v name.lexeme ScopeTree.root ∧
      ¬(Redeclaration.alreadyUsed "variable" name).diagnostic "illegal-redeclaration" ∈
        lint .standard program tree := by
  intro program
  have test : (buildScopes program).toOption.any (fun tree => (walk program tree).any fun v =>
      v.node.declaredName?.any fun name =>
        decide ((∃ n ∈ v.parents, n.kind = .functionDecl) ∧
          Redeclaration.localSort? v.node.form = some "variable" ∧
          ¬tree.IsOfClass v.scope ∧ Redeclaration.Shadows tree v name.lexeme ScopeTree.root ∧
          ¬(Redeclaration.alreadyUsed "variable" name).diagnostic "illegal-redeclaration" ∈
            lint .standard program tree)) = true := by
    decide +kernel
  obtain ⟨tree, built, test⟩ := exists_of_any test
  obtain ⟨v, visits, test⟩ := List.any_eq_true.1 test
  obtain ⟨name, named, test⟩ := (Option.any_eq_true ..).1 test
  obtain ⟨within, sort, inner, shadows, silent⟩ := of_decide_eq_true test
  exact ⟨tree, v, name, built, visits, within, sort, named, inner, shadows, silent⟩

end TekLang
