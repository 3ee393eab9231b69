import TekLang.Proofs.Scope.Lookup

/-!
# The scopes that mirror a tree

Which scopes a program has, said of the syntax tree alone. Every node of a form that opens a scope
opens just one of them, a class a second one for its static members, and there are no others but
that of the program. Each scope stands behind the one around it, which knows of it under the number
of its node.
-/

namespace TekLang

/-- The scopes that a node opens itself, each as its kind with the number of the node. -/
def Node.ownScopes (n : Node) : List (ScopeKind × NodeId) :=
  n.form.opens?.toList.map (·, n.id) ++ if n.form.opensStatics then [(.statics, n.id)] else []

/-- The scopes that are opened at a node and below it, in the order in which the pass opens them. -/
def Node.opened (n : Node) : List (ScopeKind × NodeId) :=
  n.plan.attach.flatMap fun
    | ⟨.opening o, _⟩ => [(o.kind, o.node)]
    | ⟨.visit _ m, _⟩ => m.opened
    | _ => []
termination_by n.descendants.length
decreasing_by exact length_descendants_lt (mem_children_of_visit_mem_plan ‹_›)

namespace ScopeStep

variable {α β : Type}

/-- The scopes that are opened by a step. -/
def opens : ScopeStep α → List (ScopeKind × NodeId)
  | enter _ _ => []
  | opening o => [(o.kind, o.node)]
  | visit _ n => n.opened

@[simp] theorem opens_map (f : α → β) (step : ScopeStep α) : (step.map f).opens = step.opens := by
  cases step <;> rfl

end ScopeStep

section Opened

variable {α : Type}

theorem Node.opened_eq (n : Node) : n.opened = n.plan.flatMap ScopeStep.opens := by
  have same : ∀ step : { step // step ∈ n.plan }, (match step with
      | ⟨.opening o, _⟩ => [(o.kind, o.node)]
      | ⟨.visit _ m, _⟩ => m.opened
      | _ => []) = ScopeStep.opens step.val := by
    rintro ⟨step, _⟩
    cases step <;> rfl
  rw [opened, List.flatMap_congr fun step _ => same step]
  conv_rhs => rw [← List.attach_map_subtype_val n.plan, List.flatMap_map]

theorem flatMap_opens (n : Node) (r : Regions α) :
    (n.steps r).flatMap ScopeStep.opens = n.opened := by
  rw [Node.opened_eq, steps_eq_map_plan, List.flatMap_map]
  simp only [ScopeStep.opens_map]

/-- The scopes that steps open themselves. -/
def openedBy (steps : List (ScopeStep α)) : List (Opening α) :=
  steps.filterMap fun
    | .opening o => some o
    | _ => none

theorem openedBy_steps (n : Node) (r : Regions α) : openedBy (n.steps r) = n.openings r := by
  obtain ⟨id, span, form⟩ := n
  cases form <;>
    simp [openedBy, Node.steps, Node.openings, Form.opens?, Form.opensStatics, openOwn, enterAll,
      visitAll, constructorSteps, List.filterMap_flatMap]

theorem map_openings (n : Node) (r : Regions α) :
    (n.openings r).map (fun o => (o.kind, o.node)) = n.ownScopes := by
  obtain ⟨id, span, form⟩ := n
  cases form <;> rfl

/-- What is opened in steps is what they open themselves and what is opened at the nodes that they
    come to. -/
theorem flatMap_opens_perm (steps : List (ScopeStep α)) :
    (steps.flatMap ScopeStep.opens).Perm
      ((openedBy steps).map (fun o => (o.kind, o.node)) ++
        (visited steps).flatMap Node.opened) := by
  induction steps with
  | nil => exact .refl _
  | cons step steps ih =>
    cases step with
    | enter => exact ih
    | opening o => exact ih.cons _
    | visit scope n =>
      rw [List.flatMap_cons, visited_visit, List.flatMap_cons]
      exact (ih.append_left n.opened).trans (List.perm_append_comm_assoc ..)

end Opened

namespace Node

theorem ownScopes_of_isDetail {n : Node} (detail : n.form.isDetail = true) : n.ownScopes = [] := by
  obtain ⟨id, span, form⟩ := n
  cases form <;> first | rfl | cases detail

/-- The pass opens the scopes of all nodes, and those of each of them once. -/
theorem opened_perm {n : Node} (details : ∀ m ∈ n.descendants, ∀ k ∈ m.form.details,
    ∀ l ∈ k.descendants, l.form.isDetail = true) :
    n.opened.Perm (n.descendants.flatMap ownScopes) := by
  induction n using induction_on_children with
  | step n ih =>
    have parts := (details_append_visited n .names).trans n.children_perm.symm
    have visits (m : Node) (there : m ∈ visited (n.steps .names)) :
        m.opened.Perm (m.descendants.flatMap ownScopes) := by
      have below := parts.mem_iff.1 (List.mem_append_right _ there)
      apply ih m below
      intro k member
      exact details k (mem_descendants_of_child below member)
    -- The pass does not come to the details, but they open nothing.
    have silent : n.form.details.flatMap (fun m => m.descendants.flatMap ownScopes) = [] := by
      rw [List.flatMap_eq_nil_iff]
      intro m there
      rw [List.flatMap_eq_nil_iff]
      intro k member
      exact ownScopes_of_isDetail (details n n.mem_descendants_self m there k member)
    have below := parts.flatMap_right fun m => m.descendants.flatMap ownScopes
    rw [List.flatMap_append, silent, List.nil_append] at below
    have own := flatMap_opens_perm (n.steps .names)
    rw [flatMap_opens, openedBy_steps, map_openings] at own
    rw [descendants_eq, List.flatMap_cons, List.flatMap_assoc]
    exact own.trans (((List.Perm.flatMap_left _ visits).trans below).append_left _)

end Node

namespace ScopeTree

variable {tree tree' : ScopeTree}

/-- The kinds of all scopes with the numbers of their nodes, in the order of the scopes. -/
def keys (tree : ScopeTree) : List (ScopeKind × NodeId) :=
  tree.scopes.toList.map fun s => (s.kind, s.node)

theorem keys_modify {f : Scope → Scope} (kind : ∀ sc, (f sc).kind = sc.kind)
    (node : ∀ sc, (f sc).node = sc.node) (tree : ScopeTree) (id : ScopeId) :
    (tree.modify id f).keys = tree.keys := by
  apply List.ext_getElem?
  intro s
  have entry (tree : ScopeTree) :
      tree.keys[s]? = (tree.get? s).map fun sc => (sc.kind, sc.node) := by
    rw [keys, List.getElem?_map, Array.getElem?_toList]
    rfl
  rw [entry, entry, get?_modify]
  split
  · cases tree.get? s with
    | none => rfl
    | some sc => simp [kind, node]
  · rfl

@[simp] theorem keys_enter (tree : ScopeTree) (scope : ScopeId) (b : Binding) :
    (tree.enter scope b).keys = tree.keys := by
  have bound (tree : ScopeTree) (name : String) (node : NodeId) :
      (tree.bind scope name node).keys = tree.keys := by
    unfold bind
    apply keys_modify <;> exact fun _ => rfl
  cases b with
  | plain name node | unique name node => exact bound tree name node
  | function name signature node =>
    refine Eq.trans ?_ (bound tree signature node)
    unfold enter register
    apply keys_modify <;> exact fun _ => rfl

theorem keys_add (tree : ScopeTree) (o : Opening ScopeId) :
    (tree.add o).keys = tree.keys ++ [(o.kind, o.node)] := by
  have pushed (scope : Scope) :
      keys ⟨tree.scopes.push scope⟩ = tree.keys ++ [(scope.kind, scope.node)] := by
    simp [keys]
  unfold add
  split
  · exact pushed _
  · refine Eq.trans ?_ (pushed ⟨o.kind, o.node, tree.path o.around, .empty, [], o.statics⟩)
    apply keys_modify <;> exact fun _ => rfl

/-- What each scope finds stands in the order in which it was opened. -/
structure InnerSorted (tree : ScopeTree) : Prop where
  order : ∀ s, (tree.inner s).Pairwise (·.2 < ·.2)
  known : ∀ s, ∀ entry ∈ tree.inner s, entry.2 < tree.size

theorem InnerSorted.enter (sorted : tree.InnerSorted) (scope : ScopeId) (b : Binding) :
    (tree.enter scope b).InnerSorted where
  order s := by
    rw [inner_enter]
    exact sorted.order s
  known s := by
    rw [inner_enter, size_enter]
    exact sorted.known s

theorem InnerSorted.add (sorted : tree.InnerSorted) {o : Opening ScopeId}
    (known : o.around < tree.size) (next : o.own = tree.size) : (tree.add o).InnerSorted where
  order s := by
    rw [inner_add known, List.pairwise_append]
    refine ⟨sorted.order s, ?_, ?_⟩
    · split
      · exact List.pairwise_singleton ..
      · exact .nil
    · intro entry there new isNew
      split at isNew
      · obtain rfl := List.mem_singleton.1 isNew
        rw [next]
        exact sorted.known s entry there
      · cases isNew
  known s := by
    intro entry there
    rw [inner_add known] at there
    rw [size_add]
    rcases List.mem_append.1 there with there | isNew
    · exact Nat.lt_succ_of_lt (sorted.known s entry there)
    · split at isNew
      · obtain rfl := List.mem_singleton.1 isNew
        exact Nat.lt_succ_of_le (Nat.le_of_eq next)
      · cases isNew

end ScopeTree

namespace Runs

variable {steps : List (ScopeStep ScopeId)} {tree tree' : ScopeTree}
  {record : List (Node × Regions ScopeId)}

/-- A run adds the scopes that its steps open, in their order. -/
theorem keys_eq (runs : Runs steps tree record tree') :
    tree'.keys = tree.keys ++ steps.flatMap ScopeStep.opens := by
  induction runs with
  | nil => exact (List.append_nil _).symm
  | enter _ _ _ ih =>
    rw [ScopeTree.keys_enter] at ih
    exact ih
  | opening _ _ _ ih =>
    rw [ih, ScopeTree.keys_add, List.append_assoc]
    rfl
  | visit _ _ _ _ ih_within ih =>
    rw [ih, ih_within, flatMap_opens, List.append_assoc]
    rfl

theorem innerSorted (runs : Runs steps tree record tree') (sorted : tree.InnerSorted) :
    tree'.InnerSorted := by
  induction runs with
  | nil => exact sorted
  | enter _ _ _ ih => exact ih (sorted.enter _ _)
  | opening known next _ ih => exact ih (sorted.add known next)
  | visit _ _ _ _ ih_within ih => exact ih (ih_within sorted)

end Runs

namespace Builds

variable {program : Node} {tree : ScopeTree} {record : List (Node × Regions ScopeId)}

theorem keys_eq (builds : Builds program tree record) :
    tree.keys = (.program, program.id) :: program.opened := by
  rw [builds.runs.keys_eq, List.flatMap_singleton]
  rfl

/-- A node is found in one place with one scope. -/
theorem inner_unique (builds : Builds program tree record) {s s' own own' : ScopeId}
    {node : NodeId} (there : (node, own) ∈ tree.inner s) (there' : (node, own') ∈ tree.inner s') :
    s = s' ∧ own = own' := by
  obtain ⟨n, r, _, recorded, _, rfl, same, rfl⟩ := builds.mem_inner.1 there
  obtain ⟨m, r', _, recorded', _, rfl, same', rfl⟩ := builds.mem_inner.1 there'
  rw [(builds.eq_of_id recorded recorded' (same.symm.trans same')).2]
  exact ⟨rfl, rfl⟩

/-- No scope finds two scopes by one node. -/
theorem inner_nodup (builds : Builds program tree record) (s : ScopeId) :
    ((tree.inner s).map (·.1)).Nodup := by
  have first : (ScopeTree.ofProgram program.id).InnerSorted := by
    have empty (s : ScopeId) : (ScopeTree.ofProgram program.id).inner s = [] := by
      cases s <;> rfl
    constructor
    · intro s
      rw [empty]
      exact .nil
    · intro s
      rw [empty]
      exact nofun
  have distinct : (tree.inner s).Nodup := by
    refine ((builds.runs.innerSorted first).order s).imp ?_
    rintro entry other less rfl
    exact Nat.lt_irrefl _ less
  refine distinct.map_on ?_
  rintro ⟨node, own⟩ there ⟨_, own'⟩ there' rfl
  rw [(builds.inner_unique there there').2]

theorem get?_root (builds : Builds program tree record) :
    ∃ scope, tree.get? ScopeTree.root = some scope ∧ scope.kind = .program ∧
      scope.node = program.id ∧ scope.around = [] ∧ scope.statics = none := by
  obtain ⟨scope, is, keeps⟩ := builds.runs.grows ScopeTree.root _ rfl
  exact ⟨scope, is, keeps.kind, keeps.node, keeps.around, keeps.statics⟩

/-- Every other scope was opened at a node of the record. -/
theorem exists_opening (builds : Builds program tree record) {s : ScopeId} (known : s < tree.size)
    (other : s ≠ ScopeTree.root) :
    ∃ n r o, (n, r) ∈ record ∧ o ∈ n.openings r ∧ o.own = s := by
  rcases builds.runs.opened_of_lt known with root | ⟨o, opened, own⟩
  · exact absurd (Nat.lt_one_iff.1 root) other
  · obtain ⟨n, r, there, opened⟩ := opening_mem_performed.1 opened
    exact ⟨n, r, o, there, opened, own⟩

end Builds

namespace ScopeTree

variable {tree : ScopeTree} {program : Node}

theorem Has.parent? {o : Opening ScopeId} (has : tree.Has o) {scope : Scope}
    (is : tree.get? o.own = some scope) : scope.parent? = some o.around := by
  obtain ⟨scope', is', _, _, around, _⟩ := has.found
  obtain ⟨outer, path⟩ := exists_path_eq has.known
  rw [is] at is'
  cases is'
  rw [Scope.parent?, around, path]
  rfl

/-- Whether a node has opened the scope `own` directly inside the scope `around`. The scope of the
    static members of a class does not count. -/
def OpensIn (tree : ScopeTree) (around : ScopeId) (node : NodeId) (own : ScopeId) : Prop :=
  ∃ scope, tree.get? own = some scope ∧ scope.kind ≠ .statics ∧ scope.node = node ∧
    scope.parent? = some around

/-- How the scopes of a program mirror its tree. -/
structure Mirrors (tree : ScopeTree) (program : Node) : Prop where
  distinct : (program.descendants.map (·.id)).Nodup
  /-- The scopes are numbered in the order in which they are opened, that of the program first. -/
  order : tree.keys = (.program, program.id) :: program.opened
  /-- Each node opens the scopes that its form says, and there are no others. -/
  opened : program.opened.Perm (program.descendants.flatMap Node.ownScopes)
  root : ∃ scope, tree.get? root = some scope ∧ scope.kind = .program ∧
    scope.node = program.id ∧ scope.parent? = none
  /-- Every other scope stands inside one with a smaller number. -/
  inside : ∀ s scope, tree.get? s = some scope → s ≠ ScopeTree.root →
    ∃ p < s, scope.parent? = some p ∧ scope.around = tree.path p
  /-- The scope of static members stands inside the scope of their class. -/
  ofClass : ∀ s scope, tree.get? s = some scope → scope.kind = .statics →
    ∃ p outer, scope.parent? = some p ∧ tree.get? p = some outer ∧ outer.kind = .instances ∧
      outer.node = scope.node
  /-- A scope knows the one of static members that stands inside it. -/
  statics : ∀ p outer s, tree.get? p = some outer →
    (outer.statics = some s ↔ ∃ scope, tree.get? s = some scope ∧ scope.kind = .statics ∧
      scope.parent? = some p)
  /-- It finds those that nodes have opened directly inside it, each under the node. -/
  inner : ∀ p node own, (node, own) ∈ tree.inner p ↔ tree.OpensIn p node own
  keys : ∀ p, ((tree.inner p).map (·.1)).Nodup
  /-- The scope that a node has opened is found from everywhere inside the one around it. -/
  found : ∀ s node own, tree.findScope? s node = some own ↔
    ∃ p ∈ tree.path s, tree.OpensIn p node own

end ScopeTree

namespace Builds

variable {program : Node} {tree : ScopeTree} {record : List (Node × Regions ScopeId)}

theorem parent?_eq_none_iff (builds : Builds program tree record) {s : ScopeId} {scope : Scope}
    (is : tree.get? s = some scope) : scope.parent? = none ↔ s = ScopeTree.root := by
  constructor
  · intro outermost
    by_contra other
    obtain ⟨n, r, o, there, opened, rfl⟩ := builds.exists_opening (ScopeTree.lt_of_get? is) other
    rw [(builds.has_opened there opened).parent? is] at outermost
    cases outermost
  · rintro rfl
    obtain ⟨scope', is', _, _, around, _⟩ := builds.get?_root
    rw [is] at is'
    cases is'
    rw [Scope.parent?, around]
    rfl

theorem opensIn_iff (builds : Builds program tree record) {around own : ScopeId} {node : NodeId} :
    tree.OpensIn around node own ↔ (node, own) ∈ tree.inner around := by
  rw [builds.mem_inner]
  constructor
  · rintro ⟨scope, is, other, same, inside⟩
    have inner : own ≠ ScopeTree.root := by
      rw [ne_eq, ← builds.parent?_eq_none_iff is, inside]
      exact nofun
    obtain ⟨n, r, o, there, opened, rfl⟩ := builds.exists_opening (ScopeTree.lt_of_get? is) inner
    have has := builds.has_opened there opened
    obtain ⟨scope', is', kind, node', _⟩ := has.found
    cases is.symm.trans is'
    rw [has.parent? is] at inside
    rcases mem_openings.1 opened with ⟨kind', opens, rfl⟩ | ⟨_, rfl⟩
    · exact ⟨n, r, kind', there, opens, Option.some.inj inside, same.symm.trans node', rfl⟩
    · exact absurd kind other
  · rintro ⟨n, r, kind, there, opens, rfl, rfl, rfl⟩
    have has := builds.has_opened there (own_mem_openings r opens)
    obtain ⟨scope, is, kind', node, _⟩ := has.found
    refine ⟨scope, is, ?_, node, has.parent? is⟩
    rw [kind']
    exact Form.opens?_ne_statics opens

/-- The scope of static members was opened at a class. -/
theorem of_statics (builds : Builds program tree record) {s : ScopeId} {scope : Scope}
    (is : tree.get? s = some scope) (static : scope.kind = .statics) :
    ∃ n r, (n, r) ∈ record ∧ n.form.opensStatics = true ∧ s = r.statics ∧
      scope.parent? = some r.own := by
  have inner : scope.kind ≠ .program := by
    rw [static]
    decide
  obtain ⟨n, r, o, there, opened, rfl, kind, _⟩ := builds.opened is inner
  rcases mem_openings.1 opened with ⟨kind', opens, rfl⟩ | ⟨opens, rfl⟩
  · exact absurd (kind.trans static) (Form.opens?_ne_statics opens)
  · have has := builds.has_opened there (statics_mem_openings r opens)
    exact ⟨n, r, there, opens, rfl, has.parent? is⟩

/-- What a scope knows for its static members is the scope of static members inside it. -/
theorem statics_eq_some_iff (builds : Builds program tree record) {p s : ScopeId} {outer : Scope}
    (is : tree.get? p = some outer) :
    outer.statics = some s ↔ ∃ scope, tree.get? s = some scope ∧ scope.kind = .statics ∧
      scope.parent? = some p := by
  constructor
  · intro knows
    have inner : p ≠ ScopeTree.root := by
      rintro rfl
      obtain ⟨_, is', _, _, _, none⟩ := builds.get?_root
      cases is.symm.trans is'
      rw [none] at knows
      cases knows
    obtain ⟨n, r, o, there, opened, rfl⟩ := builds.exists_opening (ScopeTree.lt_of_get? is) inner
    obtain ⟨_, is', _, _, _, statics⟩ := (builds.has_opened there opened).found
    cases is.symm.trans is'
    rw [statics] at knows
    rcases mem_openings.1 opened with ⟨_, _, rfl⟩ | ⟨_, rfl⟩
    · obtain ⟨opens, same⟩ := Option.ite_none_right_eq_some.1 knows
      have ofStatics := builds.has_opened there (statics_mem_openings r opens)
      obtain ⟨scope, is, kind, _⟩ := ofStatics.found
      rw [← Option.some.inj same]
      exact ⟨scope, is, kind, ofStatics.parent? is⟩
    · cases knows
  · rintro ⟨scope, is', static, inside⟩
    obtain ⟨n, r, there, opens, rfl, inside'⟩ := builds.of_statics is' static
    obtain rfl := Option.some.inj (inside.symm.trans inside')
    have statics := builds.statics?_of_opens there opens
    rw [ScopeTree.statics?, is] at statics
    exact statics

/-- What is found by a node from a scope is what the node has opened around it. -/
theorem findScope?_eq_some_iff (builds : Builds program tree record) {s own : ScopeId}
    {node : NodeId} :
    tree.findScope? s node = some own ↔ ∃ p ∈ tree.path s, (node, own) ∈ tree.inner p := by
  have lookup (p own : ScopeId) :
      tree.ownScope? p node = some own ↔ (node, own) ∈ tree.inner p := by
    rw [ScopeTree.ownScope?_eq]
    constructor
    · intro found
      obtain ⟨before, behind, same, _⟩ := List.lookup_eq_some_iff.1 found
      rw [same]
      exact List.mem_append_right _ List.mem_cons_self
    · intro there
      refine lookup_of_unique there ?_
      intro own' there'
      exact (builds.inner_unique there' there).2
  -- A node has opened no more than one scope, so it does not matter that the first one is taken.
  constructor
  · intro found
    obtain ⟨p, member, there⟩ := List.exists_of_findSome?_eq_some found
    exact ⟨p, member, (lookup p own).1 there⟩
  · rintro ⟨p, member, there⟩
    have isSome : (tree.findScope? s node).isSome := by
      rw [ScopeTree.findScope?, List.findSome?_isSome_iff]
      exact ⟨p, member, by rw [(lookup p own).2 there]; rfl⟩
    obtain ⟨own', found⟩ := Option.isSome_iff_exists.1 isSome
    obtain ⟨p', _, there'⟩ := List.exists_of_findSome?_eq_some found
    rw [found, (builds.inner_unique there ((lookup p' own').1 there')).2]

theorem mirrors (builds : Builds program tree record) : tree.Mirrors program where
  distinct := builds.regular.distinct
  order := builds.keys_eq
  opened := Node.opened_perm builds.regular.details
  root := by
    obtain ⟨scope, is, kind, node, _⟩ := builds.get?_root
    exact ⟨scope, is, kind, node, (builds.parent?_eq_none_iff is).2 rfl⟩
  inside := by
    intro s scope is other
    obtain ⟨n, r, o, there, opened, rfl⟩ := builds.exists_opening (ScopeTree.lt_of_get? is) other
    have has := builds.has_opened there opened
    obtain ⟨scope', is', _, _, around, _⟩ := has.found
    cases is.symm.trans is'
    exact ⟨o.around, has.behind, has.parent? is, around⟩
  ofClass := by
    intro s scope is static
    obtain ⟨n, r, there, opens, rfl, inside⟩ := builds.of_statics is static
    have own := own_mem_openings r (Form.opens?_of_opensStatics opens)
    obtain ⟨outer, is', kind, node, _⟩ := (builds.has_opened there own).found
    obtain ⟨_, is'', _, node', _⟩ := (builds.has_opened there (statics_mem_openings r opens)).found
    cases is.symm.trans is''
    exact ⟨r.own, outer, inside, is', kind, node.trans node'.symm⟩
  statics := by
    intro p outer s is
    exact builds.statics_eq_some_iff is
  inner := by
    intro p node own
    exact builds.opensIn_iff.symm
  keys := builds.inner_nodup
  found := by
    intro s node own
    simp only [builds.opensIn_iff]
    exact builds.findScope?_eq_some_iff

end Builds

/-- The scopes of a program mirror its tree one to one. -/
theorem scopes_mirror_tree (tokens : List Token) {tree : ScopeTree}
    (built : buildScopes (parse tokens).program = .ok tree) :
    tree.Mirrors (parse tokens).program := by
  obtain ⟨record, builds⟩ := builds_of_ok (parse_isRegular tokens) built
  exact builds.mirrors

/-- An if in the initializer of a static member opens its scope inside that of the static
    members. -/
theorem scopes_mirror_tree_static :
    ∃ tree, buildScopes (parse
        (lex "class A\n  static var x = if a\n    1\n").tokens).program = .ok tree ∧
      tree.Mirrors (parse (lex "class A\n  static var x = if a\n    1\n").tokens).program ∧
      tree.keys.map (·.1) = [.program, .instances, .statics, .block] ∧
      tree.path 3 = [3, 2, 1, 0] := by
  have scopes : (buildScopes (parse
      (lex "class A\n  static var x = if a\n    1\n").tokens).program).toOption.map (fun tree =>
        (tree.keys.map (·.1), tree.path 3)) =
          some ([.program, .instances, .statics, .block], [3, 2, 1, 0]) := by
    decide +kernel
  cases built : buildScopes (parse
      (lex "class A\n  static var x = if a\n    1\n").tokens).program with
  | error e =>
    rw [built] at scopes
    cases scopes
  | ok tree =>
    rw [built] at scopes
    obtain ⟨keys, path⟩ := Prod.mk.injEq .. ▸ Option.some.inj scopes
    exact ⟨tree, rfl, scopes_mirror_tree _ built, keys, path⟩

end TekLang
