import TekLang.Proofs.Grammar.Conservation
import TekLang.Proofs.Scope.Growth
import TekLang.Proofs.Scope.Plan

/-!
# The walk and the scopes

A walk asks the scopes for the one that a node opened. It visits every node in the scope in which
the pass that built the scopes came to it, for the node is found there under a number that no other
node has.
-/

namespace TekLang

namespace Runs

variable {steps : List (ScopeStep ScopeId)} {tree tree' : ScopeTree}
  {record : List (Node × Regions ScopeId)}

/-- A run comes to no node twice. -/
theorem record_subperm (runs : Runs steps tree record tree') :
    (record.map (·.1)).Subperm ((visited steps).flatMap Node.descendants) := by
  induction runs with
  | nil => exact List.nil_subperm
  | enter _ _ _ ih => exact ih
  | opening _ _ _ ih => exact ih
  | @visit n r steps tree inner tree₁ record tree' _ _ _ _ ih_within ih =>
    have parted := ((details_append_visited n r).trans n.children_perm.symm).flatMap_right
      Node.descendants
    rw [List.flatMap_append] at parted
    have below := (List.sublist_append_right _ _).subperm.trans parted.subperm
    rw [visited_visit, List.flatMap_cons, Node.descendants_eq, List.cons_append, List.map_cons,
      List.map_append]
    exact (List.subperm_cons n).2 ((ih_within.trans below).append ih)

theorem fits (runs : Runs steps tree record tree') :
    ∀ entry ∈ record, entry.2.Fits entry.1.form := by
  induction runs with
  | nil => exact nofun
  | enter _ _ _ ih => exact ih
  | opening _ _ _ ih => exact ih
  | visit _ fits _ _ ih_within ih =>
    intro entry member
    rcases List.mem_cons.1 member with rfl | member
    · exact fits
    · rcases List.mem_append.1 member with member | member
      · exact ih_within entry member
      · exact ih entry member

/-- A walk that uses the recorded scopes comes to every recorded node in the scope it stands in. -/
theorem entered_of_mem_record {last : ScopeTree} (runs : Runs steps tree record tree')
    (agrees : ∀ n r, (n, r) ∈ record → ∀ region m, .visit region m ∈ n.plan →
      (region, m) ∈ n.placed ∧ (Walk.regions last r.around n).get region = r.get region) :
    ∀ m r', (m, r') ∈ record → ∃ n s, .visit s n ∈ steps ∧ ∀ parents, ∃ around,
      ⟨.enter, m, r'.around, around⟩ ∈ Walk.node last parents s n := by
  induction runs with
  | nil => exact nofun
  | enter _ _ _ ih | opening _ _ _ ih =>
    intro m r' there
    obtain ⟨n, s, visits, entered⟩ := ih agrees m r' there
    exact ⟨n, s, .tail _ visits, entered⟩
  | @visit n r steps tree inner tree₁ record tree' _ _ _ _ ih_within ih =>
    intro m r' there
    rcases List.mem_cons.1 there with same | there
    · cases same
      refine ⟨n, r.around, List.mem_cons_self, fun parents => ⟨parents, ?_⟩⟩
      rw [Walk.node_eq]
      exact List.mem_cons_self
    · rcases List.mem_append.1 there with there | there
      · have agrees_within : ∀ n' s, (n', s) ∈ inner → ∀ region m, .visit region m ∈ n'.plan →
            (region, m) ∈ n'.placed ∧
              (Walk.regions last s.around n').get region = s.get region := by
          intro n' s there
          exact agrees n' s (.tail _ (List.mem_append_left _ there))
        obtain ⟨child, s, visits, entered⟩ := ih_within agrees_within m r' there
        rw [steps_eq_map_plan] at visits
        obtain ⟨step, planned, same⟩ := List.mem_map.1 visits
        cases step with
        | visit region child =>
          cases same
          obtain ⟨stands, place⟩ := agrees n r List.mem_cons_self region _ planned
          refine ⟨n, r.around, List.mem_cons_self, ?_⟩
          intro parents
          obtain ⟨around, entered⟩ := entered (n :: parents)
          refine ⟨around, ?_⟩
          rw [Walk.node_eq]
          refine .tail _ (List.mem_append_left _ (List.mem_flatMap.2 ⟨_, stands, ?_⟩))
          rw [place]
          exact entered
        | _ => cases same
      · have agrees_behind : ∀ n' s, (n', s) ∈ record → ∀ region m, .visit region m ∈ n'.plan →
            (region, m) ∈ n'.placed ∧
              (Walk.regions last s.around n').get region = s.get region := by
          intro n' s there
          exact agrees n' s (.tail _ (List.mem_append_right _ there))
        obtain ⟨n, s, visits, entered⟩ := ih agrees_behind m r' there
        exact ⟨n, s, .tail _ visits, entered⟩

/-- A run comes to everything below the nodes it begins with, but for details. -/
theorem isDetail_or_mem_record (runs : Runs steps tree record tree')
    (details : ∀ n ∈ (visited steps).flatMap Node.descendants, ∀ m ∈ n.form.details,
      ∀ k ∈ m.descendants, k.form.isDetail = true) :
    ∀ n ∈ (visited steps).flatMap Node.descendants,
      n.form.isDetail = true ∨ ∃ r, (n, r) ∈ record := by
  induction runs with
  | nil => exact nofun
  | enter _ _ _ ih => exact ih details
  | opening _ _ _ ih => exact ih details
  | @visit n r steps tree inner tree₁ record tree' _ _ _ _ ih_within ih =>
    rw [visited_visit, List.flatMap_cons] at details ⊢
    have parts := (details_append_visited n r).trans n.children_perm.symm
    have below : ∀ m ∈ (visited (n.steps r)).flatMap Node.descendants, m ∈ n.descendants := by
      intro m member
      obtain ⟨child, visits, member⟩ := List.mem_flatMap.1 member
      have there := parts.mem_iff.1 (List.mem_append_right _ visits)
      exact Node.mem_descendants_of_child there member
    intro m member
    rcases List.mem_append.1 member with member | member
    · rw [Node.descendants_eq] at member
      rcases List.mem_cons.1 member with rfl | member
      · exact .inr ⟨r, List.mem_cons_self⟩
      obtain ⟨child, there, member⟩ := List.mem_flatMap.1 member
      rcases List.mem_append.1 (parts.mem_iff.2 there) with detail | visits
      · have here := details n (List.mem_append_left _ n.mem_descendants_self)
        exact .inl (here child detail m member)
      · have details_within : ∀ k ∈ (visited (n.steps r)).flatMap Node.descendants,
            ∀ l ∈ k.form.details, ∀ k ∈ l.descendants, k.form.isDetail = true := by
          intro k member
          exact details k (List.mem_append_left _ (below k member))
        have member : m ∈ (visited (n.steps r)).flatMap Node.descendants :=
          List.mem_flatMap.2 ⟨child, visits, member⟩
        rcases ih_within details_within m member with detail | ⟨r', there⟩
        · exact .inl detail
        · exact .inr ⟨r', .tail _ (List.mem_append_left _ there)⟩
    · have details_behind : ∀ k ∈ (visited steps).flatMap Node.descendants,
          ∀ l ∈ k.form.details, ∀ k ∈ l.descendants, k.form.isDetail = true := by
        intro k member
        exact details k (List.mem_append_right _ member)
      rcases ih details_behind m member with detail | ⟨r', there⟩
      · exact .inl detail
      · exact .inr ⟨r', .tail _ (List.mem_append_right _ there)⟩

end Runs

/-- A pair under a key that has no other value is the one that is found. -/
theorem lookup_of_unique {l : List (NodeId × ScopeId)} {k : NodeId} {v : ScopeId}
    (there : (k, v) ∈ l) (only : ∀ w, (k, w) ∈ l → w = v) : l.lookup k = some v := by
  cases found : l.lookup k with
  | none =>
    have differs := List.lookup_eq_none_iff.1 found _ there
    simp at differs
  | some w =>
    obtain ⟨before, behind, rfl, _⟩ := List.lookup_eq_some_iff.1 found
    rw [only w (List.mem_append_right _ List.mem_cons_self)]

/-- Building the scopes of a program comes to the nodes of the record, each with the scopes of its
    regions. -/
structure Builds (program : Node) (tree : ScopeTree) (record : List (Node × Regions ScopeId)) :
    Prop where
  regular : program.IsRegular
  runs : Runs [.visit ScopeTree.root program] (.ofProgram program.id) record tree

theorem builds_of_ok {program : Node} {tree : ScopeTree} (regular : program.IsRegular)
    (built : buildScopes program = .ok tree) : ∃ record, Builds program tree record := by
  obtain ⟨id, span, form⟩ := program
  unfold buildScopes at built
  split at built
  · rename_i body same
    obtain rfl : form = .program body := same
    split at built
    · rename_i run
      cases built
      obtain ⟨r, around, fits, _, outcome⟩ := ScopeBuild.performs_node ⟨id, span, .program body⟩
        ScopeTree.root (.ofProgram id) Nat.one_pos
      have run : ScopeBuild.visit ScopeTree.root ⟨id, span, .program body⟩ (.ofProgram id) =
        .ok () tree := run
      rw [run] at outcome
      obtain ⟨record, runs⟩ := outcome
      have whole : Runs [.visit r.around _] _ _ _ :=
        .visit (around ▸ Nat.one_pos) fits runs (.nil _)
      rw [around] at whole
      exact ⟨_, regular, whole⟩
    · cases built
  · cases built

namespace Builds

variable {program : Node} {tree : ScopeTree} {record : List (Node × Regions ScopeId)}
  {n m : Node} {r r' : Regions ScopeId}

/-- No node is recorded twice. -/
theorem record_nodup (builds : Builds program tree record) :
    (record.map fun entry => entry.1.id).Nodup := by
  have below := builds.runs.record_subperm
  rw [visited_visit, visited_nil, List.flatMap_singleton] at below
  obtain ⟨nodes, same, within⟩ := below
  have distinct := builds.regular.distinct.sublist (within.map (·.id))
  rw [(same.map _).nodup_iff, List.map_map] at distinct
  exact distinct

theorem eq_of_id (builds : Builds program tree record) (there : (n, r) ∈ record)
    (there' : (m, r') ∈ record) (same : n.id = m.id) : n = m ∧ r = r' := by
  have entries := List.inj_on_of_nodup_map builds.record_nodup there there' same
  exact ⟨congrArg (·.1) entries, congrArg (·.2) entries⟩

theorem mem_descendants (builds : Builds program tree record) (there : (n, r) ∈ record) :
    n ∈ program.descendants := by
  have below := builds.runs.record_subperm
  rw [visited_visit, visited_nil, List.flatMap_singleton] at below
  exact below.subset (List.mem_map_of_mem there)

/-- The pass comes to every node but for details. -/
theorem isDetail_or_mem_record (builds : Builds program tree record)
    (below : n ∈ program.descendants) : n.form.isDetail = true ∨ ∃ r, (n, r) ∈ record := by
  have details : ∀ m ∈ (visited [.visit ScopeTree.root program]).flatMap Node.descendants,
      ∀ k ∈ m.form.details, ∀ l ∈ k.descendants, l.form.isDetail = true := by
    intro m member
    rw [visited_visit, visited_nil, List.flatMap_singleton] at member
    exact builds.regular.details m member
  rw [← List.flatMap_singleton Node.descendants] at below
  exact builds.runs.isDetail_or_mem_record details _ below

/-- What is opened is opened at a node of the record. -/
theorem opening_mem_performed {o : Opening ScopeId} :
    .opening o ∈ performed [.visit ScopeTree.root program] record ↔
      ∃ n r, (n, r) ∈ record ∧ o ∈ n.openings r := by
  simp [performed, opening_mem_steps]

theorem has_opened (builds : Builds program tree record) (there : (n, r) ∈ record)
    {o : Opening ScopeId} (opened : o ∈ n.openings r) : tree.Has o :=
  (builds.runs.has_opened (opening_mem_performed.2 ⟨n, r, there, opened⟩)).2

/-- A scope finds the scopes that the nodes standing in it have opened, and no others. -/
theorem mem_inner (builds : Builds program tree record) {s own : ScopeId} {node : NodeId} :
    (node, own) ∈ tree.inner s ↔ ∃ n r kind, (n, r) ∈ record ∧ n.form.opens? = some kind ∧
      r.around = s ∧ node = n.id ∧ own = r.own := by
  have empty : (ScopeTree.ofProgram program.id).inner s = [] := by
    cases s <;> rfl
  rw [builds.runs.mem_inner, empty]
  simp only [opening_mem_performed, List.not_mem_nil, false_or]
  constructor
  · rintro ⟨o, ⟨n, r, there, opened⟩, other, around, same⟩
    rcases mem_openings.1 opened with ⟨kind, opens, rfl⟩ | ⟨_, rfl⟩
    · cases same
      exact ⟨n, r, kind, there, opens, around, rfl, rfl⟩
    · exact absurd rfl other
  · rintro ⟨n, r, kind, there, opens, rfl, rfl, rfl⟩
    have other := Form.opens?_ne_statics opens
    exact ⟨_, ⟨n, r, there, own_mem_openings r opens⟩, other, rfl, rfl⟩

/-- A node that opens a scope is found in the scope it stands in. -/
theorem ownScope?_of_opens (builds : Builds program tree record) (there : (n, r) ∈ record)
    {kind : ScopeKind} (opens : n.form.opens? = some kind) :
    tree.ownScope? r.around n.id = some r.own := by
  have only : ∀ own, (n.id, own) ∈ tree.inner r.around → own = r.own := by
    intro own found
    obtain ⟨m, r', _, there', _, _, same, rfl⟩ := builds.mem_inner.1 found
    rw [(builds.eq_of_id there there' same).2]
  rw [ScopeTree.ownScope?_eq]
  exact lookup_of_unique (builds.mem_inner.2 ⟨n, r, kind, there, opens, rfl, rfl, rfl⟩) only

/-- A node that opens no scope is found nowhere. -/
theorem ownScope?_of_closed (builds : Builds program tree record)
    (below : n ∈ program.descendants) (closed : n.form.opens? = none) (s : ScopeId) :
    tree.ownScope? s n.id = none := by
  rw [ScopeTree.ownScope?_eq, List.lookup_eq_none_iff]
  rintro ⟨node, own⟩ found
  obtain ⟨m, r', kind, there, opens, _, rfl, rfl⟩ := builds.mem_inner.1 found
  rw [bne_iff_ne]
  intro same
  have below' := builds.mem_descendants there
  obtain rfl := List.inj_on_of_nodup_map builds.regular.distinct below below' same
  rw [opens] at closed
  cases closed

theorem statics?_of_opens (builds : Builds program tree record) (there : (n, r) ∈ record)
    (opens : n.form.opensStatics = true) : tree.statics? r.own = some r.statics := by
  have opened := own_mem_openings r (Form.opens?_of_opensStatics opens)
  obtain ⟨sc, found, _, _, _, statics⟩ := (builds.has_opened there opened).found
  rw [if_pos opens] at statics
  rw [ScopeTree.statics?, found]
  exact statics

/-- A walk that visits a node where it was recorded uses the recorded scopes for its regions. -/
theorem regions_get (builds : Builds program tree record) (there : (n, r) ∈ record)
    {region : Region} (stands : (region, m) ∈ n.placed) :
    (Walk.regions tree r.around n).get region = r.get region := by
  have fits := builds.runs.fits _ there
  have own : (tree.ownScope? r.around n.id).getD r.around = r.own := by
    cases opens : n.form.opens? with
    | none =>
      rw [builds.ownScope?_of_closed (builds.mem_descendants there) opens]
      exact (fits.own opens).symm
    | some kind =>
      rw [builds.ownScope?_of_opens there opens]
      rfl
  cases region with
  | around => rfl
  | own => exact own
  | statics =>
    change (tree.statics? ((tree.ownScope? r.around n.id).getD r.around)).getD _ = r.statics
    rw [own, builds.statics?_of_opens there (opensStatics_of_placed stands)]
    rfl

/-- The walk enters every recorded node in the scope it was recorded in. -/
theorem entered (builds : Builds program tree record) (there : (n, r) ∈ record) :
    ∃ around, ⟨.enter, n, r.around, around⟩ ∈ walk program tree := by
  have agrees (m : Node) (r' : Regions ScopeId) (there : (m, r') ∈ record) (region : Region)
      (child : Node) (visits : .visit region child ∈ m.plan) : (region, child) ∈ m.placed ∧
        (Walk.regions tree r'.around m).get region = r'.get region := by
    have sides := builds.regular.sides m (builds.mem_descendants there)
    have stands := placed_of_visit_mem_plan sides visits
    exact ⟨stands, builds.regions_get there stands⟩
  obtain ⟨top, s, visits, entered⟩ := builds.runs.entered_of_mem_record agrees n r there
  rcases List.mem_singleton.1 visits with ⟨rfl, rfl⟩
  exact entered []

/-- The walk visits every recorded node in the scope it was recorded in. -/
theorem scope_eq (builds : Builds program tree record) {v : Visit}
    (visits : v ∈ walk program tree) (there : (v.node, r) ∈ record) : v.scope = r.around := by
  obtain ⟨around, entered⟩ := builds.entered there
  have same := Walk.eq_of_entered builds.regular.distinct (Walk.entered_of_mem tree v visits)
    entered rfl rfl rfl
  exact congrArg (·.scope) same

/-- Every scope but that of the program is opened at a node of the record. -/
theorem opened (builds : Builds program tree record) {s : ScopeId} {scope : Scope}
    (is : tree.get? s = some scope) (inner : scope.kind ≠ .program) :
    ∃ n r o, (n, r) ∈ record ∧ o ∈ n.openings r ∧ o.own = s ∧ o.kind = scope.kind ∧
      o.node = scope.node := by
  rcases builds.runs.opened_of_lt (ScopeTree.lt_of_get? is) with root | ⟨o, opened, rfl⟩
  · obtain rfl := Nat.lt_one_iff.1 root
    obtain ⟨scope', is', keeps⟩ := builds.runs.grows ScopeTree.root _ rfl
    cases is.symm.trans is'
    exact absurd keeps.kind inner
  · obtain ⟨n, r, there, opened⟩ := opening_mem_performed.1 opened
    obtain ⟨scope', is', kind, node, _⟩ := (builds.has_opened there opened).found
    rw [is] at is'
    cases is'
    exact ⟨n, r, o, there, opened, rfl, kind.symm, node.symm⟩

/-- Every scope that a node has opened is found when the node is visited, that of the static members
    of a class by way of the class. -/
theorem found (builds : Builds program tree record) {v : Visit} (visits : v ∈ walk program tree)
    {s : ScopeId} {scope : Scope} (is : tree.get? s = some scope) (node : scope.node = v.node.id)
    (inner : scope.kind ≠ .program) :
    ∃ own, tree.ownScope? v.scope v.node.id = some own ∧
      (scope.kind ≠ .statics → own = s) ∧ (scope.kind = .statics → tree.statics? own = some s) := by
  obtain ⟨n, r, o, there, opened, rfl, kind, same⟩ := builds.opened is inner
  have own : o.node = n.id := by
    rcases mem_openings.1 opened with ⟨kind, _, rfl⟩ | ⟨_, rfl⟩ <;> rfl
  have number : n.id = v.node.id := own.symm.trans (same.trans node)
  obtain rfl := List.inj_on_of_nodup_map builds.regular.distinct (builds.mem_descendants there)
    (Walk.mem_descendants_of_mem visits) number
  rw [builds.scope_eq visits there]
  rcases mem_openings.1 opened with ⟨kind', opens, rfl⟩ | ⟨opens, rfl⟩
  · refine ⟨r.own, builds.ownScope?_of_opens there opens, ?_, ?_⟩
    · intro _
      rfl
    · intro static
      exact absurd (kind.trans static) (Form.opens?_ne_statics opens)
  · have opens' := Form.opens?_of_opensStatics opens
    refine ⟨r.own, builds.ownScope?_of_opens there opens', ?_, ?_⟩
    · intro other
      exact absurd kind.symm other
    · intro _
      exact builds.statics?_of_opens there opens

end Builds

/-- How a walk through a program goes whose scopes were built with the record `record`. -/
structure Walk.Agrees (program : Node) (tree : ScopeTree)
    (record : List (Node × Regions ScopeId)) : Prop where
  /-- Every node is entered once, each in front of what is below it. -/
  entered : ((walk program tree).filter (·.phase = .enter)).map (·.node) = program.descendants
  /-- Every node is left once. -/
  left : (((walk program tree).filter (·.phase = .leave)).map (·.node)).Perm program.descendants
  distinct : (program.descendants.map (·.id)).Nodup
  nested : Nested (walk program tree)
  around : ∀ v ∈ walk program tree, Path program v.parents v.node
  /-- The pass has come to every node that is visited, but for details. -/
  recorded : ∀ v ∈ walk program tree, v.node.form.isDetail = true ∨ ∃ r, (v.node, r) ∈ record
  /-- A node is visited in the scope where the pass came to it. -/
  scope : ∀ v ∈ walk program tree, ∀ r, (v.node, r) ∈ record → v.scope = r.around
  /-- A child is visited in the scope that the pass used for its region. -/
  below : ∀ v ∈ walk program tree, ∀ n around, v.parents = n :: around →
    ∃ region, (region, v.node) ∈ n.placed ∧ ∀ r, (n, r) ∈ record → v.scope = r.get region
  /-- Every scope that a node has opened is found when the node is visited. -/
  found : ∀ v ∈ walk program tree, ∀ s scope, tree.get? s = some scope →
    scope.node = v.node.id → scope.kind ≠ .program → scope.kind ≠ .statics →
      tree.ownScope? v.scope v.node.id = some s
  /-- And the scope of the static members of a class is found from it. -/
  foundStatics : ∀ v ∈ walk program tree, ∀ s scope, tree.get? s = some scope →
    scope.node = v.node.id → scope.kind = .statics →
      (tree.ownScope? v.scope v.node.id).bind tree.statics? = some s

theorem Builds.agrees {program : Node} {tree : ScopeTree} {record : List (Node × Regions ScopeId)}
    (builds : Builds program tree record) : Walk.Agrees program tree record where
  entered := Walk.entered_eq ..
  left := Walk.left_perm ..
  distinct := builds.regular.distinct
  nested := Walk.nested ..
  around := Walk.path_of_mem _ .top
  recorded := by
    intro v visits
    exact builds.isDetail_or_mem_record (Walk.mem_descendants_of_mem visits)
  scope := by
    intro v visits r there
    exact builds.scope_eq visits there
  below := by
    intro v visits n around above
    rcases Walk.placed_of_mem tree v visits with
      ⟨top, _⟩ | ⟨m, s, around', region, above', entered, stands, place⟩
    · rw [above] at top
      cases top
    · rw [above] at above'
      cases above'
      refine ⟨region, stands, ?_⟩
      intro r there
      have same : s = r.around := builds.scope_eq entered there
      rw [place, same]
      exact builds.regions_get there stands
  found := by
    intro v visits s scope is node inner other
    obtain ⟨own, found, same, _⟩ := builds.found visits is node inner
    rw [found, same other]
  foundStatics := by
    intro v visits s scope is node static
    have inner : scope.kind ≠ .program := by
      rw [static]
      decide
    obtain ⟨own, found, _, statics⟩ := builds.found visits is node inner
    rw [found]
    exact statics static

/-- A walk through a program goes through the scopes as they were built: there is a record of
    building them, and the walk agrees with it. -/
theorem walk_agrees_with_scopes (tokens : List Token) {tree : ScopeTree}
    (built : buildScopes (parse tokens).program = .ok tree) :
    (∃ record, Runs [.visit ScopeTree.root (parse tokens).program]
      (.ofProgram (parse tokens).program.id) record tree) ∧
    ∀ record, Runs [.visit ScopeTree.root (parse tokens).program]
      (.ofProgram (parse tokens).program.id) record tree →
        Walk.Agrees (parse tokens).program tree record := by
  have regular := parse_isRegular tokens
  obtain ⟨record, builds⟩ := builds_of_ok regular built
  refine ⟨⟨record, builds.runs⟩, ?_⟩
  intro record runs
  have builds : Builds _ tree record := ⟨regular, runs⟩
  exact builds.agrees

/-- The static member of a class is visited in the second scope of the class, with all that is below
    it. -/
theorem walk_agrees_with_scopes_static :
    ∃ tree, buildScopes (parse (lex "class A\n  var b = 1\n  static var c = 2\n").tokens).program =
        .ok tree ∧
      (∃ record, Walk.Agrees
        (parse (lex "class A\n  var b = 1\n  static var c = 2\n").tokens).program tree record) ∧
      ((walk (parse (lex "class A\n  var b = 1\n  static var c = 2\n").tokens).program tree).filter
        (·.phase = .enter)).map (·.scope) = [0, 0, 1, 1, 1, 2, 2, 2] := by
  have scopes : (buildScopes (parse
      (lex "class A\n  var b = 1\n  static var c = 2\n").tokens).program).toOption.map (fun tree =>
        ((walk (parse (lex "class A\n  var b = 1\n  static var c = 2\n").tokens).program
          tree).filter (·.phase = .enter)).map (·.scope)) = some [0, 0, 1, 1, 1, 2, 2, 2] := by
    decide +kernel
  cases built : buildScopes (parse
      (lex "class A\n  var b = 1\n  static var c = 2\n").tokens).program with
  | error e =>
    rw [built] at scopes
    cases scopes
  | ok tree =>
    rw [built] at scopes
    obtain ⟨⟨record, runs⟩, agrees⟩ := walk_agrees_with_scopes _ built
    exact ⟨tree, rfl, ⟨record, agrees record runs⟩, Option.some.inj scopes⟩

end TekLang
