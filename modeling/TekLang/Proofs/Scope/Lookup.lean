import TekLang.Proofs.Scope.Agreement
import TekLang.Proofs.Scope.Names

/-!
# Looking names up

What can be seen from the scopes of a node: what is declared in the region itself and what can be
seen from around the node. The static members of a class see past its instances.
-/

namespace TekLang

/-- Whether a table has a name, be it that of a function or another. -/
def SymbolTable.Declares (t : SymbolTable) (name : String) : Prop :=
  t.has name = true ∨ t.hasFunction name = true

/-- Whether a name can be used in a scope. -/
def ScopeTree.Sees (tree : ScopeTree) (s : ScopeId) (name : String) : Prop :=
  tree.hasSymbol s name = true ∨ tree.hasFunction s name = true

namespace SymbolTable

variable {t : SymbolTable} {name other : String}

theorem has_bind (t : SymbolTable) (name other : String) (entry : SymbolEntry) :
    (t.bind name entry).has other = true ↔ t.has other = true ∨ other = name := by
  unfold has
  rw [get?_bind, Option.isSome_or, Bool.or_eq_true]
  refine or_congr_right ?_
  by_cases same : name = other
  · simp [same]
  · simp [same, Ne.symm same]

theorem hasFunction_bind (t : SymbolTable) (name other : String) (entry : SymbolEntry) :
    (t.bind name entry).hasFunction other = t.hasFunction other := by
  unfold bind
  split <;> rfl

theorem hasFunction_register (t : SymbolTable) (name other : String) (f : Overload) :
    (t.register name f).hasFunction other = true ↔ t.hasFunction other = true ∨ other = name := by
  unfold hasFunction register
  rw [List.any_append, Bool.or_eq_true]
  refine or_congr_right ?_
  simp only [List.any_cons, List.any_nil, Bool.or_false, decide_eq_true_eq]
  exact eq_comm

theorem declares_enter (t : SymbolTable) (scope : ScopeId) (b : Binding) :
    (t.enter scope b).Declares name ↔ t.Declares name ∨ b.Declares name := by
  unfold Declares Binding.Declares
  cases b with
  | plain own node | unique own node taken =>
    rw [enter, has_bind, hasFunction_bind]
    exact or_right_comm
  | function own signature node taken =>
    rw [enter, hasFunction_register, hasFunction_bind]
    change (t.bind signature _).has name = true ∨ _ ↔ _
    rw [has_bind]
    exact or_or_or_comm

/-- A table declares what it declared and what has been entered. -/
theorem declares_foldl (scope : ScopeId) (bs : List Binding) (t : SymbolTable) :
    (bs.foldl (·.enter scope) t).Declares name ↔ t.Declares name ∨ ∃ b ∈ bs, b.Declares name := by
  induction bs generalizing t with
  | nil => simp
  | cons b bs ih =>
    rw [List.foldl_cons, ih, declares_enter, or_assoc, List.exists_mem_cons_iff]

theorem not_declares_empty : ¬ empty.Declares name := by
  rintro (has | has) <;> cases has

end SymbolTable

namespace ScopeTree

variable {tree : ScopeTree} {name : String}

theorem sees_iff {s : ScopeId} :
    tree.Sees s name ↔ ∃ s' ∈ tree.lookupChain s, (tree.table s').Declares name := by
  unfold Sees hasSymbol symbol? hasFunction SymbolTable.Declares SymbolTable.has
  simp only [List.findSome?_isSome_iff, List.any_eq_true]
  grind

theorem Has.path_eq {o : Opening ScopeId} (has : tree.Has o) :
    tree.path o.own = o.own :: tree.path o.around := by
  obtain ⟨sc, found, _, _, around, _⟩ := has.found
  rw [ScopeTree.path, found]
  exact congrArg _ around

theorem Has.kind? {o : Opening ScopeId} (has : tree.Has o) : tree.kind? o.own = some o.kind := by
  obtain ⟨sc, found, kind, _⟩ := has.found
  rw [ScopeTree.kind?, found, Option.map_some, kind]

theorem exists_path_eq {s : ScopeId} (known : s < tree.size) :
    ∃ outer, tree.path s = s :: outer := by
  obtain ⟨sc, found⟩ := exists_of_lt known
  refine ⟨sc.around, ?_⟩
  rw [path, found]

/-- The names that are looked up in a scope are looked up there and then around it. -/
theorem Has.lookupChain_eq {o : Opening ScopeId} (has : tree.Has o) (other : o.kind ≠ .statics) :
    tree.lookupChain o.own = o.own :: tree.lookupChain o.around := by
  obtain ⟨outer, path⟩ := exists_path_eq has.known
  have kind : tree.kind? o.own ≠ some .statics := by
    rw [has.kind?]
    intro same
    exact other (Option.some.inj same)
  rw [lookupChain, lookupChain, has.path_eq, path, skipInstances, if_neg kind]

/-- From the scope of the static members of a class they are looked up past its instances. -/
theorem Has.lookupChain_statics {o o' : Opening ScopeId} (has : tree.Has o) (has' : tree.Has o')
    (static : o'.kind = .statics) (inside : o'.around = o.own) :
    tree.lookupChain o'.own = o'.own :: tree.lookupChain o.around := by
  have kind : tree.kind? o'.own = some .statics := by rw [has'.kind?, static]
  rw [lookupChain, lookupChain, has'.path_eq, inside, has.path_eq, skipInstances, if_pos kind]

end ScopeTree

namespace Builds

variable {program : Node} {tree : ScopeTree} {record : List (Node × Regions ScopeId)}
  {n : Node} {r : Regions ScopeId}

/-- From an inner region of a node names are looked up there and then around the node. -/
theorem lookupChain_get (builds : Builds program tree record) (there : (n, r) ∈ record)
    {region : Region} (has : n.form.Has region) (inner : region ≠ .around) :
    tree.lookupChain (r.get region) = r.get region :: tree.lookupChain r.around := by
  cases region with
  | around => exact absurd rfl inner
  | own =>
    obtain ⟨kind, opens⟩ := Option.ne_none_iff_exists'.1 has
    have own := builds.has_opened there (own_mem_openings r opens)
    exact own.lookupChain_eq (Form.opens?_ne_statics opens)
  | statics =>
    have opens := Form.opens?_of_opensStatics has
    have own := builds.has_opened there (own_mem_openings r opens)
    have statics := builds.has_opened there (statics_mem_openings r has)
    exact own.lookupChain_statics statics rfl rfl

/-- The bindings of an inner region of a node are entered in the table of its scope. -/
theorem table_get (builds : Builds program tree record) (there : (n, r) ∈ record)
    {region : Region} (has : n.form.Has region) (inner : region ≠ .around) :
    tree.table (r.get region) = (n.bindingsIn region).foldl (·.enter (r.get region)) .empty := by
  refine builds.runs.table_recorded ?_ n r there region has inner
  intro step taken
  obtain rfl := List.mem_singleton.1 taken
  exact .inl Nat.one_pos

/-- The bindings that are made outside all classes, functions and blocks are entered in the table of
    the program. -/
theorem table_root (builds : Builds program tree record) :
    tree.table ScopeTree.root =
      (program.bindingsIn .around).foldl (·.enter ScopeTree.root) .empty := by
  have table := builds.runs.table_eq (s := ScopeTree.root) Nat.one_pos
  rw [List.flatMap_singleton, ScopeStep.makes, if_pos rfl, Node.introduced_eq] at table
  exact table

/-- What can be seen from an inner region of a node is what is declared in it and what can be seen
    from around the node. -/
theorem sees_get (builds : Builds program tree record) (there : (n, r) ∈ record)
    {region : Region} (has : n.form.Has region) (inner : region ≠ .around) {name : String} :
    tree.Sees (r.get region) name ↔
      (∃ b ∈ n.bindingsIn region, b.Declares name) ∨ tree.Sees r.around name := by
  rw [ScopeTree.sees_iff, ScopeTree.sees_iff, builds.lookupChain_get there has inner,
    List.exists_mem_cons_iff, builds.table_get there has inner, SymbolTable.declares_foldl,
    or_iff_right SymbolTable.not_declares_empty]

/-- Outside all classes, functions and blocks names are looked up in the scope of the program. -/
theorem lookupChain_root (builds : Builds program tree record) :
    tree.lookupChain ScopeTree.root = [ScopeTree.root] := by
  obtain ⟨sc, found, keeps⟩ := builds.runs.grows ScopeTree.root _ rfl
  rw [ScopeTree.lookupChain, ScopeTree.path, found]
  change tree.skipInstances (ScopeTree.root :: sc.around) = _
  rw [keeps.around]
  rfl

/-- What can be seen from outside all classes, functions and blocks. -/
theorem sees_root (builds : Builds program tree record) {name : String} :
    tree.Sees ScopeTree.root name ↔ ∃ b ∈ program.introduced, b.Declares name := by
  have only : (∃ s ∈ [ScopeTree.root], (tree.table s).Declares name) ↔
      (tree.table ScopeTree.root).Declares name := by simp
  rw [ScopeTree.sees_iff, builds.lookupChain_root, only, builds.table_root,
    SymbolTable.declares_foldl,
    ← Node.introduced_eq]
  exact or_iff_right SymbolTable.not_declares_empty

end Builds

end TekLang
