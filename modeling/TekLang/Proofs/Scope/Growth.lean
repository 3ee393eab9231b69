import TekLang.Proofs.Scope.Steps

/-!
# How scopes grow

What running steps does to the scopes: a scope keeps its kind, its node and what is around it, the
scopes that are added are those that the steps open, and each is found in the one around it.
-/

namespace TekLang

/-- All steps that are performed in a run: its own and those at the nodes that it comes to. -/
def performed (steps : List (ScopeStep ScopeId)) (record : List (Node × Regions ScopeId)) :
    List (ScopeStep ScopeId) :=
  steps ++ record.flatMap fun entry => entry.1.steps entry.2

theorem mem_performed_visit {scope : ScopeId} {n : Node} {r : Regions ScopeId}
    {steps : List (ScopeStep ScopeId)} {inner record : List (Node × Regions ScopeId)}
    {step : ScopeStep ScopeId} :
    step ∈ performed (.visit scope n :: steps) ((n, r) :: (inner ++ record)) ↔
      step = .visit scope n ∨ step ∈ performed (n.steps r) inner ∨
        step ∈ performed steps record := by
  simp only [performed, List.cons_append, List.mem_cons, List.mem_append, List.flatMap_cons,
    List.flatMap_append]
  grind

/-- What stays as it is when a scope grows. -/
structure Scope.Keeps (s s' : Scope) : Prop where
  kind : s'.kind = s.kind
  node : s'.node = s.node
  around : s'.around = s.around
  statics : s'.statics = s.statics

theorem Scope.Keeps.refl (s : Scope) : s.Keeps s := ⟨rfl, rfl, rfl, rfl⟩

theorem Scope.Keeps.trans {s s' s'' : Scope} (first : s.Keeps s') (second : s'.Keeps s'') :
    s.Keeps s'' :=
  ⟨second.kind.trans first.kind, second.node.trans first.node, second.around.trans first.around,
    second.statics.trans first.statics⟩

namespace ScopeTree

variable {tree tree' : ScopeTree} {scope s : ScopeId}

/-- A scope is as a step opens it, apart from what is declared in it. -/
structure Has (tree : ScopeTree) (o : Opening ScopeId) : Prop where
  known : o.around < tree.size
  behind : o.around < o.own
  found : ∃ sc, tree.get? o.own = some sc ∧ sc.kind = o.kind ∧ sc.node = o.node ∧
    sc.around = tree.path o.around ∧ sc.statics = o.statics

/-- The scopes that a scope finds by their nodes. -/
def inner (tree : ScopeTree) (s : ScopeId) : List (NodeId × ScopeId) :=
  ((tree.get? s).map (·.inner)).getD []

theorem ownScope?_eq (tree : ScopeTree) (s : ScopeId) (node : NodeId) :
    tree.ownScope? s node = (tree.inner s).lookup node := by
  unfold ownScope? inner
  cases tree.get? s <;> rfl

theorem exists_of_lt (known : s < tree.size) : ∃ sc, tree.get? s = some sc :=
  ⟨_, Array.getElem?_eq_getElem known⟩

theorem lt_of_get? {sc : Scope} (found : tree.get? s = some sc) : s < tree.size :=
  (Array.getElem?_eq_some_iff.1 found).1

/-- Entering a binding changes nothing but the table of the scope. -/
theorem get?_enter (tree : ScopeTree) (scope s : ScopeId) (b : Binding) :
    (tree.enter scope b).get? s =
      if scope = s then (tree.get? s).map fun sc => { sc with table := sc.table.enter scope b }
      else tree.get? s := by
  cases b with
  | plain | unique => exact get?_modify ..
  | function name signature node taken =>
    unfold enter bind register
    rw [get?_modify, get?_modify]
    by_cases same : scope = s
    · simp [same, SymbolTable.enter, Function.comp_def]
    · simp [same]

theorem table_enter (tree : ScopeTree) (s : ScopeId) (b : Binding) (known : s < tree.size) :
    (tree.enter s b).table s = (tree.table s).enter s b := by
  obtain ⟨sc, found⟩ := exists_of_lt known
  unfold table
  rw [get?_enter, if_pos rfl, found]
  rfl

theorem table_enter_of_ne (tree : ScopeTree) (b : Binding) (other : scope ≠ s) :
    (tree.enter scope b).table s = tree.table s := by
  unfold table
  rw [get?_enter, if_neg other]

@[simp] theorem inner_enter (tree : ScopeTree) (scope s : ScopeId) (b : Binding) :
    (tree.enter scope b).inner s = tree.inner s := by
  unfold inner
  rw [get?_enter]
  split
  · cases tree.get? s <;> rfl
  · rfl

theorem table_add {o : Opening ScopeId} (known : o.around < tree.size) (s : ScopeId) :
    (tree.add o).table s = tree.table s := by
  unfold table
  rw [get?_add _ known]
  split
  · next behind =>
    rw [behind, get?_size]
    rfl
  · split
    · cases tree.get? s <;> rfl
    · rfl

theorem inner_add {o : Opening ScopeId} (known : o.around < tree.size) (s : ScopeId) :
    (tree.add o).inner s =
      tree.inner s ++ if o.kind ≠ .statics ∧ o.around = s then [(o.node, o.own)] else [] := by
  unfold inner
  rw [get?_add _ known]
  by_cases behind : s = tree.size
  · have other : o.around ≠ s := behind ▸ Nat.ne_of_lt known
    simp [behind, get?_size, behind ▸ other]
  · rw [if_neg behind]
    by_cases found : o.kind ≠ .statics ∧ o.around = s
    · obtain ⟨sc, there⟩ := exists_of_lt (found.2 ▸ known)
      rw [if_pos found, if_pos found, there]
      rfl
    · rw [if_neg found, if_neg found, List.append_nil]

/-- Every scope of a tree is there in another, with what it keeps. -/
def Grows (tree tree' : ScopeTree) : Prop :=
  ∀ s sc, tree.get? s = some sc → ∃ sc', tree'.get? s = some sc' ∧ sc.Keeps sc'

theorem Grows.refl (tree : ScopeTree) : tree.Grows tree := by
  intro s sc was
  exact ⟨sc, was, .refl sc⟩

theorem Grows.trans {tree'' : ScopeTree} (first : tree.Grows tree') (second : tree'.Grows tree'') :
    tree.Grows tree'' := by
  intro s sc was
  obtain ⟨sc', then', keeps⟩ := first s sc was
  obtain ⟨sc'', now, keeps'⟩ := second s sc' then'
  exact ⟨sc'', now, keeps.trans keeps'⟩

theorem grows_enter (tree : ScopeTree) (scope : ScopeId) (b : Binding) :
    tree.Grows (tree.enter scope b) := by
  intro s sc was
  rw [get?_enter, was]
  split
  · exact ⟨_, rfl, rfl, rfl, rfl, rfl⟩
  · exact ⟨sc, rfl, .refl sc⟩

theorem grows_add {o : Opening ScopeId} (known : o.around < tree.size) :
    tree.Grows (tree.add o) := by
  intro s sc was
  rw [get?_add _ known, if_neg (Nat.ne_of_lt (lt_of_get? was)), was]
  split
  · exact ⟨_, rfl, rfl, rfl, rfl, rfl⟩
  · exact ⟨sc, rfl, .refl sc⟩

theorem Grows.lt (grows : tree.Grows tree') (known : s < tree.size) : s < tree'.size := by
  obtain ⟨sc, was⟩ := exists_of_lt known
  obtain ⟨sc', now, _⟩ := grows s sc was
  exact lt_of_get? now

theorem Grows.path_eq (grows : tree.Grows tree') (known : s < tree.size) :
    tree'.path s = tree.path s := by
  obtain ⟨sc, was⟩ := exists_of_lt known
  obtain ⟨sc', now, keeps⟩ := grows s sc was
  unfold path
  rw [was, now]
  exact congrArg _ keeps.around

theorem Grows.has (grows : tree.Grows tree') {o : Opening ScopeId} (has : tree.Has o) :
    tree'.Has o := by
  obtain ⟨sc, was, kind, node, around, statics⟩ := has.found
  obtain ⟨sc', now, keeps⟩ := grows _ sc was
  have path : sc'.around = tree'.path o.around := by
    rw [keeps.around, around, grows.path_eq has.known]
  exact ⟨grows.lt has.known, has.behind, sc', now, keeps.kind.trans kind, keeps.node.trans node,
    path, keeps.statics.trans statics⟩

theorem has_add {o : Opening ScopeId} (known : o.around < tree.size) (next : o.own = tree.size) :
    (tree.add o).Has o := by
  have grows := grows_add known
  have behind : o.around < o.own := by
    rw [next]
    exact known
  have found := get?_add tree known o.own
  rw [if_pos next] at found
  exact ⟨grows.lt known, behind, _, found, rfl, rfl, (grows.path_eq known).symm, rfl⟩

end ScopeTree

namespace Runs

variable {steps : List (ScopeStep ScopeId)} {tree tree' : ScopeTree}
  {record : List (Node × Regions ScopeId)}

theorem grows (runs : Runs steps tree record tree') : tree.Grows tree' := by
  induction runs with
  | nil => exact .refl _
  | enter _ _ _ ih => exact (ScopeTree.grows_enter _ _ _ : ScopeTree.Grows _ _).trans ih
  | opening known _ _ ih => exact (ScopeTree.grows_add known : ScopeTree.Grows _ _).trans ih
  | visit _ _ _ _ ih_within ih => exact ih_within.trans ih

/-- What a run opens is new, and in the end it is as it was opened. -/
theorem has_opened (runs : Runs steps tree record tree') {o : Opening ScopeId}
    (opened : .opening o ∈ performed steps record) : tree.size ≤ o.own ∧ tree'.Has o := by
  induction runs with
  | nil => cases opened
  | enter _ _ _ ih =>
    rcases List.mem_cons.1 opened with same | opened
    · cases same
    · rw [ScopeTree.size_enter] at ih
      exact ih opened
  | opening known next others ih =>
    rcases List.mem_cons.1 opened with same | opened
    · cases same
      have now := ScopeTree.has_add known next
      exact ⟨Nat.le_of_eq next.symm, others.grows.has now⟩
    · have later := ih opened
      rw [ScopeTree.size_add] at later
      exact ⟨Nat.le_of_succ_le later.1, later.2⟩
  | visit _ _ within others ih_within ih =>
    rcases mem_performed_visit.1 opened with same | opened | opened
    · cases same
    · have first := ih_within opened
      exact ⟨first.1, others.grows.has first.2⟩
    · have later := ih opened
      exact ⟨Nat.le_trans within.size_le later.1, later.2⟩

/-- Every scope is an old one or one that the run has opened. -/
theorem opened_of_lt (runs : Runs steps tree record tree') {s : ScopeId} (known : s < tree'.size) :
    s < tree.size ∨ ∃ o, .opening o ∈ performed steps record ∧ o.own = s := by
  induction runs with
  | nil => exact .inl known
  | enter _ _ _ ih =>
    rcases ih known with old | ⟨o, opened, own⟩
    · rw [ScopeTree.size_enter] at old
      exact .inl old
    · exact .inr ⟨o, .tail _ opened, own⟩
  | opening _ next _ ih =>
    rcases ih known with old | ⟨o, opened, own⟩
    · rw [ScopeTree.size_add] at old
      rcases Nat.lt_succ_iff_lt_or_eq.1 old with old | new
      · exact .inl old
      · exact .inr ⟨_, List.mem_cons_self, next.trans new.symm⟩
    · exact .inr ⟨o, .tail _ opened, own⟩
  | visit _ _ _ _ ih_within ih =>
    rcases ih known with old | ⟨o, opened, own⟩
    · rcases ih_within old with old | ⟨o, opened, own⟩
      · exact .inl old
      · exact .inr ⟨o, mem_performed_visit.2 (.inr (.inl opened)), own⟩
    · exact .inr ⟨o, mem_performed_visit.2 (.inr (.inr opened)), own⟩

/-- What a scope finds is what it found and what the run has opened in it. -/
theorem mem_inner (runs : Runs steps tree record tree') {s : ScopeId} {entry : NodeId × ScopeId} :
    entry ∈ tree'.inner s ↔ entry ∈ tree.inner s ∨
      ∃ o, .opening o ∈ performed steps record ∧ o.kind ≠ .statics ∧ o.around = s ∧
        entry = (o.node, o.own) := by
  induction runs with
  | nil => simp [performed]
  | enter _ _ _ ih => simp [ih, performed]
  | opening known _ _ ih =>
    rw [ih, ScopeTree.inner_add known, List.mem_append]
    simp only [performed, List.cons_append, List.mem_cons]
    grind
  | visit _ _ _ _ ih_within ih =>
    rw [ih, ih_within]
    simp only [mem_performed_visit]
    grind

end Runs

end TekLang
