import TekLang.Proofs.Scope.Growth
import TekLang.Proofs.Scope.Plan

/-!
# What is declared in a scope

Which bindings are entered in the table of a scope, and in which order: those that the node makes
which opened the scope, and those of the nodes that stand in it. `Node.bindingsIn` lists them for
every region of a node.
-/

namespace TekLang

namespace ScopeStep

variable {α : Type}

/-- Where a step is taken. -/
def scope : ScopeStep α → α
  | enter scope _ | visit scope _ => scope
  | opening o => o.around

end ScopeStep

/-- Whether a node of the form has the region. -/
def Form.Has {α : Type} (form : Form α) : Region → Prop
  | .around => True
  | .own => form.opens? ≠ none
  | .statics => form.opensStatics = true

theorem has_scope_of_mem_plan (n : Node) : ∀ step ∈ n.plan, n.form.Has step.scope := by
  obtain ⟨id, span, form⟩ := n
  cases form with
  | classDecl name generics bases constructors statics instances =>
    intro step planned
    cases region : step.scope with
    | around => trivial
    | own => exact nofun
    | statics => rfl
  | _ =>
    simp [Node.plan, Regions.names, Node.steps, openOwn, enterAll, visitAll, Form.Has, Form.opens?,
      or_imp, forall_and, ScopeStep.scope]

theorem has_of_placed {n m : Node} {region : Region} (stands : (region, m) ∈ n.placed) :
    n.form.Has region := by
  cases region with
  | around => trivial
  | own =>
    obtain ⟨id, span, form⟩ := n
    cases form <;>
      simp [Node.placed, mem_inRegion, Form.Has, Form.opens?] at stands ⊢
  | statics => exact opensStatics_of_placed stands

theorem Node.mem_children_of_visit_mem_plan {n m : Node} {region : Region}
    (visits : .visit region m ∈ n.plan) : m ∈ n.children := by
  rw [mem_children, ← (details_append_visited n .names).mem_iff]
  exact List.mem_append_right _ (List.mem_filterMap.2 ⟨_, visits, rfl⟩)

/-- The bindings that a node makes in the region around it, with those of the nodes that stand there
    with it. -/
def Node.introduced (n : Node) : List Binding :=
  n.plan.attach.flatMap fun
    | ⟨.enter .around b, _⟩ => [b]
    | ⟨.visit .around m, _⟩ => m.introduced
    | _ => []
termination_by n.descendants.length
decreasing_by exact length_descendants_lt (mem_children_of_visit_mem_plan ‹_›)

namespace ScopeStep

variable {α β : Type}

@[simp] theorem scope_map (f : α → β) (step : ScopeStep α) : (step.map f).scope = f step.scope := by
  cases step <;> rfl

variable [DecidableEq α] [DecidableEq β]

/-- The bindings that a step makes at a place. -/
def makes (place : α) : ScopeStep α → List Binding
  | enter scope b => if scope = place then [b] else []
  | visit scope n => if scope = place then n.introduced else []
  | opening _ => []

theorem makes_map {f : α → β} {step : ScopeStep α} {place : α}
    (apart : f step.scope = f place ↔ step.scope = place) :
    (step.map f).makes (f place) = step.makes place := by
  cases step with
  | enter | visit => exact if_congr apart rfl rfl
  | opening => rfl

theorem makes_of_ne {step : ScopeStep α} {place : α} (other : step.scope ≠ place) :
    step.makes place = [] := by
  cases step with
  | enter | visit => exact if_neg other
  | opening => rfl

end ScopeStep

/-- The bindings made in a region of a node. -/
def Node.bindingsIn (n : Node) (region : Region) : List Binding :=
  n.plan.flatMap (ScopeStep.makes region)

theorem Node.introduced_eq (n : Node) : n.introduced = n.bindingsIn .around := by
  have same : ∀ step : { step // step ∈ n.plan }, (match step with
      | ⟨.enter .around b, _⟩ => [b]
      | ⟨.visit .around m, _⟩ => m.introduced
      | _ => []) = ScopeStep.makes .around step.val := by
    rintro ⟨step, _⟩
    rcases step with ⟨_ | _ | _, _⟩ | _ | ⟨_ | _ | _, _⟩ <;> rfl
  rw [introduced, List.flatMap_congr fun step _ => same step]
  conv_rhs => rw [bindingsIn, ← List.attach_map_subtype_val n.plan, List.flatMap_map]

/-- A binding made in a region of a node is made by the node or by one that stands there. -/
theorem Node.exists_bindingsIn {n : Node} {region : Region} {P : Binding → Prop} :
    (∃ b ∈ n.bindingsIn region, P b) ↔ (∃ b, .enter region b ∈ n.plan ∧ P b) ∨
      ∃ m, .visit region m ∈ n.plan ∧ ∃ b ∈ m.introduced, P b := by
  unfold bindingsIn
  constructor
  · rintro ⟨b, made, holds⟩
    obtain ⟨step, planned, made⟩ := List.mem_flatMap.1 made
    cases step with
    | enter place b' =>
      rw [ScopeStep.makes] at made
      split at made
      · next same =>
        obtain rfl := List.mem_singleton.1 made
        exact .inl ⟨b, same ▸ planned, holds⟩
      · cases made
    | visit place m =>
      rw [ScopeStep.makes] at made
      split at made
      · next same => exact .inr ⟨m, same ▸ planned, b, made, holds⟩
      · cases made
    | opening => cases made
  · rintro (⟨b, planned, holds⟩ | ⟨m, planned, b, made, holds⟩)
    · refine ⟨b, List.mem_flatMap.2 ⟨_, planned, ?_⟩, holds⟩
      rw [ScopeStep.makes, if_pos rfl]
      exact List.mem_singleton_self b
    · refine ⟨b, List.mem_flatMap.2 ⟨_, planned, ?_⟩, holds⟩
      rwa [ScopeStep.makes, if_pos rfl]

theorem Regions.Ordered.get_eq_iff {r : Regions ScopeId} {form : Form Node}
    (ordered : r.Ordered form) {region region' : Region} (has : form.Has region)
    (has' : form.Has region') : r.get region = r.get region' ↔ region = region' := by
  have own (opens : form.opensStatics = true) : r.around < r.own := by
    apply ordered.own
    rw [Form.opens?_of_opensStatics opens]
    exact nofun
  refine ⟨?_, fun same => congrArg _ same⟩
  intro same
  cases region <;> cases region' <;> first | rfl | exfalso
  · exact absurd same (Nat.ne_of_lt (ordered.own has'))
  · have less := Nat.lt_trans (own has') (ordered.statics has')
    exact absurd same (Nat.ne_of_lt less)
  · exact absurd same (Nat.ne_of_gt (ordered.own has))
  · exact absurd same (Nat.ne_of_lt (ordered.statics has'))
  · have less := Nat.lt_trans (own has) (ordered.statics has)
    exact absurd same (Nat.ne_of_gt less)
  · exact absurd same (Nat.ne_of_gt (ordered.statics has))

/-- What the steps at a node make in one of its scopes is what is made in the region. -/
theorem flatMap_makes {n : Node} {r : Regions ScopeId} (ordered : r.Ordered n.form)
    {region : Region}
    (has : n.form.Has region) :
    (n.steps r).flatMap (ScopeStep.makes (r.get region)) = n.bindingsIn region := by
  rw [steps_eq_map_plan, List.flatMap_map]
  apply List.flatMap_congr
  intro step planned
  have has' := has_scope_of_mem_plan n step planned
  exact ScopeStep.makes_map (ordered.get_eq_iff has' has)

/-- The scope of a region that a node opens. -/
theorem exists_opening {α : Type} {n : Node} (r : Regions α) {region : Region}
    (has : n.form.Has region) (inner : region ≠ .around) :
    ∃ o ∈ n.openings r, o.own = r.get region := by
  cases region with
  | around => exact absurd rfl inner
  | own =>
    obtain ⟨kind, opens⟩ := Option.ne_none_iff_exists'.1 has
    exact ⟨_, own_mem_openings r opens, rfl⟩
  | statics => exact ⟨_, statics_mem_openings r has, rfl⟩

/-- Every step is taken in one of the first scopes or in one that the steps open. -/
def Grounded (first : ScopeId) (steps : List (ScopeStep ScopeId)) : Prop :=
  ∀ step ∈ steps, step.scope < first ∨ ∃ o, .opening o ∈ steps ∧ o.own = step.scope

theorem Grounded.tail {first first' : ScopeId} {step : ScopeStep ScopeId}
    {steps : List (ScopeStep ScopeId)} (grounded : Grounded first (step :: steps))
    (le : first ≤ first') (opens : ∀ o, step = .opening o → o.own < first') :
    Grounded first' steps := by
  intro other taken
  rcases grounded other (.tail _ taken) with known | ⟨o, opened, own⟩
  · exact .inl (Nat.lt_of_lt_of_le known le)
  · rcases List.mem_cons.1 opened with same | opened
    · exact .inl (own ▸ opens o same.symm)
    · exact .inr ⟨o, opened, own⟩

theorem grounded_steps {first : ScopeId} {n : Node} {r : Regions ScopeId}
    (known : r.around < first) : Grounded first (n.steps r) := by
  intro step taken
  rw [steps_eq_map_plan] at taken
  obtain ⟨step, planned, rfl⟩ := List.mem_map.1 taken
  have has := has_scope_of_mem_plan n step planned
  rw [ScopeStep.scope_map]
  by_cases inner : step.scope = .around
  · rw [inner]
    exact .inl known
  · obtain ⟨o, opened, own⟩ := exists_opening r has inner
    exact .inr ⟨o, opening_mem_steps.2 opened, own⟩

namespace Runs

variable {steps : List (ScopeStep ScopeId)} {tree tree' : ScopeTree}
  {record : List (Node × Regions ScopeId)} {n : Node} {r : Regions ScopeId}

theorem opens_own (within : Runs (n.steps r) tree record tree') (opens : n.form.opens? ≠ none) :
    tree.size ≤ r.own ∧ r.around < r.own := by
  obtain ⟨kind, opens⟩ := Option.ne_none_iff_exists'.1 opens
  have opened := opening_mem_steps.2 (own_mem_openings r opens)
  have there := within.has_opened (List.mem_append_left _ opened)
  exact ⟨there.1, there.2.behind⟩

theorem opens_statics (within : Runs (n.steps r) tree record tree')
    (opens : n.form.opensStatics = true) : tree.size ≤ r.statics ∧ r.own < r.statics := by
  have opened := opening_mem_steps.2 (statics_mem_openings r opens)
  have there := within.has_opened (List.mem_append_left _ opened)
  exact ⟨there.1, there.2.behind⟩

theorem ordered (within : Runs (n.steps r) tree record tree') : r.Ordered n.form where
  own opens := (within.opens_own opens).2
  statics opens := (within.opens_statics opens).2

/-- In a scope that was there before a node makes bindings only if it stands there. -/
theorem makes_steps (within : Runs (n.steps r) tree record tree') {s : ScopeId}
    (known : s < tree.size) :
    (n.steps r).flatMap (ScopeStep.makes s) = if r.around = s then n.introduced else [] := by
  split
  · next here =>
    subst here
    rw [Node.introduced_eq]
    exact flatMap_makes within.ordered (show n.form.Has .around from trivial)
  · next elsewhere =>
    rw [steps_eq_map_plan, List.flatMap_map, List.flatMap_eq_nil_iff]
    intro step planned
    apply ScopeStep.makes_of_ne
    have has := has_scope_of_mem_plan n step planned
    rw [ScopeStep.scope_map]
    cases region : step.scope with
    | around => exact elsewhere
    | own =>
      rw [region] at has
      have new := (within.opens_own has).1
      exact Nat.ne_of_gt (Nat.lt_of_lt_of_le known new)
    | statics =>
      rw [region] at has
      have new := (within.opens_statics has).1
      exact Nat.ne_of_gt (Nat.lt_of_lt_of_le known new)

/-- The table of an old scope gets the bindings made there, in their order. -/
theorem table_eq (runs : Runs steps tree record tree') {s : ScopeId} (known : s < tree.size) :
    tree'.table s =
      (steps.flatMap (ScopeStep.makes s)).foldl (·.enter s) (tree.table s) := by
  induction runs with
  | nil => rfl
  | @enter scope b steps tree record tree' there _ _ ih =>
    have still : s < (tree.enter scope b).size := by
      rw [ScopeTree.size_enter]
      exact known
    rw [ih still, List.flatMap_cons, List.foldl_append]
    by_cases here : scope = s
    · subst here
      rw [ScopeTree.table_enter _ _ _ known, ScopeStep.makes, if_pos rfl]
      rfl
    · rw [ScopeTree.table_enter_of_ne _ _ here, ScopeStep.makes, if_neg here]
      rfl
  | @opening o steps tree record tree' there _ _ ih =>
    have still : s < (tree.add o).size := by
      rw [ScopeTree.size_add]
      exact Nat.lt_succ_of_lt known
    rw [ih still, ScopeTree.table_add there]
    rfl
  | visit _ _ within others ih_within ih =>
    have still := Nat.lt_of_lt_of_le known within.size_le
    rw [ih still, ih_within known, List.flatMap_cons, List.foldl_append, within.makes_steps known]
    rfl

/-- A new scope has the bindings that are made there behind its opening. -/
theorem table_opened (runs : Runs steps tree record tree') {o : Opening ScopeId}
    (opened : .opening o ∈ steps) :
    tree'.table o.own = (steps.flatMap (ScopeStep.makes o.own)).foldl (·.enter o.own) .empty := by
  have new := (runs.has_opened (List.mem_append_left _ opened)).1
  induction runs with
  | nil => cases opened
  | @enter scope b steps tree record tree' known _ others ih =>
    rcases List.mem_cons.1 opened with same | opened
    · cases same
    have silent : (ScopeStep.enter scope b).makes o.own = [] :=
      ScopeStep.makes_of_ne (Nat.ne_of_lt (Nat.lt_of_lt_of_le known new))
    rw [List.flatMap_cons, silent, List.nil_append]
    exact ih opened (others.has_opened (List.mem_append_left _ opened)).1
  | @opening o' steps tree record tree' known next others ih =>
    rcases List.mem_cons.1 opened with same | opened
    · cases same
      have behind : o.own < (tree.add o).size := by
        rw [next, ScopeTree.size_add]
        exact Nat.lt_succ_self _
      have empty : (tree.add o).table o.own = .empty := by
        rw [ScopeTree.table_add known, next, ScopeTree.table, ScopeTree.get?_size]
        rfl
      rw [others.table_eq behind, empty]
      rfl
    · exact ih opened (others.has_opened (List.mem_append_left _ opened)).1
  | @visit n r steps tree inner tree₁ record tree' known _ _ others _ ih =>
    rcases List.mem_cons.1 opened with same | opened
    · cases same
    have silent : (ScopeStep.visit r.around n).makes o.own = [] :=
      ScopeStep.makes_of_ne (Nat.ne_of_lt (Nat.lt_of_lt_of_le known new))
    rw [List.flatMap_cons, silent, List.nil_append]
    exact ih opened (others.has_opened (List.mem_append_left _ opened)).1

/-- Steps that are taken in the first scopes and in those that they open leave the others alone. -/
theorem table_of_grounded (runs : Runs steps tree record tree') {first : ScopeId}
    (grounded : Grounded first steps) {s : ScopeId} (low : first ≤ s) (high : s < tree.size) :
    tree'.table s = tree.table s := by
  have silent : steps.flatMap (ScopeStep.makes s) = [] := by
    rw [List.flatMap_eq_nil_iff]
    intro step taken
    apply ScopeStep.makes_of_ne
    rcases grounded step taken with known | ⟨o, opened, own⟩
    · exact Nat.ne_of_lt (Nat.lt_of_lt_of_le known low)
    · have new := (runs.has_opened (List.mem_append_left _ opened)).1
      rw [← own]
      exact Nat.ne_of_gt (Nat.lt_of_lt_of_le high new)
  rw [runs.table_eq high, silent]
  rfl

theorem range_of_opened (runs : Runs steps tree record tree') {o : Opening ScopeId}
    (opened : .opening o ∈ performed steps record) : tree.size ≤ o.own ∧ o.own < tree'.size := by
  obtain ⟨new, _, _, _, found, _⟩ := runs.has_opened opened
  exact ⟨new, ScopeTree.lt_of_get? found⟩

/-- A recorded node has the bindings of its regions in the scopes that it has opened. -/
theorem table_recorded (runs : Runs steps tree record tree') (grounded : Grounded tree.size steps) :
    ∀ n r, (n, r) ∈ record → ∀ region, n.form.Has region → region ≠ .around →
      tree'.table (r.get region) = (n.bindingsIn region).foldl (·.enter (r.get region)) .empty := by
  induction runs with
  | nil => exact nofun
  | enter _ _ _ ih =>
    rw [ScopeTree.size_enter] at ih
    exact ih (grounded.tail (Nat.le_refl _) nofun)
  | opening _ next _ ih =>
    rw [ScopeTree.size_add] at ih
    apply ih
    apply grounded.tail (Nat.le_succ _)
    intro o same
    cases same
    exact Nat.lt_succ_of_le (Nat.le_of_eq next)
  | @visit n r steps tree inner tree₁ record tree' known _ within others ih_within ih =>
    intro m r' there region has other
    -- The tables are complete when the pass goes on behind the node: what is left to do is grounded
    -- in scopes that are older or that are opened only then.
    have behind := grounded.tail (Nat.le_refl _) nofun
    obtain ⟨o, opened, own⟩ := exists_opening r' has other
    rw [← own]
    rcases List.mem_cons.1 there with same | there
    · cases same
      have opened := opening_mem_steps.2 opened
      have range := within.range_of_opened (List.mem_append_left _ opened)
      rw [others.table_of_grounded behind range.1 range.2, within.table_opened opened, own,
        flatMap_makes within.ordered has]
    · rcases List.mem_append.1 there with there | there
      · have opened : .opening o ∈ performed (n.steps r) inner := List.mem_append_right _
          (List.mem_flatMap.2 ⟨_, there, opening_mem_steps.2 opened⟩)
        have range := within.range_of_opened opened
        rw [others.table_of_grounded behind range.1 range.2, own]
        exact ih_within (grounded_steps known) m r' there region has other
      · rw [own]
        exact ih (grounded.tail within.size_le nofun) m r' there region has other

end Runs

end TekLang
