import TekLang.Proofs.Grammar.Conformance
import TekLang.Proofs.Scope.Steps

/-!
# Steps node by node

What the steps at a node are, form by form: the pass comes to every constituent that is more than a
detail, in the region where it stands, and opens the scopes that the form says.
-/

namespace TekLang

variable {α : Type}

/-- The nodes that steps come to. -/
def visited (steps : List (ScopeStep α)) : List Node :=
  steps.filterMap fun
    | .visit _ n => some n
    | _ => none

@[simp] theorem visited_nil : visited ([] : List (ScopeStep α)) = [] := rfl

@[simp] theorem visited_append (steps steps' : List (ScopeStep α)) :
    visited (steps ++ steps') = visited steps ++ visited steps' := List.filterMap_append

@[simp] theorem visited_enter (scope : α) (b : Binding) (steps : List (ScopeStep α)) :
    visited (.enter scope b :: steps) = visited steps := rfl

@[simp] theorem visited_opening (o : Opening α) (steps : List (ScopeStep α)) :
    visited (.opening o :: steps) = visited steps := rfl

@[simp] theorem visited_visit (scope : α) (n : Node) (steps : List (ScopeStep α)) :
    visited (.visit scope n :: steps) = n :: visited steps := rfl

@[simp] theorem visited_enterAll (scope : α) (bs : List Binding) :
    visited (enterAll scope bs) = [] := by
  induction bs with
  | nil => rfl
  | cons b bs ih => exact ih

@[simp] theorem visited_visitAll (scope : α) (ns : List Node) :
    visited (visitAll scope ns) = ns := by
  induction ns with
  | nil => rfl
  | cons n ns ih => exact congrArg (n :: ·) ih

@[simp] theorem visited_constructorSteps (own : α) (generics ns : List Node) :
    visited (constructorSteps own generics ns) = ns := by
  induction ns with
  | nil => rfl
  | cons n ns ih =>
    rw [constructorSteps, List.flatMap_cons, visited_append, visited_append, visited_enterAll,
      visited_visitAll]
    exact congrArg (n :: ·) ih

/-- The pass comes to all constituents of a node but the details. -/
theorem details_append_visited (n : Node) (r : Regions α) :
    (n.form.details ++ visited (n.steps r)).Perm n.form.parts := by
  obtain ⟨id, span, form⟩ := n
  cases form with
  | instanceOf value type =>
    exact List.Perm.swap ..
  | _ => simp [Node.steps, Form.details, Form.parts, openOwn]

/-- What a node opens. -/
def Node.openings (n : Node) (r : Regions α) : List (Opening α) :=
  match n.form.opens? with
  | none => []
  | some kind =>
    if n.form.opensStatics then
      [⟨kind, n.id, r.around, r.own, some r.statics⟩, ⟨.statics, n.id, r.own, r.statics, none⟩]
    else [⟨kind, n.id, r.around, r.own, none⟩]

theorem mem_openings {n : Node} {r : Regions α} {o : Opening α} :
    o ∈ n.openings r ↔
      (∃ kind, n.form.opens? = some kind ∧ o = ⟨kind, n.id, r.around, r.own,
        if n.form.opensStatics then some r.statics else none⟩) ∨
      (n.form.opensStatics = true ∧ o = ⟨.statics, n.id, r.own, r.statics, none⟩) := by
  obtain ⟨id, span, form⟩ := n
  cases form <;> simp [Node.openings, Form.opens?, Form.opensStatics]

/-- A node that opens a scope opens the one of its own region. -/
theorem own_mem_openings {n : Node} (r : Regions α) {kind : ScopeKind}
    (opens : n.form.opens? = some kind) :
    ⟨kind, n.id, r.around, r.own, if n.form.opensStatics then some r.statics else none⟩ ∈
      n.openings r :=
  mem_openings.2 (.inl ⟨kind, opens, rfl⟩)

/-- And a class opens that of its static members. -/
theorem statics_mem_openings {n : Node} (r : Regions α) (opens : n.form.opensStatics = true) :
    ⟨.statics, n.id, r.own, r.statics, none⟩ ∈ n.openings r :=
  mem_openings.2 (.inr ⟨opens, rfl⟩)

theorem opening_mem_steps {n : Node} {r : Regions α} {o : Opening α} :
    .opening o ∈ n.steps r ↔ o ∈ n.openings r := by
  obtain ⟨id, span, form⟩ := n
  cases form <;>
    simp [Node.steps, Node.openings, Form.opens?, Form.opensStatics, visitAll, enterAll, openOwn,
      constructorSteps]

/-- The regions themselves. -/
def Regions.names : Regions Region := ⟨.around, .own, .statics⟩

/-- Steps with their regions in place of scopes. -/
def Node.plan (n : Node) : List (ScopeStep Region) := n.steps .names

/-- The same for other regions. -/
def Opening.map {β : Type} (f : α → β) (o : Opening α) : Opening β :=
  ⟨o.kind, o.node, f o.around, f o.own, o.statics.map f⟩

/-- The same in other regions. -/
def ScopeStep.map {β : Type} (f : α → β) : ScopeStep α → ScopeStep β
  | enter scope b => enter (f scope) b
  | opening o => opening (o.map f)
  | visit scope n => visit (f scope) n

variable {β : Type}

@[simp] theorem map_enterAll (f : α → β) (scope : α) (bs : List Binding) :
    (enterAll scope bs).map (ScopeStep.map f) = enterAll (f scope) bs := List.map_map

@[simp] theorem map_visitAll (f : α → β) (scope : α) (ns : List Node) :
    (visitAll scope ns).map (ScopeStep.map f) = visitAll (f scope) ns := List.map_map

@[simp] theorem map_constructorSteps (f : α → β) (own : α) (generics ns : List Node) :
    (constructorSteps own generics ns).map (ScopeStep.map f) =
      constructorSteps (f own) generics ns := by
  simp [constructorSteps, List.map_flatMap]

theorem steps_eq_map_plan (n : Node) (r : Regions α) :
    n.steps r = n.plan.map (ScopeStep.map r.get) := by
  obtain ⟨id, span, form⟩ := n
  cases form <;>
    simp [Node.plan, Regions.names, Node.steps, ScopeStep.map, Opening.map, Regions.get, openOwn]

@[simp] theorem visit_mem_enterAll {scope scope' : α} {bs : List Binding} {n : Node} :
    .visit scope n ∈ enterAll scope' bs ↔ False := by
  simp [enterAll]

@[simp] theorem visit_mem_visitAll {scope scope' : α} {ns : List Node} {n : Node} :
    .visit scope n ∈ visitAll scope' ns ↔ scope = scope' ∧ n ∈ ns := by
  simp [visitAll, eq_comm, and_comm]

@[simp] theorem visit_mem_constructorSteps {scope own : α} {generics ns : List Node} {n : Node} :
    .visit scope n ∈ constructorSteps own generics ns ↔ scope = own ∧ n ∈ ns := by
  simp [constructorSteps, and_comm]

theorem opensStatics_of_placed {n m : Node} (stands : (.statics, m) ∈ n.placed) :
    n.form.opensStatics = true := by
  obtain ⟨id, span, form⟩ := n
  cases form with
  | classDecl => rfl
  | _ => simp [Node.placed, mem_inRegion] at stands

theorem opens?_of_isDetail {form : Form Node} (detail : form.isDetail = true) :
    form.opens? = none := by
  cases form with
  | typeRef | parameter | generic | importedName => rfl
  | _ => cases detail

/-- A detail has no regions of its own. -/
theorem around_of_placed_of_isDetail {n m : Node} {region : Region}
    (detail : n.form.isDetail = true) (stands : (region, m) ∈ n.placed) : region = .around := by
  obtain ⟨id, span, form⟩ := n
  cases form <;> first
    | exact (mem_inRegion.1 stands).1
    | cases detail

/-- The pass comes to a constituent in the region where it stands. -/
theorem placed_of_visit_mem_plan {n m : Node} {region : Region} (sides : n.form.KeepsSides)
    (visits : .visit region m ∈ n.plan) :
    (region, m) ∈ n.placed := by
  obtain ⟨id, span, form⟩ := n
  -- Only a class has its members in other lists than the text, so for it alone the pass comes to
  -- them in another order.
  cases form with
  | classDecl name generics bases constructors statics instances =>
    obtain ⟨building, static, own⟩ := sides
    apply List.mem_append_right
    rw [mem_inMemberRegions, (inSourceOrder_perm ..).mem_iff, List.mem_append, List.mem_append]
    simp [Node.plan, Regions.names, Node.steps] at visits
    rcases visits with ⟨rfl, there⟩ | ⟨rfl, there⟩ | ⟨rfl, there⟩
    · obtain ⟨params, body, form⟩ := building m there
      have side : Region.ofMember m = .own := by rw [Region.ofMember, form]
      exact ⟨side.symm, .inl (.inl there)⟩
    · obtain ⟨value, form⟩ := static m there
      have side : Region.ofMember m = .statics := by rw [Region.ofMember, form]
      exact ⟨side.symm, .inl (.inr there)⟩
    · obtain ⟨value, form⟩ := own m there
      have side : Region.ofMember m = .own := by rw [Region.ofMember, form]
      exact ⟨side.symm, .inr there⟩
  | _ =>
    simp [Node.plan, Regions.names, Node.steps, openOwn, Node.placed, mem_inRegion, Node.children,
      Form.parts] at visits ⊢ <;> grind

/-- And it leaves out nothing but details. -/
theorem visit_mem_plan_or_details_of_placed {n m : Node} {region : Region}
    (sides : n.form.KeepsSides) (stands : (region, m) ∈ n.placed) :
    .visit region m ∈ n.plan ∨ m ∈ n.form.details := by
  obtain ⟨id, span, form⟩ := n
  cases form with
  | classDecl name generics bases constructors statics instances =>
    obtain ⟨building, static, own⟩ := sides
    simp [Node.placed, mem_inRegion, mem_inMemberRegions] at stands
    simp [Node.plan, Regions.names, Node.steps, Form.details]
    rcases stands with ⟨rfl, there⟩ | ⟨rfl, there⟩ | ⟨rfl, there | there | there⟩
    · exact .inr (.inl there)
    · exact .inr (.inr there)
    · obtain ⟨params, body, form⟩ := building m there
      have side : Region.ofMember m = .own := by rw [Region.ofMember, form]
      exact .inl (.inl ⟨side, there⟩)
    · obtain ⟨value, form⟩ := static m there
      have side : Region.ofMember m = .statics := by rw [Region.ofMember, form]
      exact .inl (.inr (.inl ⟨side, there⟩))
    · obtain ⟨value, form⟩ := own m there
      have side : Region.ofMember m = .own := by rw [Region.ofMember, form]
      exact .inl (.inr (.inr ⟨side, there⟩))
  | _ =>
    simp [Node.plan, Regions.names, Node.steps, openOwn, Node.placed, mem_inRegion, Node.children,
      Form.parts, Form.details] at stands ⊢ <;> grind

end TekLang
