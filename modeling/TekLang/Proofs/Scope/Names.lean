import TekLang.Proofs.Scope.Tables
import TekLang.Proofs.Token.Names

/-!
# Declared names

Which names are declared in a region, said of the tree alone: those that a node declares itself and
those of the nodes that stand in the region. They are the names that are bound when the scopes are
built, apart from the signatures of functions.
-/

namespace TekLang

/-- The names of generics and parameters. -/
def parameterNames (ns : List Node) : List String :=
  ns.filterMap fun n =>
    match n.form with
    | .generic name _ | .parameter name _ => some name.lexeme
    | _ => none

/-- The names that an import brings in: that of the module or the listed ones. -/
def importedNames (path : List Token) (rename : Option Token) (exposed : List Node) : List String :=
  match rename with
  | some name => [name.lexeme]
  | none =>
    if exposed.isEmpty then path.getLast?.toList.map (·.lexeme)
    else exposed.filterMap fun n => n.declaredName?.map (·.lexeme)

/-- The names that a node of the form declares itself in one of its regions. -/
def Form.declares (form : Form Node) (region : Region) : List String :=
  match region, form with
  | .around, .variableDecl name .. | .around, .functionDecl name .. | .around, .classDecl name ..
  | .own, .forEach name .. | .own, .catchClause name .. => [name.lexeme]
  | .around, .importDecl path rename exposed => importedNames path rename exposed
  | .own, .functionDecl _ generics params .. => parameterNames generics ++ parameterNames params
  | .own, .constructor params _ => parameterNames params
  | .own, .classDecl _ generics .. => parameterNames generics
  | _, _ => []

theorem Form.declares_of_isDetail {form : Form Node} (detail : form.isDetail = true) :
    form.declares .around = [] := by
  cases form <;> first | rfl | cases detail

namespace Node

/-- The names declared directly in a region of a node: by the node and by those that stand there. -/
def namesIn (n : Node) (region : Region) : List String :=
  n.form.declares region ++ n.placed.attach.flatMap fun ⟨(place, child), _⟩ =>
    if place = region then child.namesIn .around else []
termination_by n.descendants.length
decreasing_by exact length_descendants_lt (mem_children_of_mem_placed ‹_›)

theorem mem_namesIn {n : Node} {region : Region} {name : String} :
    name ∈ n.namesIn region ↔ name ∈ n.form.declares region ∨
      ∃ child, (region, child) ∈ n.placed ∧ name ∈ child.namesIn .around := by
  rw [namesIn, List.mem_append]
  refine or_congr_right (List.mem_flatMap.trans ⟨?_, ?_⟩)
  · rintro ⟨⟨⟨place, child⟩, stands⟩, -, there⟩
    dsimp only at there
    split at there
    · next same => exact ⟨child, same ▸ stands, there⟩
    · cases there
  · rintro ⟨child, stands, there⟩
    refine ⟨⟨(region, child), stands⟩, List.mem_attach .., ?_⟩
    dsimp only
    rwa [if_pos rfl]

/-- Below a detail nothing is declared. -/
theorem namesIn_of_isDetail {n : Node} (detail : ∀ m ∈ n.descendants, m.form.isDetail = true)
    (name : String) : name ∉ n.namesIn .around := by
  induction n using induction_on_children with
  | step n ih =>
    rw [descendants_eq] at detail
    rw [mem_namesIn]
    rintro (own | ⟨child, stands, there⟩)
    · rw [Form.declares_of_isDetail (detail n List.mem_cons_self)] at own
      cases own
    · have below := mem_children_of_mem_placed stands
      have details : ∀ m ∈ child.descendants, m.form.isDetail = true := by
        intro m member
        exact detail m (.tail _ (List.mem_flatMap.2 ⟨child, below, member⟩))
      exact ih child below details there

end Node

/-- A name that is no signature. -/
def IsPlainName (name : String) : Prop := '(' ∉ name.toList

theorem not_isPlainName_text (name : String) (generics : List String) (params : List Node) :
    ¬ IsPlainName (Signature.text name generics params) := by
  simp [IsPlainName, Signature.text]

/-- The names in a text are plain. -/
theorem isPlainName_of_mem_lex (source : String) {t : Token} (there : t ∈ (lex source).tokens)
    (name : t.kind = .identifier) : IsPlainName t.lexeme := by
  intro parenthesis
  have word := isWordLike_of_mem_lex source t there name '(' parenthesis
  revert word
  decide

/-- Whether a name is declared by a binding. A function is declared under its signature, too. -/
def Binding.Declares : Binding → String → Prop
  | plain own _, name | unique own _ _, name => name = own
  | function own signature _ _, name => name = signature ∨ name = own

@[simp] theorem enter_mem_enterAll {α : Type} {scope scope' : α} {bs : List Binding} {b : Binding} :
    .enter scope b ∈ enterAll scope' bs ↔ scope = scope' ∧ b ∈ bs := by
  simp [enterAll, eq_comm, and_comm]

@[simp] theorem enter_mem_visitAll {α : Type} {scope scope' : α} {ns : List Node} {b : Binding} :
    .enter scope b ∈ visitAll scope' ns ↔ False := by
  simp [visitAll]

@[simp] theorem enter_mem_constructorSteps {α : Type} {scope own : α} {generics ns : List Node}
    {b : Binding} : .enter scope b ∈ constructorSteps own generics ns ↔
      scope = own ∧ ∃ n ∈ ns, b ∈ constructorBindings generics n := by
  simp [constructorSteps]
  grind

theorem exists_parameterBindings {ns : List Node} {name : String} :
    (∃ b ∈ parameterBindings ns, b.Declares name) ↔ name ∈ parameterNames ns := by
  induction ns with
  | nil => simp [parameterBindings, parameterNames]
  | cons n ns ih =>
    obtain ⟨id, span, form⟩ := n
    cases form with
    | generic own _ | parameter own _ =>
      change (∃ b ∈ Binding.plain own.lexeme id :: parameterBindings ns, b.Declares name) ↔
        name ∈ own.lexeme :: parameterNames ns
      rw [List.exists_mem_cons_iff, ih, List.mem_cons]
      rfl
    | _ => exact ih

theorem exists_importBindings {node : NodeId} {path : List Token} {rename : Option Token}
    {exposed : List Node} {name : String} :
    (∃ b ∈ importBindings node path rename exposed, b.Declares name) ↔
      name ∈ importedNames path rename exposed := by
  unfold importBindings importedNames
  cases rename with
  | some own => simp [Binding.Declares]
  | none =>
    by_cases empty : exposed.isEmpty
    · cases path.getLast? <;> simp [empty, Binding.Declares]
    · simp only [empty, Bool.false_eq_true, if_false, List.mem_filterMap, listedBinding?]
      constructor
      · rintro ⟨b, ⟨n, there, bound⟩, declares⟩
        obtain ⟨own, named, rfl⟩ := Option.map_eq_some_iff.1 bound
        exact ⟨n, there, Option.map_eq_some_iff.2 ⟨own, named, declares.symm⟩⟩
      · rintro ⟨n, there, declares⟩
        obtain ⟨own, named, rfl⟩ := Option.map_eq_some_iff.1 declares
        exact ⟨_, ⟨n, there, Option.map_eq_some_iff.2 ⟨own, named, rfl⟩⟩, rfl⟩

/-- The binding of a constructor is of its signature alone. -/
theorem not_declares_constructorBindings {generics : List Node} {n : Node} {b : Binding}
    (made : b ∈ constructorBindings generics n) {name : String} (plain : IsPlainName name) :
    ¬ b.Declares name := by
  unfold constructorBindings at made
  split at made
  · obtain rfl := List.mem_singleton.1 made
    intro declares
    have signature : name = Signature.ofConstructor generics _ := declares
    rw [signature] at plain
    exact not_isPlainName_text _ _ _ plain
  · cases made

@[simp] theorem Binding.declares_plain {own name : String} {node : NodeId} :
    (plain own node).Declares name ↔ name = own := Iff.rfl

@[simp] theorem Binding.declares_unique {own name : String} {node : NodeId} {taken : ScopeError} :
    (unique own node taken).Declares name ↔ name = own := Iff.rfl

@[simp] theorem Binding.declares_function {own signature name : String} {node : NodeId}
    {taken : ScopeError} :
    (function own signature node taken).Declares name ↔ name = signature ∨ name = own := Iff.rfl

/-- The bindings that a node makes itself are of the names that it declares. -/
theorem exists_enter_mem_plan_iff {n : Node} {region : Region} {name : String}
    (plain : IsPlainName name) :
    (∃ b, .enter region b ∈ n.plan ∧ b.Declares name) ↔ name ∈ n.form.declares region := by
  obtain ⟨id, span, form⟩ := n
  cases form with
  | functionDecl own generics params result body =>
    have unsigned : name ≠ Signature.ofFunction own generics params := by
      rintro rfl
      exact not_isPlainName_text _ _ _ plain
    cases region <;>
      simp [Node.plan, Regions.names, Node.steps, openOwn, Form.declares, or_and_right, exists_or,
        exists_parameterBindings, unsigned]
  | classDecl own generics bases constructors statics instances =>
    cases region <;>
      simp [Node.plan, Regions.names, Node.steps, Form.declares, or_and_right, exists_or,
        exists_parameterBindings]
    intro b m _ made declares
    exact absurd declares (not_declares_constructorBindings made plain)
  | constructor params body =>
    cases region <;>
      simp [Node.plan, Regions.names, Node.steps, openOwn, Form.declares, exists_parameterBindings]
  | importDecl path rename exposed =>
    cases region <;>
      simp [Node.plan, Regions.names, Node.steps, Form.declares, exists_importBindings]
  | _ =>
    cases region <;>
      simp [Node.plan, Regions.names, Node.steps, openOwn, Form.declares]

/-- What is bound in a region of a node is what is declared there, apart from signatures. -/
theorem exists_bindingsIn_iff {n : Node} (regular : n.IsRegular) {region : Region} {name : String}
    (plain : IsPlainName name) :
    (∃ b ∈ n.bindingsIn region, b.Declares name) ↔ name ∈ n.namesIn region := by
  induction n using Node.induction_on_children generalizing region with
  | step n ih =>
    have sides := regular.sides n n.mem_descendants_self
    have below {child : Node} (there : child ∈ n.children) :
        (∃ b ∈ child.introduced, b.Declares name) ↔ name ∈ child.namesIn .around := by
      have under := Node.mem_descendants_of_child there child.mem_descendants_self
      rw [Node.introduced_eq]
      exact ih child there (regular.of_mem_descendants under)
    rw [Node.exists_bindingsIn, exists_enter_mem_plan_iff plain, Node.mem_namesIn]
    refine or_congr_right ⟨?_, ?_⟩
    · rintro ⟨child, planned, declares⟩
      have stands := placed_of_visit_mem_plan sides planned
      exact ⟨child, stands, (below (Node.mem_children_of_mem_placed stands)).1 declares⟩
    · rintro ⟨child, stands, declares⟩
      rcases visit_mem_plan_or_details_of_placed sides stands with planned | detail
      · exact ⟨child, planned, (below (Node.mem_children_of_mem_placed stands)).2 declares⟩
      · have details := regular.details n n.mem_descendants_self child detail
        exact absurd declares (Node.namesIn_of_isDetail details name)

end TekLang
