import TekLang.Proofs.Scope.Names

/-!
# Declarations

What is declared in a region, said of the tree alone: each declaration with its name as it stands in
the text, the node that declares it and what it is declared to be. `Node.declarationsIn` lists them
in the order of the text. Building the scopes makes the same bindings in the same order, and besides
them only those of the signatures of constructors.
-/

namespace TekLang

/-- What a declaration declares a name to be. -/
inductive DeclarationSort
  /-- A variable, a parameter, a generic or an imported name. -/
  | plain
  | ofClass
  | ofFunction (generics params : List Node)

/-- A declaration: the name, the node that declares it and what it is declared to be. -/
structure Declaration where
  name : Token
  node : Node
  sort : DeclarationSort

namespace Declaration

/-- The error that names a declaration as the second of its kind. -/
def refusal? (d : Declaration) : Option ScopeError :=
  match d.sort with
  | .plain => none
  | .ofClass => some (.duplicateClass d.name.lexeme d.name.span)
  | .ofFunction generics params =>
    some (.duplicateFunction (Signature.ofFunction d.name generics params) d.node.span)

/-- Whether a declaration leaves no room for another one behind it: a function for one of the same
    signature, and anything but a function for a class of the same name. -/
def Excludes (first second : Declaration) : Prop :=
  match first.sort, second.sort with
  | .ofFunction generics params, .ofFunction generics' params' =>
    Signature.ofFunction first.name generics params =
      Signature.ofFunction second.name generics' params'
  | .plain, .ofClass | .ofClass, .ofClass => first.name.lexeme = second.name.lexeme
  | _, _ => False

/-- The binding that is made for a declaration. -/
def binding (d : Declaration) : Binding :=
  match d.sort with
  | .plain => .plain d.name.lexeme d.node.id
  | .ofClass =>
    .unique d.name.lexeme d.node.id (.duplicateClass d.name.lexeme d.name.span)
  | .ofFunction generics params =>
    let signature := Signature.ofFunction d.name generics params
    .function d.name.lexeme signature d.node.id (.duplicateFunction signature d.node.span)

@[simp] theorem refusal?_binding (d : Declaration) : d.binding.refusal? = d.refusal? := by
  obtain ⟨name, node, sort⟩ := d
  cases sort <;> rfl

end Declaration

namespace Node

/-- The declaration of a generic or a parameter. -/
def parameter? (n : Node) : Option Declaration :=
  match n.form with
  | .generic name _ | .parameter name _ => some ⟨name, n, .plain⟩
  | _ => none

/-- The declaration of a name that an import lists. -/
def listed? (n : Node) : Option Declaration := n.declaredName?.map fun name => ⟨name, n, .plain⟩

theorem of_parameter? {n : Node} {d : Declaration} (made : n.parameter? = some d) :
    d.node = n ∧ n.declaredName? = some d.name := by
  unfold parameter? at made
  split at made
  · next form =>
    cases made
    exact ⟨rfl, by rw [declaredName?, form]; rfl⟩
  · next form =>
    cases made
    exact ⟨rfl, by rw [declaredName?, form]; rfl⟩
  · cases made

theorem of_listed? {n : Node} {d : Declaration} (made : n.listed? = some d) :
    d.node = n ∧ n.declaredName? = some d.name := by
  obtain ⟨name, named, rfl⟩ := Option.map_eq_some_iff.1 made
  exact ⟨rfl, named⟩

/-- What a node declares itself in one of its regions. -/
def declarations (n : Node) (region : Region) : List Declaration :=
  match region, n.form with
  | .around, .variableDecl name .. | .own, .forEach name .. | .own, .catchClause name .. =>
    [⟨name, n, .plain⟩]
  | .around, .functionDecl name generics params .. =>
    [⟨name, n, .ofFunction generics params⟩]
  | .around, .classDecl name .. => [⟨name, n, .ofClass⟩]
  | .around, .importDecl path rename exposed =>
    match rename with
    | some name => [⟨name, n, .plain⟩]
    | none =>
      if exposed.isEmpty then path.getLast?.toList.map fun last => ⟨last, n, .plain⟩
      else exposed.filterMap listed?
  | .own, .functionDecl _ generics params .. =>
    generics.filterMap parameter? ++ params.filterMap parameter?
  | .own, .constructor params _ => params.filterMap parameter?
  | .own, .classDecl _ generics .. => generics.filterMap parameter?
  | _, _ => []

/-- The children that stand in a region of a node. -/
def standing (n : Node) (region : Region) : List Node :=
  (n.placed.filter (·.1 = region)).map (·.2)

theorem mem_standing {n m : Node} {region : Region} :
    m ∈ n.standing region ↔ (region, m) ∈ n.placed := by
  simp [standing]

theorem mem_children_of_mem_standing {n m : Node} {region : Region}
    (stands : m ∈ n.standing region) : m ∈ n.children :=
  mem_children_of_mem_placed (mem_standing.1 stands)

/-- What is declared directly in a region of a node: by the node and by those that stand there. -/
def declarationsIn (n : Node) (region : Region) : List Declaration :=
  n.declarations region ++
    (n.standing region).attach.flatMap fun ⟨child, _⟩ => child.declarationsIn .around
termination_by n.descendants.length
decreasing_by exact length_descendants_lt (mem_children_of_mem_standing ‹_›)

theorem declarationsIn_eq (n : Node) (region : Region) :
    n.declarationsIn region =
      n.declarations region ++ (n.standing region).flatMap (·.declarationsIn .around) := by
  rw [declarationsIn]
  conv_rhs => rw [← List.attach_map_subtype_val (n.standing region), List.flatMap_map]

theorem declarations_of_isDetail {n : Node} (detail : n.form.isDetail = true) :
    n.declarations .around = [] := by
  obtain ⟨id, span, form⟩ := n
  cases form <;> first | rfl | cases detail

/-- Below a detail nothing is declared. -/
theorem declarationsIn_of_isDetail {n : Node}
    (detail : ∀ m ∈ n.descendants, m.form.isDetail = true) : n.declarationsIn .around = [] := by
  induction n using induction_on_children with
  | step n ih =>
    rw [descendants_eq] at detail
    rw [declarationsIn_eq, declarations_of_isDetail (detail n List.mem_cons_self), List.nil_append,
      List.flatMap_eq_nil_iff]
    intro child stands
    have below := mem_children_of_mem_standing stands
    refine ih child below ?_
    intro m under
    exact detail m (.tail _ (List.mem_flatMap.2 ⟨child, below, under⟩))

end Node

/-- The binding of a text that is no name: of the signature of a constructor. -/
def Binding.isSignature : Binding → Bool
  | plain name _ => "new(".toList.isPrefixOf name.toList
  | _ => false

theorem not_isPlainName_of_isPrefixOf {name : String}
    (begins : "new(".toList.isPrefixOf name.toList = true) : ¬ IsPlainName name := by
  have paren := (List.isPrefixOf_iff_prefix.1 begins).subset (show '(' ∈ "new(".toList by decide)
  exact fun plain => plain paren

/-- The bindings that are made for declarations. -/
def declaredOf (bs : List Binding) : List Binding := bs.filter (! ·.isSignature)

@[simp] theorem standing_inRegion (place region : Region) (ns : List Node) :
    ((inRegion place ns).filter (·.1 = region)).map (·.2) = if place = region then ns else [] := by
  unfold inRegion
  by_cases same : place = region
  · simp [same, List.filter_map, Function.comp_def]
  · simp [same, List.filter_map, Function.comp_def]

section Makes

variable {α : Type} [DecidableEq α]

@[simp] theorem makes_enterAll (place scope : α) (bs : List Binding) :
    (enterAll scope bs).flatMap (ScopeStep.makes place) = if scope = place then bs else [] := by
  unfold enterAll
  rw [List.flatMap_map]
  by_cases same : scope = place
  · simp [same, ScopeStep.makes]
  · simp [same, ScopeStep.makes]

@[simp] theorem makes_visitAll (place scope : α) (ns : List Node) :
    (visitAll scope ns).flatMap (ScopeStep.makes place) =
      if scope = place then ns.flatMap Node.introduced else [] := by
  unfold visitAll
  rw [List.flatMap_map]
  by_cases same : scope = place
  · simp [same, ScopeStep.makes]
  · simp [same, ScopeStep.makes]

end Makes

@[simp] theorem declaredOf_nil : declaredOf [] = [] := rfl

@[simp] theorem declaredOf_append (bs bs' : List Binding) :
    declaredOf (bs ++ bs') = declaredOf bs ++ declaredOf bs' := List.filter_append ..

/-- The nodes make bindings for what they declare around them, and no others but for signatures. -/
def BindDeclared (ns : List Node) : Prop :=
  ∀ m ∈ ns, declaredOf m.introduced = (m.declarationsIn .around).map Declaration.binding

/-- The nodes declare nothing around them. -/
def DeclareNothing (ns : List Node) : Prop := ∀ m ∈ ns, m.declarationsIn .around = []

@[simp] theorem bindDeclared_append {ns ns' : List Node} :
    BindDeclared (ns ++ ns') ↔ BindDeclared ns ∧ BindDeclared ns' := List.forall_mem_append

@[simp] theorem bindDeclared_cons {n : Node} {ns : List Node} : BindDeclared (n :: ns) ↔
    declaredOf n.introduced = (n.declarationsIn .around).map Declaration.binding ∧
      BindDeclared ns := List.forall_mem_cons

@[simp] theorem declareNothing_append {ns ns' : List Node} :
    DeclareNothing (ns ++ ns') ↔ DeclareNothing ns ∧ DeclareNothing ns' := List.forall_mem_append

@[simp] theorem declareNothing_cons {n : Node} {ns : List Node} : DeclareNothing (n :: ns) ↔
    n.declarationsIn .around = [] ∧ DeclareNothing ns := List.forall_mem_cons

theorem BindDeclared.flatMap {ns : List Node} (each : BindDeclared ns) :
    declaredOf (ns.flatMap Node.introduced) =
      (ns.flatMap (·.declarationsIn .around)).map Declaration.binding := by
  unfold declaredOf
  rw [List.filter_flatMap, List.map_flatMap]
  exact List.flatMap_congr each

theorem DeclareNothing.flatMap {ns : List Node} (each : DeclareNothing ns) :
    ns.flatMap (·.declarationsIn .around) = [] := List.flatMap_eq_nil_iff.2 each

@[simp] theorem declaredOf_plain {name : String} {node : NodeId} {bs : List Binding}
    (plain : IsPlainName name) :
    declaredOf (.plain name node :: bs) = .plain name node :: declaredOf bs := by
  apply List.filter_cons_of_pos
  rw [Binding.isSignature, Bool.not_eq_true']
  exact eq_false_of_ne_true fun begins => not_isPlainName_of_isPrefixOf begins plain

@[simp] theorem declaredOf_unique (name : String) (node : NodeId) (taken : ScopeError)
    (bs : List Binding) :
    declaredOf (.unique name node taken :: bs) = .unique name node taken :: declaredOf bs := rfl

@[simp] theorem declaredOf_function (name signature : String) (node : NodeId) (taken : ScopeError)
    (bs : List Binding) : declaredOf (.function name signature node taken :: bs) =
      .function name signature node taken :: declaredOf bs := rfl

theorem isSignature_binding {d : Declaration} (plain : IsPlainName d.name.lexeme) :
    d.binding.isSignature = false := by
  obtain ⟨name, node, sort⟩ := d
  cases sort with
  | plain => exact eq_false_of_ne_true fun begins => not_isPlainName_of_isPrefixOf begins plain
  | ofClass | ofFunction => rfl

theorem declaredOf_map_binding {ds : List Declaration}
    (plain : ∀ d ∈ ds, IsPlainName d.name.lexeme) :
    declaredOf (ds.map Declaration.binding) = ds.map Declaration.binding := by
  refine List.filter_eq_self.2 ?_
  intro b made
  obtain ⟨d, there, rfl⟩ := List.mem_map.1 made
  rw [isSignature_binding (plain d there)]
  rfl

theorem parameterBindings_eq (ns : List Node) :
    parameterBindings ns = (ns.filterMap Node.parameter?).map Declaration.binding := by
  induction ns with
  | nil => rfl
  | cons n ns ih =>
    obtain ⟨id, span, form⟩ := n
    cases form with
    | generic name | parameter name => exact congrArg (Binding.plain name.lexeme id :: ·) ih
    | _ => exact ih

theorem importBindings_eq (id : NodeId) (span : Span) (path : List Token) (rename : Option Token)
    (exposed : List Node) : importBindings id path rename exposed =
      (Node.declarations ⟨id, span, .importDecl path rename exposed⟩ .around).map
        Declaration.binding := by
  cases rename with
  | some name => rfl
  | none =>
    have one (m : Node) : listedBinding? m = m.listed?.map Declaration.binding := by
      rw [listedBinding?, Node.listed?, Option.map_map]
      rfl
    by_cases empty : exposed.isEmpty
    · simp [importBindings, Node.declarations, empty, Declaration.binding]
    · simp [importBindings, Node.declarations, empty, List.map_filterMap, ← one]

theorem declarationsIn_of_constructor {n : Node} {params body : List Node}
    (form : n.form = .constructor params body) : n.declarationsIn .around = [] := by
  obtain ⟨id, span, form'⟩ := n
  obtain rfl : form' = _ := form
  rw [Node.declarationsIn_eq, Node.standing, Node.placed, standing_inRegion]
  rfl

theorem makes_constructorSteps {region : Region} (other : region ≠ .own) (generics ns : List Node) :
    (constructorSteps .own generics ns).flatMap (ScopeStep.makes region) = [] := by
  unfold constructorSteps
  rw [List.flatMap_assoc, List.flatMap_eq_nil_iff]
  intro n _
  rw [List.flatMap_append, makes_enterAll, makes_visitAll, if_neg other.symm, if_neg other.symm]
  rfl

theorem isSignature_constructor (generics params : List Node) (node : NodeId) :
    (Binding.plain (Signature.ofConstructor generics params) node).isSignature = true := by
  simp [Binding.isSignature, Signature.ofConstructor, Signature.text]

/-- Constructors are bound under signatures and make no other bindings around them. -/
theorem declaredOf_constructors {generics ns : List Node} (each : BindDeclared ns)
    (building : ∀ m ∈ ns, ∃ params body, m.form = .constructor params body) :
    declaredOf ((constructorSteps .own generics ns).flatMap (ScopeStep.makes Region.own)) = [] := by
  induction ns with
  | nil => rfl
  | cons n ns ih =>
    rw [bindDeclared_cons] at each
    obtain ⟨⟨params, body, form⟩, building⟩ := List.forall_mem_cons.1 building
    have signature : declaredOf (constructorBindings generics n) = [] := by
      rw [constructorBindings, form]
      apply List.filter_cons_of_neg
      rw [isSignature_constructor]
      exact Bool.false_ne_true
    have nothing : declaredOf n.introduced = [] := by
      rw [each.1, declarationsIn_of_constructor form]
      rfl
    have others := ih each.2 building
    unfold constructorSteps at others ⊢
    rw [List.flatMap_cons, List.flatMap_append, declaredOf_append, others, List.flatMap_append,
      makes_enterAll, makes_visitAll]
    simp [signature, nothing]

/-- The constructors of a class and the members of its two sides stand in the order of the text. -/
theorem sections_of_arranges {name : Token}
    {generics bases constructors statics instances members : List Node}
    (sides : (Form.classDecl name generics bases constructors statics instances).KeepsSides)
    (arranged : (Form.classDecl name generics bases constructors statics instances).Arranges
      (generics ++ bases ++ members)) :
    constructors = members.filter (Parser.Section.ofMember · = .constructors) ∧
      statics = members.filter (Parser.Section.ofMember · = .statics) ∧
        instances = members.filter (Parser.Section.ofMember · = .instances) := by
  generalize same : generics ++ bases ++ members = all at arranged
  cases arranged with
  | fields =>
    obtain rfl := List.append_cancel_left same
    obtain ⟨building, static, own⟩ := sides
    have first : ∀ m ∈ constructors, Parser.Section.ofMember m = .constructors := by
      intro m there
      obtain ⟨params, body, form⟩ := building m there
      rw [Parser.Section.ofMember, form]
    have second : ∀ m ∈ statics, Parser.Section.ofMember m = .statics := by
      intro m there
      obtain ⟨value, form⟩ := static m there
      rw [Parser.Section.ofMember, form]
    have third : ∀ m ∈ instances, Parser.Section.ofMember m = .instances := by
      intro m there
      obtain ⟨value, form⟩ := own m there
      rw [Parser.Section.ofMember, form]
    have none {part other : Parser.Section} {ms : List Node} (differs : other ≠ part)
        (each : ∀ m ∈ ms, Parser.Section.ofMember m = other) :
        ms.filter (Parser.Section.ofMember · = part) = [] := by
      simp only [List.filter_eq_nil_iff, decide_eq_true_eq]
      intro m there
      rw [each m there]
      exact differs
    have all {part : Parser.Section} {ms : List Node}
        (each : ∀ m ∈ ms, Parser.Section.ofMember m = part) :
        ms.filter (Parser.Section.ofMember · = part) = ms := by
      simpa only [List.filter_eq_self, decide_eq_true_eq] using each
    simp only [List.filter_append]
    refine ⟨?_, ?_, ?_⟩
    · rw [all first, none (by decide) second, none (by decide) third, List.append_nil,
        List.append_nil]
    · rw [none (by decide) first, all second, none (by decide) third, List.nil_append,
        List.append_nil]
    · rw [none (by decide) first, none (by decide) second, all third]
      rfl
  | members _ _ _ members =>
    obtain rfl := List.append_cancel_left same
    exact ⟨rfl, rfl, rfl⟩

theorem Region.ofMember_eq (m : Node) : Region.ofMember m =
    match Parser.Section.ofMember m with
    | .statics => .statics
    | .constructors | .instances => .own := by
  unfold Region.ofMember Parser.Section.ofMember
  cases m.form with
  | classMember isStatic => cases isStatic <;> rfl
  | _ => rfl

theorem declarationsIn_of_section {m : Node}
    (belongs : Parser.Section.ofMember m = .constructors) : m.declarationsIn .around = [] := by
  unfold Parser.Section.ofMember at belongs
  split at belongs
  · next form => exact declarationsIn_of_constructor form
  · cases belongs
  · cases belongs

/-- Of the members that stand with the instances the constructors declare nothing. -/
theorem declarationsIn_members (members : List Node) :
    (members.filter (Region.ofMember · = .own)).flatMap (·.declarationsIn .around) =
      (members.filter (Parser.Section.ofMember · = .instances)).flatMap
        (·.declarationsIn .around) := by
  induction members with
  | nil => rfl
  | cons m members ih =>
    have region := Region.ofMember_eq m
    cases belongs : Parser.Section.ofMember m with
    | constructors =>
      rw [belongs] at region
      simp [region, belongs, declarationsIn_of_section belongs, ih]
    | statics | instances =>
      rw [belongs] at region
      simp [region, belongs, ih]

theorem filter_ofMember_statics (members : List Node) :
    members.filter (Region.ofMember · = .statics) =
      members.filter (Parser.Section.ofMember · = .statics) := by
  apply List.filter_congr
  intro m _
  rw [Region.ofMember_eq]
  cases Parser.Section.ofMember m <;> rfl

@[simp] theorem standing_inMemberRegions (region : Region) (members : List Node) :
    ((inMemberRegions members).filter (·.1 = region)).map (·.2) =
      members.filter (Region.ofMember · = region) := by
  unfold inMemberRegions
  rw [List.filter_map, List.map_map]
  exact List.map_id _

section Regions

variable {id : NodeId} {span : Span} {region : Region}

theorem declaredOf_classDecl {name : Token}
    {generics bases constructors statics instances : List Node}
    (below : BindDeclared (constructors ++ statics ++ instances))
    (details : DeclareNothing (generics ++ bases))
    (sides : (Form.classDecl name generics bases constructors statics instances).KeepsSides)
    (arranged : (Form.classDecl name generics bases constructors statics instances).Arranges
      (generics ++ bases ++ inSourceOrder Node.start (constructors ++ statics ++ instances)))
    (plain : ∀ d ∈ Node.declarations
      ⟨id, span, .classDecl name generics bases constructors statics instances⟩ region,
        IsPlainName d.name.lexeme) :
    let n : Node := ⟨id, span, .classDecl name generics bases constructors statics instances⟩
    declaredOf (n.bindingsIn region) = (n.declarationsIn region).map Declaration.binding := by
  intro n
  rw [bindDeclared_append, bindDeclared_append] at below
  rw [declareNothing_append] at details
  obtain ⟨-, static, own⟩ := sections_of_arranges sides arranged
  have stands : n.standing region = (if .own = region then generics ++ bases else []) ++
      (inSourceOrder Node.start (constructors ++ statics ++ instances)).filter
        (Region.ofMember · = region) := by
    simp only [n, Node.standing, Node.placed, List.filter_append, List.map_append,
      standing_inRegion, standing_inMemberRegions]
    split <;> rfl
  rw [Node.declarationsIn_eq, stands]
  generalize inSourceOrder Node.start (constructors ++ statics ++ instances) = members at static own
  cases region with
  | around =>
    have none : members.filter (Region.ofMember · = .around) = [] := by
      simp only [List.filter_eq_nil_iff, decide_eq_true_eq]
      intro m _
      rw [Region.ofMember_eq]
      cases Parser.Section.ofMember m <;> decide
    rw [none]
    simp [n, Node.bindingsIn, Node.plan, Node.steps, Regions.names, makes_visitAll, makes_enterAll,
      makes_constructorSteps, Node.declarations, ScopeStep.makes, Declaration.binding]
  | own =>
    have building := @declaredOf_constructors generics _ below.1.1 sides.1
    have parameters :
        declaredOf ((generics.filterMap Node.parameter?).map Declaration.binding) = _ :=
      declaredOf_map_binding plain
    rw [if_pos rfl, List.flatMap_append, declarationsIn_members, ← own]
    simp [n, Node.bindingsIn, Node.plan, Node.steps, Regions.names, makes_visitAll, makes_enterAll,
      building, Node.declarations, ScopeStep.makes, parameterBindings_eq, parameters,
      details.1.flatMap, details.2.flatMap, below.2.flatMap]
  | statics =>
    rw [filter_ofMember_statics, ← static]
    simp [n, Node.bindingsIn, Node.plan, Node.steps, Regions.names, makes_visitAll, makes_enterAll,
      makes_constructorSteps, Node.declarations, ScopeStep.makes, below.1.2.flatMap]

theorem declaredOf_functionDecl {name : Token} {generics params : List Node} {result : Option Node}
    {body : Option (List Node)} (below : BindDeclared (body.getD []))
    (details : DeclareNothing (generics ++ params ++ result.toList))
    (plain : ∀ d ∈ Node.declarations ⟨id, span, .functionDecl name generics params result body⟩
      region, IsPlainName d.name.lexeme) :
    let n : Node := ⟨id, span, .functionDecl name generics params result body⟩
    declaredOf (n.bindingsIn region) = (n.declarationsIn region).map Declaration.binding := by
  intro n
  rw [declareNothing_append, declareNothing_append] at details
  have bindings : n.bindingsIn region = (n.declarations region).map Declaration.binding ++
      if .own = region then (body.getD []).flatMap Node.introduced else [] := by
    cases region <;>
      simp [n, Node.bindingsIn, Node.plan, Node.steps, Regions.names, openOwn, Node.declarations,
        ScopeStep.makes, parameterBindings_eq, Declaration.binding]
  rw [bindings, declaredOf_append, declaredOf_map_binding plain, Node.declarationsIn_eq,
    List.map_append]
  congr 1
  by_cases own : .own = region
  · simp [n, own, Node.standing, Node.placed, Node.children, Form.parts, below.flatMap,
      details.1.1.flatMap, details.1.2.flatMap, details.2.flatMap]
  · simp [n, own, Node.standing, Node.placed]

end Regions

/-- If the nodes below a node bind what they declare, so does the node. -/
theorem declaredOf_of_below {n : Node} {region : Region} (below : BindDeclared n.form.parts)
    (details : DeclareNothing n.form.details) (sides : n.form.KeepsSides)
    (arranged : n.form.Arranges n.children)
    (plain : ∀ d ∈ n.declarations region, IsPlainName d.name.lexeme) :
    declaredOf (n.bindingsIn region) = (n.declarationsIn region).map Declaration.binding := by
  obtain ⟨id, span, form⟩ := n
  cases form with
  | classDecl name generics bases constructors statics instances =>
    exact declaredOf_classDecl (bindDeclared_append.1 below).2 details sides arranged plain
  | functionDecl name generics params result body =>
    exact declaredOf_functionDecl (bindDeclared_append.1 below).2 details plain
  | importDecl path rename exposed =>
    have own := declaredOf_map_binding plain
    rw [Node.declarationsIn_eq]
    simp only [Form.details] at details
    cases region <;>
      simp [Node.bindingsIn, Node.plan, Node.steps, Regions.names, Node.standing, Node.placed,
        Node.children, Form.parts, details.flatMap, importBindings_eq id span, own]
    all_goals rfl
  | constructor params body =>
    have own := declaredOf_map_binding plain
    simp [Form.parts, Form.details] at below details
    rw [Node.declarationsIn_eq]
    cases region <;>
      simp [Node.declarations] at own <;>
      simp [Node.bindingsIn, Node.plan, Node.steps, Regions.names, openOwn, Node.standing,
        Node.placed, Node.children, Form.parts, Node.declarations, ScopeStep.makes,
        parameterBindings_eq, own, below.2.flatMap, details.flatMap]
  | _ =>
    simp [Form.parts, Form.details] at below details
    rw [Node.declarationsIn_eq]
    cases region <;>
      simp [Node.declarations] at plain <;>
      simp [Node.bindingsIn, Node.plan, Node.steps, Regions.names, openOwn, Node.standing,
        Node.placed, Node.children, Form.parts, Node.declarations, ScopeStep.makes,
        Declaration.binding, below, details, BindDeclared.flatMap, DeclareNothing.flatMap, plain]

/-- The members of classes stand in the order of the text, and names are no signatures. -/
structure Node.IsOrderly (program : Node) : Prop where
  arranged : ∀ n ∈ program.descendants, n.form.Arranges n.children
  plain : ∀ n ∈ program.descendants, ∀ name, n.declaredName? = some name →
    IsPlainName name.lexeme

theorem Node.IsOrderly.of_mem_descendants {program n : Node} (orderly : program.IsOrderly)
    (below : n ∈ program.descendants) : n.IsOrderly := by
  have part := Node.descendants_sublist below
  refine ⟨?_, ?_⟩
  · intro m member
    exact orderly.arranged m (part.subset member)
  · intro m member
    exact orderly.plain m (part.subset member)

namespace Node

/-- A declaration names what its node declares, which is the node itself or a part of it. -/
theorem of_mem_declarations {n : Node} {region : Region} {d : Declaration}
    (there : d ∈ n.declarations region) :
    d.node ∈ n.descendants ∧ d.node.declaredName? = some d.name := by
  have parameters {ns : List Node} (parts : ∀ m ∈ ns, m ∈ n.form.parts)
      (there : d ∈ ns.filterMap parameter?) :
      d.node ∈ n.descendants ∧ d.node.declaredName? = some d.name := by
    obtain ⟨m, member, made⟩ := List.mem_filterMap.1 there
    obtain ⟨rfl, named⟩ := of_parameter? made
    have below := mem_children.2 (parts d.node member)
    exact ⟨mem_descendants_of_child below d.node.mem_descendants_self, named⟩
  obtain ⟨id, span, form⟩ := n
  have self := mem_descendants_self ⟨id, span, form⟩
  cases form with
  | variableDecl | forEach | catchClause =>
    cases region <;> simp [declarations] at there
    subst there
    exact ⟨self, rfl⟩
  | functionDecl name generics params result body =>
    cases region <;> simp [declarations, - List.mem_filterMap] at there
    · subst there
      exact ⟨self, rfl⟩
    · rcases there with there | there
      · exact parameters (by simp +contextual [Form.parts]) there
      · exact parameters (by simp +contextual [Form.parts]) there
  | classDecl name generics =>
    cases region <;> simp [declarations, - List.mem_filterMap] at there
    · subst there
      exact ⟨self, rfl⟩
    · exact parameters (by simp +contextual [Form.parts]) there
  | constructor params =>
    cases region <;> simp [declarations, - List.mem_filterMap] at there
    exact parameters (by simp +contextual [Form.parts]) there
  | importDecl path rename exposed =>
    cases region with
    | around =>
      cases rename with
      | some name =>
        obtain rfl := List.mem_singleton.1 there
        exact ⟨self, rfl⟩
      | none =>
        by_cases empty : exposed.isEmpty
        · simp only [declarations, empty, if_true, List.mem_map, Option.mem_toList] at there
          obtain ⟨last, is, rfl⟩ := there
          exact ⟨self, is⟩
        · simp only [declarations, empty, Bool.false_eq_true, if_false, List.mem_filterMap] at there
          obtain ⟨m, member, made⟩ := there
          obtain ⟨rfl, named⟩ := of_listed? made
          have below : d.node ∈ children ⟨id, span, .importDecl path none exposed⟩ := member
          exact ⟨mem_descendants_of_child below d.node.mem_descendants_self, named⟩
    | own | statics => cases there
  | _ => cases region <;> cases there

theorem of_mem_declarationsIn {n : Node} {region : Region} {d : Declaration}
    (there : d ∈ n.declarationsIn region) :
    d.node ∈ n.descendants ∧ d.node.declaredName? = some d.name := by
  induction n using induction_on_children generalizing region with
  | step n ih =>
    rw [declarationsIn_eq] at there
    rcases List.mem_append.1 there with own | there
    · exact of_mem_declarations own
    · obtain ⟨child, stands, there⟩ := List.mem_flatMap.1 there
      have below := mem_children_of_mem_standing stands
      obtain ⟨under, named⟩ := ih child below there
      exact ⟨mem_descendants_of_child below under, named⟩

/-- The bindings made in a region are those of what is declared there, but for signatures of
    constructors. -/
theorem declaredOf_bindingsIn {n : Node} (regular : n.IsRegular) (orderly : n.IsOrderly)
    (region : Region) :
    declaredOf (n.bindingsIn region) = (n.declarationsIn region).map Declaration.binding := by
  induction n using induction_on_children generalizing region with
  | step n ih =>
    have self := n.mem_descendants_self
    refine declaredOf_of_below ?_ ?_ (regular.sides n self) (orderly.arranged n self) ?_
    · intro m there
      have below := mem_children.2 there
      have under := mem_descendants_of_child below m.mem_descendants_self
      rw [introduced_eq]
      exact ih m below (regular.of_mem_descendants under) (orderly.of_mem_descendants under) _
    · intro m there
      exact declarationsIn_of_isDetail (regular.details n self m there)
    · intro d there
      obtain ⟨under, named⟩ := of_mem_declarations there
      exact orderly.plain d.node under d.name named

end Node

end TekLang
