import TekLang.Proofs.Lint.Reports

/-!
# Where control statements may stand

What is around a node is told by the way out of it: the constructs that are left one after another,
each with the field that the node stands in. A control statement is reported unless it meets a place
that it belongs in before anything that it may not leave (`lint_control_statements`).

The rule itself looks at the constructs alone. For a return and a yield the fields are told all the
same: a statement in an if with a value stands in its body or its else, or in another such if, and
all that a function has besides its body are types and parameters. A break in the header of a loop
counts as one inside the loop, and a fallthrough in a condition of a case as one inside the case.
-/

namespace TekLang

/-- The way from a node out to the top of its tree: the constructs that it stands in, the innermost
    first, each with the field in question. -/
inductive Way (top : Node) : Node → List (Node × Field) → Prop
  | top : Way top top []
  | inside {n m : Node} {field : Field} {around : List (Node × Field)} (way : Way top n around)
    (stands : (field, m) ∈ n.form.fields) : Way top m ((n, field) :: around)

/-! ## Statements stand in bodies -/

section Fields

variable {n m : Node} {field : Field}

theorem isDetail_of_admits (detail : field.phrase.isDetail = true)
    (admits : field.admits m.kind = true) : m.form.isDetail = true := by
  obtain ⟨id, span, form⟩ := m
  cases field with
  | type | generic | parameter | importedName =>
    have kind : form.kind = _ := of_decide_eq_true admits
    cases form with
    | variableDecl _ _ value => cases value <;> cases kind
    | functionDecl _ _ _ _ body => cases body <;> cases kind
    | conditional use | elseBranch use => cases use <;> cases kind
    | literal sort => cases sort <;> cases kind
    | jumpStmt jump => cases jump <;> cases kind
    | _ => first | rfl | cases kind
  | _ => cases detail

/-- Details have nothing but types in their fields. -/
theorem field_of_isDetail (detail : n.form.isDetail = true) (stands : (field, m) ∈ n.form.fields) :
    field = .type := by
  obtain ⟨id, span, form⟩ := n
  cases form with
  | typeRef | parameter | generic => exact (Form.mem_inField.1 stands).1
  | importedName => cases stands
  | _ => cases detail

/-- Only an if with a value has statements in it, of all expressions. -/
theorem field_of_isExpression (expression : n.kind.isExpression = true)
    (stands : (field, m) ∈ n.form.fields) : field = .expression ∨ field = .type ∨
      n.kind = .ifExpr ∧ (field = .statement ∨ field = .otherwise .value) := by
  obtain ⟨id, span, form⟩ := n
  cases form with
  | conditional use =>
    cases use with
    | effect => cases expression
    | value =>
      simp only [Form.fields, List.mem_append, Form.mem_inField] at stands
      rcases stands with ⟨rfl, -⟩ | ⟨rfl, -⟩ | ⟨rfl, -⟩
      · exact .inl rfl
      · exact .inr (.inr ⟨rfl, .inl rfl⟩)
      · exact .inr (.inr ⟨rfl, .inr rfl⟩)
  | elseBranch use => cases use <;> cases expression
  | jumpStmt jump => cases jump <;> cases expression
  | variableDecl _ _ value => cases value <;> cases expression
  | functionDecl _ _ _ _ body => cases body <;> cases expression
  | identifier | this | super | literal => cases stands
  | assignment | wrapped | unary | binary | index | member | async | array =>
    exact .inl (Form.mem_inField.1 stands).1
  | call | new | instanceOf =>
    simp only [Form.fields, List.mem_append, Form.mem_inField] at stands
    grind
  | _ => cases expression

/-- A function has details besides the statements of its body. -/
theorem field_of_function (function : n.kind = .functionDecl ∨ n.kind = .constructor)
    (stands : (field, m) ∈ n.form.fields) : field = .statement ∨ field.phrase.isDetail = true := by
  obtain ⟨id, span, form⟩ := n
  cases form with
  | functionDecl | constructor =>
    simp only [Form.fields, List.mem_append, Form.mem_inField] at stands
    grind [Field.phrase, Phrase.isDetail]
  | variableDecl _ _ value => rcases function with kind | kind <;> cases value <;> cases kind
  | conditional use | elseBranch use =>
    rcases function with kind | kind <;> cases use <;> cases kind
  | literal sort => rcases function with kind | kind <;> cases sort <;> cases kind
  | jumpStmt jump => rcases function with kind | kind <;> cases jump <;> cases kind
  | _ => rcases function with kind | kind <;> cases kind

end Fields

namespace Way

variable {top n owner : Node} {field : Field} {around inner outer : List (Node × Field)}

theorem mem_descendants (way : Way top n around) : n ∈ top.descendants := by
  induction way with
  | top => exact top.mem_descendants_self
  | inside _ stands ih =>
    have part := Node.mem_children_iff_field.2 ⟨_, stands⟩
    have below := Node.mem_descendants_of_child part (Node.mem_descendants_self _)
    exact (Node.descendants_sublist ih).subset below

/-- What is inside a detail is a detail. -/
theorem isDetail (grammatical : top.IsGrammatical) (detail : field.phrase.isDetail = true)
    (way : Way top n (inner ++ (owner, field) :: outer)) : n.form.isDetail = true := by
  induction inner generalizing n with
  | nil =>
    cases way with
    | inside way stands =>
      exact isDetail_of_admits detail (grammatical.admits _ way.mem_descendants _ _ stands)
  | cons place inner ih =>
    cases way with
    | inside way stands =>
      obtain rfl := field_of_isDetail (ih way) stands
      exact isDetail_of_admits rfl (grammatical.admits _ way.mem_descendants _ _ stands)

/-- Inside an expression there are expressions and details, but for what stands in the body or the
    else of an if with a value. -/
theorem of_expression (grammatical : top.IsGrammatical)
    (way : Way top n (inner ++ (owner, .expression) :: outer)) :
    n.kind.isExpression = true ∨ n.form.isDetail = true ∨
      ∃ place ∈ inner, place.1.kind = .ifExpr ∧
        (place.2 = .statement ∨ place.2 = .otherwise .value) := by
  induction inner generalizing n with
  | nil =>
    cases way with
    | inside way stands => exact .inl (grammatical.admits _ way.mem_descendants _ _ stands)
  | cons place inner ih =>
    cases way with
    | @inside m _ field _ way stands =>
      have admits := grammatical.admits _ way.mem_descendants _ _ stands
      rcases ih way with expression | detail | ⟨place, there, owns⟩
      · rcases field_of_isExpression expression stands with rfl | rfl | owns
        · exact .inl admits
        · exact .inr (.inl (isDetail_of_admits rfl admits))
        · exact .inr (.inr ⟨_, List.mem_cons_self, owns⟩)
      · obtain rfl := field_of_isDetail detail stands
        exact .inr (.inl (isDetail_of_admits rfl admits))
      · exact .inr (.inr ⟨place, .tail _ there, owns⟩)

theorem exists_stands (way : Way top n (inner ++ (owner, field) :: outer)) :
    ∃ m, (field, m) ∈ owner.form.fields := by
  induction inner generalizing n with
  | nil =>
    cases way with
    | inside _ stands => exact ⟨n, stands⟩
  | cons place inner ih =>
    cases way with
    | inside way _ => exact ih way

/-- Whatever is in a function and no detail of it is in its body. -/
theorem statement_of_function (grammatical : top.IsGrammatical)
    (way : Way top n (inner ++ (owner, field) :: outer)) (other : ¬ n.form.isDetail = true)
    (function : owner.kind = .functionDecl ∨ owner.kind = .constructor) : field = .statement := by
  obtain ⟨m, stands⟩ := way.exists_stands
  refine (field_of_function function stands).resolve_right fun detail => ?_
  exact other (way.isDetail grammatical detail)

/-- Whatever is in an if with a value and neither an expression nor a detail is in the body or the
    else of one, be it in the condition of that if. -/
theorem exists_body_of_ifExpr (grammatical : top.IsGrammatical)
    (way : Way top n (inner ++ (owner, field) :: outer)) (other : ¬ n.form.isDetail = true)
    (expressionless : ¬ n.kind.isExpression = true) (value : owner.kind = .ifExpr) :
    ∃ inner' owner' field' outer',
      inner ++ (owner, field) :: outer = inner' ++ (owner', field') :: outer' ∧
      owner'.kind = .ifExpr ∧ (field' = .statement ∨ field' = .otherwise .value) ∧
      inner' ⊆ inner := by
  obtain ⟨m, stands⟩ := way.exists_stands
  rcases field_of_isExpression (by rw [value]; rfl) stands with rfl | rfl | ⟨-, body⟩
  · rcases way.of_expression grammatical with expression | detail | ⟨place, there, inside, body⟩
    · exact absurd expression expressionless
    · exact absurd detail other
    · obtain ⟨front, behind, rfl⟩ := List.append_of_mem there
      exact ⟨front, place.1, place.2, behind ++ (owner, .expression) :: outer, by simp, inside,
        body,
        List.subset_append_left ..⟩
  · exact absurd (way.isDetail grammatical rfl) other
  · exact ⟨inner, owner, field, outer, rfl, value, body, List.Subset.refl _⟩

/-- A walk comes to a node by the way to it. -/
theorem entered (way : Way top n around) (tree : ScopeTree) (scope : ScopeId) : ∃ s,
    ⟨.enter, n, s, around.map (·.1)⟩ ∈ Walk.node tree [] scope top := by
  induction way with
  | top =>
    refine ⟨scope, ?_⟩
    rw [Walk.node_eq]
    exact List.mem_cons_self
  | @inside n m field around _ stands ih =>
    obtain ⟨s, entered⟩ := ih
    have part := Node.mem_children_iff_field.2 ⟨field, stands⟩
    rw [← n.map_snd_placed] at part
    obtain ⟨⟨region, _⟩, placed, rfl⟩ := List.mem_map.1 part
    exact ⟨_, Walk.entered_of_placed entered placed⟩

theorem of_path {parents : List Node} (path : Path top parents n) :
    ∃ around, Way top n around ∧ around.map (·.1) = parents := by
  induction path with
  | top => exact ⟨[], .top, rfl⟩
  | child _ below ih =>
    obtain ⟨around, way, same⟩ := ih
    obtain ⟨field, stands⟩ := Node.mem_children_iff_field.1 below
    exact ⟨_, way.inside stands, congrArg _ same⟩

end Way

namespace ControlPlacement

/-- Where a control statement belongs: the fields of constructs that it controls, and the constructs
    that it may not leave on the way there. -/
structure Domain where
  owns : NodeKind → Field → Bool
  closes : NodeKind → Bool

/-- Anywhere in the constructs, in the same function and the same class. -/
def Domain.anywhereIn (owners : List NodeKind) : Domain :=
  ⟨fun kind _ => kind ∈ owners, isBoundary⟩

/-- Where the control statements belong. -/
def domain? : NodeKind → Option Domain
  | .returnStmt =>
    some ⟨fun kind field => (kind = .functionDecl ∨ kind = .constructor) ∧ field = .statement,
      (· = .classDecl)⟩
  | .yieldStmt =>
    some ⟨fun kind field => kind = .ifExpr ∧ (field = .statement ∨ field = .otherwise .value),
      isBoundary⟩
  | .breakStmt | .continueStmt => some (.anywhereIn loops)
  | .fallthroughStmt => some (.anywhereIn [.switchCase])
  | _ => none

/-- On the way out a place that is owned comes before anything that closes the domain. -/
def Domain.Encloses (domain : Domain) (around : List (Node × Field)) : Prop :=
  ∃ inner owner field outer, around = inner ++ (owner, field) :: outer ∧
    domain.owns owner.kind field = true ∧ ∀ place ∈ inner, domain.closes place.1.kind = false

theorem isEnclosedBy_append {owners inner outer : List NodeKind} {owner : NodeKind}
    (owns : owner ∈ owners) (free : ∀ kind ∈ inner, isBoundary kind = true → kind ∈ owners) :
    isEnclosedBy owners (inner ++ owner :: outer) = true := by
  induction inner with
  | nil => exact if_pos owns
  | cons kind inner ih =>
    obtain ⟨first, others⟩ := List.forall_mem_cons.1 free
    rw [List.cons_append, isEnclosedBy]
    split_ifs with here boundary
    · rfl
    · exact absurd (first boundary) here
    · exact ih others

theorem exists_of_isEnclosedBy {owners kinds : List NodeKind}
    (encloses : isEnclosedBy owners kinds = true) : ∃ inner owner outer,
      kinds = inner ++ owner :: outer ∧ owner ∈ owners ∧
        ∀ kind ∈ inner, isBoundary kind = false := by
  induction kinds with
  | nil => cases encloses
  | cons kind kinds ih =>
    rw [isEnclosedBy] at encloses
    split_ifs at encloses with here boundary
    · exact ⟨[], kind, kinds, rfl, here, List.forall_mem_nil _⟩
    · obtain ⟨inner, owner, outer, rfl, owns, within⟩ := ih encloses
      have free : isBoundary kind = false := Bool.eq_false_iff.2 boundary
      exact ⟨kind :: inner, owner, outer, rfl, owns, List.forall_mem_cons.2 ⟨free, within⟩⟩

theorem Domain.Encloses.isEnclosedBy {domain : Domain} {owners : List NodeKind}
    {around : List (Node × Field)} (encloses : domain.Encloses around)
    (owns : ∀ kind field, domain.owns kind field = true → kind ∈ owners)
    (closes : ∀ kind, domain.closes kind = false → isBoundary kind = true → kind ∈ owners) :
    isEnclosedBy owners (around.map (·.1.kind)) = true := by
  obtain ⟨inner, owner, field, outer, rfl, owned, free⟩ := encloses
  rw [List.map_append, List.map_cons]
  refine isEnclosedBy_append (owns _ _ owned) (List.forall_mem_map.2 ?_)
  exact fun place there => closes place.1.kind (free place there)

theorem exists_owner {owners : List NodeKind} {around : List (Node × Field)}
    (encloses : isEnclosedBy owners (around.map (·.1.kind)) = true) :
    ∃ inner owner field outer, around = inner ++ (owner, field) :: outer ∧ owner.kind ∈ owners ∧
      ∀ place ∈ inner, isBoundary place.1.kind = false := by
  obtain ⟨kinds, _, _, same, owns, free⟩ := exists_of_isEnclosedBy encloses
  obtain ⟨inner, rest, rfl, rfl, behind⟩ := List.map_eq_append_iff.1 same
  obtain ⟨⟨owner, field⟩, outer, rfl, rfl, -⟩ := List.map_eq_cons_iff.1 behind
  exact ⟨inner, owner, field, outer, rfl, owns, List.forall_mem_map.1 free⟩

theorem anywhereIn_encloses_iff {around : List (Node × Field)} (owners : List NodeKind) :
    (Domain.anywhereIn owners).Encloses around ↔
      isEnclosedBy owners (around.map (·.1.kind)) = true := by
  constructor
  · intro encloses
    refine encloses.isEnclosedBy (fun _ _ => of_decide_eq_true) fun kind free boundary => ?_
    exact absurd (free.symm.trans boundary) Bool.false_ne_true
  · intro encloses
    obtain ⟨inner, owner, field, outer, same, owns, free⟩ := exists_owner encloses
    exact ⟨inner, owner, field, outer, same, decide_eq_true owns, free⟩

theorem domain?_of_isDetail {n : Node} (detail : n.form.isDetail = true) :
    domain? n.kind = none := by
  obtain ⟨id, span, form⟩ := n
  cases form with
  | typeRef | parameter | generic | importedName => rfl
  | _ => cases detail

theorem domain?_of_isExpression {kind : NodeKind} (expression : kind.isExpression = true) :
    domain? kind = none := by
  cases kind <;> first | rfl | cases expression

theorem domain?_eq_none_iff {kind : NodeKind} : domain? kind = none ↔ requirement? kind = none := by
  cases kind <;> simp [domain?, requirement?]

/-- The constructs around a statement tell the rule what the fields would tell it. -/
theorem encloses_iff {top n : Node} {around : List (Node × Field)} (grammatical : top.IsGrammatical)
    (way : Way top n around) {domain : Domain} (belongs : domain? n.kind = some domain)
    {r : Requirement} (requires : requirement? n.kind = some r) :
    domain.Encloses around ↔ isEnclosedBy r.owners (around.map (·.1.kind)) = true := by
  have noDetail (detail : n.form.isDetail = true) : False := by
    rw [domain?_of_isDetail detail] at belongs
    cases belongs
  have noExpression (expression : n.kind.isExpression = true) : False := by
    rw [domain?_of_isExpression expression] at belongs
    cases belongs
  cases kind : n.kind with
  | breakStmt | continueStmt | fallthroughStmt =>
    rw [kind] at belongs requires
    cases belongs
    cases requires
    exact anywhereIn_encloses_iff _
  | returnStmt =>
    rw [kind] at belongs requires
    cases belongs
    cases requires
    constructor
    · intro encloses
      refine encloses.isEnclosedBy ?_ ?_
      · intro kind field owns
        have owner := (of_decide_eq_true owns).1
        simpa using owner
      · intro kind free boundary
        cases kind <;> simp_all [isBoundary]
    · intro encloses
      obtain ⟨inner, owner, field, outer, rfl, owns, free⟩ := exists_owner encloses
      have function : owner.kind = .functionDecl ∨ owner.kind = .constructor := by simpa using owns
      have body := way.statement_of_function grammatical noDetail function
      refine ⟨inner, owner, field, outer, rfl, decide_eq_true ⟨function, body⟩, ?_⟩
      intro place there
      have other := free place there
      cases kind : place.1.kind <;> simp_all [isBoundary]
  | yieldStmt =>
    rw [kind] at belongs requires
    cases belongs
    cases requires
    constructor
    · intro encloses
      refine encloses.isEnclosedBy ?_ fun kind free boundary => ?_
      · intro kind field owns
        exact List.mem_singleton.2 (of_decide_eq_true owns).1
      · exact absurd (free.symm.trans boundary) Bool.false_ne_true
    · intro encloses
      obtain ⟨inner, owner, field, outer, rfl, owns, free⟩ := exists_owner encloses
      obtain ⟨front, place, part, behind, same, value, body, within⟩ :=
        way.exists_body_of_ifExpr grammatical noDetail noExpression (List.mem_singleton.1 owns)
      refine ⟨front, place, part, behind, same, decide_eq_true ⟨value, body⟩, ?_⟩
      exact fun p there => free p (within there)
  | _ =>
    rw [kind] at belongs
    cases belongs

/-- A control statement does not stand where it belongs. -/
def IsMisplaced (n : Node) (around : List (Node × Field)) : Prop :=
  ∃ domain, domain? n.kind = some domain ∧ ¬ domain.Encloses around

/-- What the author is told of a control statement that is out of place. -/
def complaint (n : Node) : Finding :=
  ⟨((requirement? n.kind).map (·.message)).getD "", n.span⟩

theorem check_of_way {top : Node} (grammatical : top.IsGrammatical) (site : Site)
    {around : List (Node × Field)} (way : Way top site.node around)
    (same : around.map (·.1) = site.parents) :
    IsMisplaced site.node around ∧ check site = [complaint site.node] ∨
      ¬ IsMisplaced site.node around ∧ check site = [] := by
  have kinds : site.parents.map (·.kind) = around.map (·.1.kind) := by
    rw [← same, List.map_map]
    rfl
  unfold check complaint
  rw [kinds]
  cases requires : requirement? site.node.kind with
  | none =>
    refine .inr ⟨?_, rfl⟩
    rintro ⟨domain, belongs, -⟩
    rw [domain?_eq_none_iff.2 requires] at belongs
    cases belongs
  | some r =>
    obtain ⟨domain, belongs⟩ : ∃ domain, domain? site.node.kind = some domain := by
      refine Option.ne_none_iff_exists'.1 fun none => ?_
      rw [domain?_eq_none_iff.1 none] at requires
      cases requires
    have encloses := encloses_iff grammatical way belongs requires
    by_cases enclosed : isEnclosedBy r.owners (around.map (·.1.kind)) = true
    · refine .inr ⟨?_, if_pos enclosed⟩
      rintro ⟨other, belongs', outside⟩
      cases belongs.symm.trans belongs'
      exact outside (encloses.2 enclosed)
    · exact .inl ⟨⟨domain, belongs, mt encloses.1 enclosed⟩, if_neg enclosed⟩

theorem flatMap_eq_map_filter {α β : Type} {f : α → List β} {g : α → β} {xs : List α}
    (answers : ∀ x ∈ xs, f x = [g x] ∨ f x = []) :
    xs.flatMap f = (xs.filter fun x => !(f x).isEmpty).map g := by
  induction xs with
  | nil => rfl
  | cons x xs ih =>
    obtain ⟨first, others⟩ := List.forall_mem_cons.1 answers
    rw [List.flatMap_cons, ih others]
    rcases first with one | none
    · simp [one]
    · simp [none]

/-- The control statements that are out of place are reported, each once, and nothing else is. -/
theorem lint_control_statements (tokens : List Token) {config : LintConfig}
    (enabled : config.disabled.contains rule.name = false) (tree : ScopeTree) :
    ∃ misplaced : List Node, misplaced.Sublist (parse tokens).program.descendants ∧
      misplaced.Nodup ∧
      (∀ n around, Way (parse tokens).program n around → (n ∈ misplaced ↔ IsMisplaced n around)) ∧
      (lint config (parse tokens).program tree).filter (·.source = rule.name) =
        inSourceOrder (·.span.start)
          (misplaced.map fun n => (complaint n).diagnostic rule.name) := by
  have grammatical := parse_isGrammatical tokens
  have distinct := (parse_isRegular tokens).distinct
  let entered := (walk (parse tokens).program tree).filter (·.phase = .enter)
  let found (v : Visit) : Bool := !(check (v.site tree)).isEmpty
  have answers (v : Visit) (there : v ∈ entered) : check (v.site tree) = [complaint v.node] ∨
      check (v.site tree) = [] := by
    have path := Walk.path_of_mem tree .top v (List.mem_of_mem_filter there)
    obtain ⟨around, way, same⟩ := Way.of_path path
    exact (check_of_way grammatical (v.site tree) way same).imp And.right And.right
  have nodes :
      ((entered.filter found).map (·.node)).Sublist (parse tokens).program.descendants := by
    rw [← Walk.entered_eq tree [] ScopeTree.root]
    exact List.filter_sublist.map _
  refine ⟨(entered.filter found).map (·.node), nodes, distinct.of_map.sublist nodes, ?_, ?_⟩
  · intro n around way
    obtain ⟨s, visits⟩ := way.entered tree ScopeTree.root
    have here : ⟨.enter, n, s, around.map (·.1)⟩ ∈ entered := List.mem_filter.2 ⟨visits, rfl⟩
    have only : n ∈ (entered.filter found).map (·.node) ↔
        found ⟨.enter, n, s, around.map (·.1)⟩ = true := by
      rw [List.mem_map]
      constructor
      · rintro ⟨v, there, rfl⟩
        obtain ⟨there, reported⟩ := List.mem_filter.1 there
        obtain ⟨visits', enters⟩ := List.mem_filter.1 there
        rwa [← Walk.eq_of_entered distinct visits' visits (of_decide_eq_true enters) rfl rfl]
      · exact fun reported => ⟨_, List.mem_filter.2 ⟨here, reported⟩, rfl⟩
    rw [only]
    rcases check_of_way grammatical (Visit.site ⟨.enter, n, s, around.map (·.1)⟩ tree) way rfl
      with ⟨misplaced, one⟩ | ⟨placed, none⟩
    · exact iff_of_true (by simp only [found, one]; rfl) misplaced
    · exact iff_of_false (by simp only [found, none]; decide) placed
  · have there : rule ∈ config.rules := by simp [LintConfig.rules]
    rw [filter_lint there enabled]
    have all : entered.flatMap (fun v => rule.check (v.site tree)) =
        (entered.filter found).map fun v => complaint v.node := flatMap_eq_map_filter answers
    rw [← List.map_flatMap, all, List.map_map, List.map_map]
    rfl

/-- The break is outside of any loop, or inside. -/
theorem lint_control_statements_outside :
    ∃ (tree : ScopeTree) (misplaced : List Node),
      buildScopes (parse (lex "while a\n  break\nbreak\n").tokens).program = .ok tree ∧
      misplaced.length = 1 ∧
      ∀ n around, Way (parse (lex "while a\n  break\nbreak\n").tokens).program n around →
        (n ∈ misplaced ↔ IsMisplaced n around) := by
  have test : (buildScopes (parse (lex "while a\n  break\nbreak\n").tokens).program).toOption.any
      (fun tree => decide (((lint .standard (parse (lex "while a\n  break\nbreak\n").tokens).program
        tree).filter (·.source = rule.name)).length = 1)) = true := by
    decide +kernel
  obtain ⟨tree, built, one⟩ := exists_of_any test
  have enabled : LintConfig.standard.disabled.contains rule.name = false := by decide
  obtain ⟨misplaced, -, -, told, reports⟩ := lint_control_statements _ enabled tree
  have one := of_decide_eq_true one
  rw [reports, (inSourceOrder_perm ..).length_eq, List.length_map] at one
  exact ⟨tree, misplaced, built, one, told⟩

/-! ## Headers -/

/-- In the bodies of the constructs, and not in their headers. -/
def Domain.inBodyOf (owners : List NodeKind) : Domain :=
  ⟨fun kind field => kind ∈ owners ∧ field = .statement, isBoundary⟩

/-- A control statement of the text stands in no body of the constructs and is not reported. -/
def IsAcceptedOutside (source : String) (kind : NodeKind) (owners : List NodeKind) : Prop :=
  ∃ tree n around, buildScopes (parse (lex source).tokens).program = .ok tree ∧
    Way (parse (lex source).tokens).program n around ∧ n.kind = kind ∧
    (¬ (Domain.inBodyOf owners).Encloses around) ∧
    (complaint n).diagnostic rule.name ∉ lint .standard (parse (lex source).tokens).program tree

/-- What the fields lead to one after another, with the way out. -/
def inFields (around : List (Node × Field)) : List Field → Node → List (Node × List (Node × Field))
  | [], n => [(n, around)]
  | field :: fields, n => (n.form.fields.filter (·.1 = field)).flatMap fun (_, m) =>
    inFields ((n, field) :: around) fields m

theorem way_of_mem_inFields {top n m : Node} {around way : List (Node × Field)}
    {fields : List Field}
    (above : Way top n around) (there : (m, way) ∈ inFields around fields n) : Way top m way := by
  induction fields generalizing n around with
  | nil =>
    cases List.mem_singleton.1 there
    exact above
  | cons field fields ih =>
    obtain ⟨⟨_, child⟩, part, there⟩ := List.mem_flatMap.1 there
    obtain ⟨stands, same⟩ := List.mem_filter.1 part
    obtain rfl := of_decide_eq_true same
    exact ih (above.inside stands) there

theorem isAcceptedOutside_of_test {source : String} {kind : NodeKind} {owners : List NodeKind}
    (fields : List Field) (test : (buildScopes (parse (lex source).tokens).program).toOption.any
      (fun tree => (inFields [] fields (parse (lex source).tokens).program).any fun (n, around) =>
        decide (n.kind = kind ∧
          (∀ place ∈ around, place.1.kind ∈ owners → place.2 ≠ .statement) ∧
          (complaint n).diagnostic rule.name ∉
            lint .standard (parse (lex source).tokens).program tree)) = true) :
    IsAcceptedOutside source kind owners := by
  obtain ⟨tree, built, test⟩ := exists_of_any test
  obtain ⟨⟨n, around⟩, there, test⟩ := List.any_eq_true.1 test
  obtain ⟨is, outside, silent⟩ := of_decide_eq_true test
  refine ⟨tree, n, around, built, way_of_mem_inFields .top there, is, ?_, silent⟩
  rintro ⟨inner, owner, field, outer, rfl, owns, -⟩
  obtain ⟨owns, body⟩ := of_decide_eq_true owns
  exact outside (owner, field) (by simp) owns body

/-- A break in the condition of a loop is accepted, and a fallthrough in a condition of a case,
    though they stand in the body of neither. -/
theorem accepted_in_headers :
    IsAcceptedOutside "while if a\n  break\nelse\n  yield 1\n== 1\n  x\n" .breakStmt loops ∧
      IsAcceptedOutside
        "switch x\n  case if a\n    fallthrough\n  else\n    yield 1\n  == 1\n    x\n"
        .fallthroughStmt [.switchCase] := by
  constructor
  · exact isAcceptedOutside_of_test [.statement, .expression, .expression, .statement]
      (by decide +kernel)
  · exact isAcceptedOutside_of_test [.statement, .switchCase, .expression, .expression, .statement]
      (by decide +kernel)

end ControlPlacement

end TekLang
