import TekLang.Proofs.Grammar.Conformance

/-!
# Trees as the later passes assume them

The passes behind the parser look at the form of a node and take for granted what stands in its
fields. Every tree that is parsed keeps to that, whether or not there were faults in the text: each
field holds only what belongs there, a node that is part of a construct stands nowhere else, and no
list is empty that must have something in it.
-/

namespace TekLang

namespace NodeKind

/-- Whether a construct of the kind can stand in a body. -/
def isStatement (kind : NodeKind) : Bool :=
  (kind.category = .declaration ∨ kind.category = .statement) ∧ kind ≠ .elseStmt

/-- Whether a construct of the kind can stand where a value is needed. -/
def isExpression (kind : NodeKind) : Bool := kind.category = .expression ∧ kind ≠ .elseExpr

/-- The field that a part of a construct belongs in. Anything else can stand by itself. -/
def home? : NodeKind → Option Field
  | variableType => some .type
  | genericParam => some .generic
  | parameter => some .parameter
  | importExpose => some .importedName
  | constructor => some .constructor
  | classProp => some .member
  | switchCase => some .switchCase
  | catchClause => some .handler
  | elseExpr => some (.otherwise .value)
  | elseStmt => some (.otherwise .effect)
  | _ => none

end NodeKind

/-- What may stand in a field. -/
def Field.admits (field : Field) (kind : NodeKind) : Bool :=
  match field with
  | type => kind = .variableType
  | generic => kind = .genericParam
  | parameter => kind = .parameter
  | importedName => kind = .importExpose
  | expression => kind.isExpression
  | statement | branch .effect => kind.isStatement
  | branch .value => kind.isStatement || kind = .ifExpr
  | constructor => kind = .constructor
  | member => kind = .classProp
  | switchCase => kind = .switchCase
  | handler => kind = .catchClause
  | otherwise .value => kind = .elseExpr
  | otherwise .effect => kind = .elseStmt

/-- What a form keeps to besides the sorts of its fields. -/
def Form.IsSound : Form Node → Prop
  | importDecl path rename exposed => path ≠ [] ∧ (rename = none ∨ exposed = [])
  | typeRef path _ _ => path ≠ []
  | switchCase conditions _ => conditions ≠ []
  | assignment target _ =>
    target.kind = .identifier ∨ target.kind = .memberExpr ∨ target.kind = .indexExpr
  | call callee generics _ =>
    generics = [] ∨ callee.kind = .identifier ∨ callee.kind = .memberExpr
  | elseBranch use body =>
    (∀ m ∈ body, m.kind.isStatement = true) ∨
      use = .value ∧ ∃ nested, body = [nested] ∧ nested.kind = .ifExpr
  | classDecl _ _ _ _ statics instances =>
    (∀ m ∈ statics, ∃ value, m.form = .classMember true value) ∧
      ∀ m ∈ instances, ∃ value, m.form = .classMember false value
  | _ => True

/-- How the nodes of a tree stand in each other. -/
structure Node.IsGrammatical (program : Node) : Prop where
  root : program.kind = .program
  /-- There is no program inside a program. -/
  alone : ∀ n ∈ program.descendants, n.kind = .program → n = program
  /-- Every constituent is of a sort that belongs where it stands. -/
  admits : ∀ n ∈ program.descendants, ∀ field m, (field, m) ∈ n.form.fields →
    field.admits m.kind = true
  /-- A part of a construct stands nowhere else. -/
  parts : ∀ n ∈ program.descendants, ∀ field m, (field, m) ∈ n.form.fields →
    ∀ home, m.kind.home? = some home → field = home
  sound : ∀ n ∈ program.descendants, n.form.IsSound

namespace NodeKind

theorem home?_of_isStatement {kind : NodeKind} (stands : kind.isStatement = true) :
    kind.home? = none := by
  revert stands
  cases kind <;> decide

theorem home?_of_isExpression {kind : NodeKind} (stands : kind.isExpression = true) :
    kind.home? = none := by
  revert stands
  cases kind <;> decide

end NodeKind

theorem Field.eq_of_admits {field home : Field} {kind : NodeKind}
    (admits : field.admits kind = true) (part : kind.home? = some home) : field = home := by
  cases field with
  | expression =>
    rw [NodeKind.home?_of_isExpression admits] at part
    cases part
  | statement =>
    rw [NodeKind.home?_of_isStatement admits] at part
    cases part
  | branch use =>
    have own : kind.home? = none := by
      cases use with
      | effect => exact NodeKind.home?_of_isStatement admits
      | value =>
        rcases Bool.or_eq_true_iff.1 admits with statement | isIf
        · exact NodeKind.home?_of_isStatement statement
        · rw [of_decide_eq_true isIf]
          rfl
    rw [own] at part
    cases part
  | otherwise use =>
    cases use
    all_goals
      obtain rfl := of_decide_eq_true admits
      cases part
      rfl
  | _ =>
    obtain rfl := of_decide_eq_true admits
    cases part
    rfl

namespace Form

variable {form : Form Node} {m : Node} {field : Field}

theorem kind_of_isIf {use : Use} (isIf : form.IsIf use) :
    (Field.branch use).admits form.kind = true := by
  obtain ⟨condition, body, otherwise, rfl⟩ := isIf
  cases use <;> rfl

theorem kind_of_isElse {use : Use} (isElse : form.IsElse use) :
    (Field.otherwise use).admits form.kind = true := by
  obtain ⟨body, rfl⟩ := isElse
  cases use <;> rfl

/-- Constructors and other members of a class are kept apart. -/
theorem admits_of_keepsSides (sides : form.KeepsSides) (side : field.phrase = .member)
    (there : (field, m) ∈ form.fields) : field.admits m.kind = true := by
  cases form with
  | classDecl name generics bases constructors statics instances =>
    obtain ⟨building, static, own⟩ := sides
    simp only [fields, List.mem_append, mem_inField] at there
    rcases there with (⟨rfl, _⟩ | ⟨rfl, _⟩) | (⟨rfl, member⟩ | ⟨rfl, member⟩) | ⟨rfl, member⟩
    · cases side
    · cases side
    · obtain ⟨params, body, form⟩ := building m member
      rw [Node.kind, form]
      rfl
    · obtain ⟨value, form⟩ := static m member
      rw [Node.kind, form]
      rfl
    · obtain ⟨value, form⟩ := own m member
      rw [Node.kind, form]
      rfl
  | importedName | identifier | literal | this | super | jumpStmt => cases there
  | _ =>
    simp only [fields, List.mem_append, mem_inField] at there
    grind [Field.phrase]

/-- A branch of an if stands in an if. -/
theorem exists_conditional (branch : field.phrase = .otherwise) (there : (field, m) ∈ form.fields) :
    ∃ use condition body, field = .otherwise use ∧
      form = .conditional use condition body (some m) := by
  cases form with
  | conditional use condition body otherwise =>
    simp only [fields, List.mem_append, mem_inField, Option.mem_toList] at there
    rcases there with ⟨rfl, _⟩ | ⟨rfl, _⟩ | ⟨rfl, rfl⟩
    · cases branch
    · cases branch
    · exact ⟨use, condition, body, rfl, rfl⟩
  | importedName | identifier | literal | this | super | jumpStmt => cases there
  | _ =>
    simp only [fields, List.mem_append, mem_inField] at there
    grind [Field.phrase]

end Form

namespace Production

variable {phrase : Phrase} {items : List Item} {first last : Token} {span : Span} {form : Form Node}

theorem isStatement (made : Production .declaration items first last span form) :
    form.kind.isStatement = true := by
  generalize same : Phrase.declaration = phrase at made
  cases made with
  | conditional use =>
    cases use with
    | value => cases same
    | effect => rfl
  | @variableDecl _ _ _ value => cases value <;> rfl
  | functionDecl body => cases body <;> rfl
  | jumpStmt jump => cases jump <;> rfl
  | _ => first | rfl | cases same

theorem isExpression (made : Production .expression items first last span form) :
    form.kind.isExpression = true := by
  generalize same : Phrase.expression = phrase at made
  cases made with
  | conditional use =>
    cases use with
    | value => rfl
    | effect => cases same
  | literal sort => cases sort <;> rfl
  | _ => first | rfl | cases same

/-- What is read as a phrase of some sort can stand in the fields for such phrases. The members of a
    class and the branches of an if have more than one field. -/
theorem admits {field : Field} (made : Production field.phrase items first last span form)
    (member : field.phrase ≠ .member) (otherwise : field.phrase ≠ .otherwise) :
    field.admits form.kind = true := by
  cases field with
  | expression => exact made.isExpression
  | statement => exact made.isStatement
  | branch use =>
    have statement := made.isStatement
    cases use with
    | effect => exact statement
    | value => exact Bool.or_eq_true_iff.2 (.inl statement)
  | constructor | member => exact absurd rfl member
  | otherwise => exact absurd rfl otherwise
  | _ =>
    generalize same : Field.phrase _ = phrase at made
    cases made with
    | conditional use => cases use <;> cases same
    | _ => first | rfl | cases same

theorem ne_program (made : Production phrase items first last span form) :
    form.kind ≠ .program := by
  cases made with
  | conditional use | elseBranch use | elseIf use => cases use <;> nofun
  | @variableDecl _ _ _ value => cases value <;> nofun
  | functionDecl body => cases body <;> nofun
  | jumpStmt jump => cases jump <;> nofun
  | literal sort => cases sort <;> nofun
  | _ => nofun

/-- The branch of an if has the use of that if. -/
theorem isElse_of_conditional {use : Use} {condition : Node} {body : List Node} {m : Node}
    (made : Production phrase items first last span (.conditional use condition body (some m))) :
    m.form.IsElse use := by
  cases made with
  | conditional use kind indented otherwise matched => exact matched m List.mem_cons_self

end Production

namespace Conforms

variable {phrase : Phrase} {n : Node}

theorem isStatement (conforms : Conforms .declaration n) : n.kind.isStatement = true := by
  cases conforms with
  | mk made => exact made.isStatement

theorem ne_program (conforms : Conforms phrase n) : n.kind ≠ .program := by
  cases conforms with
  | mk made => exact made.ne_program

theorem admits (conforms : Conforms phrase n) {field : Field} {m : Node}
    (there : (field, m) ∈ n.form.fields) : field.admits m.kind = true := by
  by_cases side : field.phrase = .member
  · exact Form.admits_of_keepsSides conforms.keepsSides side there
  cases conforms with
  | mk made each =>
    by_cases branch : field.phrase = .otherwise
    · obtain ⟨use, condition, body, rfl, form⟩ := Form.exists_conditional branch there
      rw [form] at made
      exact Form.kind_of_isElse made.isElse_of_conditional
    · rcases made.mem_fields there with member | ⟨use, rfl, isIf, _⟩
      · cases each _ _ member with
        | mk inner => exact inner.admits side branch
      · exact Form.kind_of_isIf isIf

theorem isSound (conforms : Conforms phrase n) : n.form.IsSound := by
  have sides := conforms.keepsSides
  obtain ⟨id, span, form⟩ := n
  cases conforms with
  | mk made each =>
    cases made with
    | importDecl kind named path renamed listed either =>
      refine ⟨nofun, either.imp_right ?_⟩
      rintro rfl
      cases listed
      rfl
    | typeRef | switchCase => exact nofun
    | @assignment target _ _ _ _ kind assignable =>
      obtain ⟨id, span, form⟩ := target
      cases form with
      | identifier => exact .inl rfl
      | member => exact .inr (.inl rfl)
      | index => exact .inr (.inr rfl)
      | _ => cases assignable
    | @call callee generics angles left args items _ _ arguments opens content callable =>
      refine callable.imp_right ?_
      intro callable
      obtain ⟨id, span, form⟩ := callee
      cases form with
      | identifier => exact .inl rfl
      | member => exact .inr rfl
      | _ => cases callable
    | elseBranch use kind indented =>
      left
      intro m member
      exact (each _ _ (.tail _ (indented.mem_part member))).isStatement
    | @elseIf word nested _ _ use kind chained =>
      obtain ⟨condition, body, otherwise, form⟩ := chained
      cases use with
      | value => exact .inr ⟨rfl, nested, rfl, by rw [Node.kind, form]; rfl⟩
      | effect =>
        left
        intro m member
        obtain rfl := List.mem_singleton.1 member
        rw [Node.kind, form]
        rfl
    | classDecl => exact sides.2
    | _ => trivial

end Conforms

/-- Every tree that is parsed is as the later passes assume it. -/
theorem parse_isGrammatical (tokens : List Token) : (parse tokens).program.IsGrammatical := by
  obtain ⟨id, span, body, tree, conforms⟩ := parse_conforms tokens
  have admits : ∀ n ∈ (parse tokens).program.descendants, ∀ field m,
      (field, m) ∈ n.form.fields → field.admits m.kind = true := by
    intro n member field m there
    rcases eq_or_conforms_of_mem_descendants member with rfl | ⟨phrase, conforming⟩
    · rw [tree] at there
      obtain ⟨rfl, stands⟩ := Form.mem_inField.1 there
      exact (conforms m stands).isStatement
    · exact conforming.admits there
  refine ⟨?_, ?_, admits, ?_, ?_⟩
  · rw [tree]
    rfl
  · intro n member isProgram
    refine (eq_or_conforms_of_mem_descendants member).resolve_right ?_
    rintro ⟨phrase, conforming⟩
    exact conforming.ne_program isProgram
  · intro n member field m there home part
    exact Field.eq_of_admits (admits n member field m there) part
  · intro n member
    rcases eq_or_conforms_of_mem_descendants member with rfl | ⟨phrase, conforming⟩
    · rw [tree]
      exact trivial
    · exact conforming.isSound

end TekLang
