import TekLang.Token
import TekLang.Node.Kind

/-!
# Syntax trees

A node is a construct of a program: an identity, the span of text it covers and its form, which says
what it is and which nodes and tokens it is made of. A declared name is a token, never a node, so
every node of the form `Form.identifier` is the use of a name.

The parts of a node are its direct constituents in the order of the form's fields; its children are
the same nodes in the order in which they stand in the text.

Nodes and what is asked of them are those of `ast`. A `Form` is what `NodeData` tells of a node,
with cases that differ by one part put together: a variable with and without a value, a function
with and without a body, an if for its value and for its effect.
-/

namespace TekLang

/-- Nodes are numbered in the order in which they are made (`ast::NodeId`, a number of 32 bits; here
    it has no bound). -/
abbrev NodeId := Nat

/-- Whether an if or an else has a value or is there for its effect. -/
inductive Use
  | value | effect
deriving DecidableEq, Inhabited, Repr

/-- The sorts of literal. -/
inductive Literal
  | number | string | boolean
deriving DecidableEq, Inhabited, Repr

/-- The statements that go on at another place. -/
inductive Jump
  | breakLoop | continueLoop | fallthrough
deriving DecidableEq, Inhabited, Repr

/-- What a node is and what it is made of, where the nodes that it is made of are an `α` each
    (`nodes::NodeData`). -/
inductive Form (α : Type)
  | variableDecl (name : Token) (type : Option α) (value : Option α)
  /-- A function; one without a body is a signature only. -/
  | functionDecl (name : Token) (generics params : List α) (result : Option α)
      (body : Option (List α))
  | classDecl (name : Token) (generics bases constructors statics instances : List α)
  | importDecl (path : List Token) (rename : Option Token) (exposed : List α)
  | assignment (target value : α)
  | wrapped (inner : α)
  | unary (operator : Token) (operand : α)
  | binary (left : α) (operator : Token) (right : α)
  | call (callee : α) (generics args : List α)
  | index (object subscript : α)
  | member (object : α) (property : Token)
  | new (type : α) (args : List α)
  | instanceOf (value type : α)
  | async (inner : α)
  | array (elements : List α)
  | conditional (use : Use) (condition : α) (body : List α) (otherwise : Option α)
  | elseBranch (use : Use) (body : List α)
  | identifier (name : Token)
  | this
  | super
  | literal (sort : Literal) (token : Token)
  | switch (subject : α) (cases : List α)
  | forEach (name : Token) (type : Option α) (iterable : α) (body : List α)
  | repeatTimes (amount : α) (body : List α)
  | whileLoop (condition : α) (body : List α)
  | tryCatch (body : List α) (handler : α)
  | throwStmt (value : α)
  | returnStmt (value : Option α)
  | yieldStmt (value : α)
  | expressionStmt (value : α)
  | jumpStmt (jump : Jump)
  | program (body : List α)
  /-- A type such as `a.b.List<T>[][]`, with `depth` pairs of brackets. -/
  | typeRef (path : List Token) (generics : List α) (depth : Nat)
  | parameter (name : Token) (type : α)
  | generic (name : Token) (bound : Option α)
  /-- A declaration in the body of a class, or whatever else stands there. -/
  | classMember (isStatic : Bool) (value : α)
  | constructor (params body : List α)
  /-- A name that an import brings in, perhaps under another name. -/
  | importedName (name : Token) (rename : Option Token)
  | switchCase (conditions body : List α)
  | catchClause (name : Token) (type : Option α) (body : List α)

namespace Form

variable {α β : Type}

/-- The kind of node that has the form (`NodeData::kind`). -/
def kind : Form α → NodeKind
  | variableDecl _ _ none => .emptyVariableDecl
  | variableDecl _ _ (some _) => .variableDecl
  | functionDecl _ _ _ _ none => .emptyFunctionDecl
  | functionDecl _ _ _ _ (some _) => .functionDecl
  | classDecl .. => .classDecl
  | importDecl .. => .importDecl
  | assignment .. => .assignmentExpr
  | wrapped .. => .wrappedExpr
  | unary .. => .unaryExpr
  | binary .. => .binaryExpr
  | call .. => .callExpr
  | index .. => .indexExpr
  | member .. => .memberExpr
  | new .. => .newExpr
  | instanceOf .. => .instanceofExpr
  | async .. => .asyncExpr
  | array .. => .arrayExpr
  | conditional .value .. => .ifExpr
  | conditional .effect .. => .ifStmt
  | elseBranch .value _ => .elseExpr
  | elseBranch .effect _ => .elseStmt
  | identifier _ => .identifier
  | this => .this
  | super => .super
  | literal .number _ => .numberLiteral
  | literal .string _ => .stringLiteral
  | literal .boolean _ => .booleanLiteral
  | switch .. => .switchStmt
  | forEach .. => .forStmt
  | repeatTimes .. => .repeatStmt
  | whileLoop .. => .whileStmt
  | tryCatch .. => .tryStmt
  | throwStmt _ => .throwStmt
  | returnStmt _ => .returnStmt
  | yieldStmt _ => .yieldStmt
  | expressionStmt _ => .expressionStmt
  | jumpStmt .breakLoop => .breakStmt
  | jumpStmt .continueLoop => .continueStmt
  | jumpStmt .fallthrough => .fallthroughStmt
  | program _ => .program
  | typeRef .. => .variableType
  | parameter .. => .parameter
  | generic .. => .genericParam
  | classMember .. => .classProp
  | constructor .. => .constructor
  | importedName .. => .importExpose
  | switchCase .. => .switchCase
  | catchClause .. => .catchClause

/-- The name that a construct declares. A renamed import declares the new name
    (`Node::declared_name`). -/
def declaredName? : Form α → Option Token
  | variableDecl name _ _ | functionDecl name .. | classDecl name .. | forEach name ..
  | parameter name _ | generic name _ | catchClause name .. => some name
  | importDecl path rename _ => rename.or path.getLast?
  | importedName name rename => some (rename.getD name)
  | _ => none

/-- The direct constituents in the order of the fields. -/
def parts : Form α → List α
  | variableDecl _ type value => type.toList ++ value.toList
  | functionDecl _ generics params result body =>
    generics ++ params ++ result.toList ++ body.getD []
  | classDecl _ generics bases constructors statics instances =>
    generics ++ bases ++ (constructors ++ statics ++ instances)
  | importDecl _ _ exposed => exposed
  | assignment target value => [target, value]
  | wrapped inner | async inner => [inner]
  | unary _ operand => [operand]
  | binary left _ right => [left, right]
  | call callee generics args => callee :: (generics ++ args)
  | index object subscript => [object, subscript]
  | member object _ => [object]
  | new type args => type :: args
  | instanceOf value type => [value, type]
  | array elements => elements
  | conditional _ condition body otherwise => condition :: (body ++ otherwise.toList)
  | elseBranch _ body | program body => body
  | switch subject cases => subject :: cases
  | forEach _ type iterable body => type.toList ++ iterable :: body
  | repeatTimes header body | whileLoop header body => header :: body
  | tryCatch body handler => body ++ [handler]
  | throwStmt value | yieldStmt value | expressionStmt value => [value]
  | returnStmt value => value.toList
  | typeRef _ generics _ => generics
  | parameter _ type => [type]
  | generic _ bound => bound.toList
  | classMember _ value => [value]
  | constructor params body => params ++ body
  | switchCase conditions body => conditions ++ body
  | catchClause _ type body => type.toList ++ body
  | identifier _ | this | super | literal .. | jumpStmt _ | importedName .. => []

end Form

/-- A construct of a program (`ast::Node`). -/
structure Node where
  id : NodeId
  span : Span
  form : Form Node

namespace Node

instance : Inhabited Node := ⟨⟨0, default, .this⟩⟩

/-- What a node stands for. -/
def kind (n : Node) : NodeKind := n.form.kind

/-- What sort of construct a node is. -/
def category (n : Node) : Category := n.kind.category

/-- The name that a node declares, if it declares one. -/
def declaredName? (n : Node) : Option Token := n.form.declaredName?

/-- Where a node starts. -/
def start (n : Node) : Position := n.span.start

/-- The direct constituents in the order of the text. Only the members of a class have to be put
    into that order, for they are kept in three lists (`Node::children`). -/
def children (n : Node) : List Node :=
  match n.form with
  | .classDecl _ generics bases constructors statics instances =>
    generics ++ bases ++ inSourceOrder start (constructors ++ statics ++ instances)
  | form => form.parts

theorem children_perm (n : Node) : n.children.Perm n.form.parts := by
  unfold children
  split
  · next form =>
    rw [form, Form.parts]
    exact (inSourceOrder_perm ..).append_left _
  · exact .refl _

@[simp] theorem mem_children {n child : Node} : child ∈ n.children ↔ child ∈ n.form.parts :=
  n.children_perm.mem_iff

end Node

end TekLang
