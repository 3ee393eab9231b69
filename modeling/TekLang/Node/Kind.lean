/-!
# Kinds of nodes

What a node of a syntax tree stands for. Every kind belongs to one category, and `NodeKind.all`
lists the kinds category by category, in the order of `NodeKind::ALL`.
-/

namespace TekLang

/-- The four sorts of construct. -/
inductive Category
  | declaration | expression | statement | other
deriving DecidableEq, Inhabited, Repr

/-- What a node stands for (`nodes::NodeKind`). -/
inductive NodeKind
  | emptyVariableDecl | variableDecl | emptyFunctionDecl | functionDecl | classDecl | importDecl
  | assignmentExpr | wrappedExpr | unaryExpr | binaryExpr | callExpr | indexExpr | memberExpr
  | newExpr | instanceofExpr | asyncExpr | arrayExpr | ifExpr | elseExpr
  | identifier | this | super | numberLiteral | stringLiteral | booleanLiteral
  | ifStmt | elseStmt | switchStmt | forStmt | repeatStmt | whileStmt | tryStmt
  | throwStmt | returnStmt | yieldStmt | expressionStmt | breakStmt | continueStmt
  | fallthroughStmt
  | program | variableType | parameter | genericParam | classProp | constructor
  | importExpose | switchCase | catchClause
deriving DecidableEq, Inhabited, Repr

namespace NodeKind

/-- The name of a kind, as messages spell it. -/
def name : NodeKind → String
  | emptyVariableDecl => "EmptyVariableDecl"
  | variableDecl => "VariableDecl"
  | emptyFunctionDecl => "EmptyFunctionDecl"
  | functionDecl => "FunctionDecl"
  | classDecl => "ClassDecl"
  | importDecl => "ImportDecl"
  | assignmentExpr => "AssignmentExpr"
  | wrappedExpr => "WrappedExpr"
  | unaryExpr => "UnaryExpr"
  | binaryExpr => "BinaryExpr"
  | callExpr => "CallExpr"
  | indexExpr => "IndexExpr"
  | memberExpr => "MemberExpr"
  | newExpr => "NewExpr"
  | instanceofExpr => "InstanceofExpr"
  | asyncExpr => "AsyncExpr"
  | arrayExpr => "ArrayExpr"
  | ifExpr => "IfExpr"
  | elseExpr => "ElseExpr"
  | identifier => "Identifier"
  | this => "This"
  | super => "Super"
  | numberLiteral => "NumberLiteral"
  | stringLiteral => "StringLiteral"
  | booleanLiteral => "BooleanLiteral"
  | ifStmt => "IfStmt"
  | elseStmt => "ElseStmt"
  | switchStmt => "SwitchStmt"
  | forStmt => "ForStmt"
  | repeatStmt => "RepeatStmt"
  | whileStmt => "WhileStmt"
  | tryStmt => "TryStmt"
  | throwStmt => "ThrowStmt"
  | returnStmt => "ReturnStmt"
  | yieldStmt => "YieldStmt"
  | expressionStmt => "ExpressionStmt"
  | breakStmt => "BreakStmt"
  | continueStmt => "ContinueStmt"
  | fallthroughStmt => "FallthroughStmt"
  | program => "Program"
  | variableType => "VariableType"
  | parameter => "Parameter"
  | genericParam => "GenericParam"
  | classProp => "ClassProp"
  | constructor => "Constructor"
  | importExpose => "ImportExpose"
  | switchCase => "SwitchCase"
  | catchClause => "CatchClause"

/-- The kinds of declarations. -/
def declarations : List NodeKind :=
  [emptyVariableDecl, variableDecl, emptyFunctionDecl, functionDecl, classDecl, importDecl]

/-- The kinds of expressions. The else branch of an if expression counts among them. -/
def expressions : List NodeKind :=
  [assignmentExpr, wrappedExpr, unaryExpr, binaryExpr, callExpr, indexExpr, memberExpr, newExpr,
    instanceofExpr, asyncExpr, arrayExpr, ifExpr, elseExpr, identifier, this, super,
    numberLiteral, stringLiteral, booleanLiteral]

/-- The kinds of statements. The else branch of an if statement counts among them. -/
def statements : List NodeKind :=
  [ifStmt, elseStmt, switchStmt, forStmt, repeatStmt, whileStmt, tryStmt, throwStmt, returnStmt,
    yieldStmt, expressionStmt, breakStmt, continueStmt, fallthroughStmt]

/-- The kinds that are none of the above: the root and the parts of other constructs. -/
def others : List NodeKind :=
  [program, variableType, parameter, genericParam, classProp, constructor, importExpose,
    switchCase, catchClause]

/-- Every kind, by category. -/
def all : List NodeKind := declarations ++ expressions ++ statements ++ others

/-- The place of a kind in `all`. -/
def index (kind : NodeKind) : Nat := all.idxOf kind

/-- What sort of construct a kind is (`NodeKind::is_declaration`, `is_expression`, `is_statement`
    and `is_other`, of which one holds of each kind). -/
def category (kind : NodeKind) : Category :=
  if kind ∈ declarations then .declaration
  else if kind ∈ expressions then .expression
  else if kind ∈ statements then .statement
  else .other

theorem mem_all (kind : NodeKind) : kind ∈ all := by
  cases kind <;> decide

end NodeKind

end TekLang
