import TekLang.Grammar.Type
import TekLang.Precedence

/-!
# Expressions

An expression is an operand and then, as long as the next token binds tightly enough, operators that
make it the left part of a larger expression. Expressions and declarations hold each other, so both
are read with the help of a reader `inner` for the constructs within: `Parser::declaration` for
`inner .declaration`, and `Parser::parse_precedence` at `level` for `inner (.expression level)`. The
readers of operands and operators are those of `parser::expressions`, and `operand` and `extend` are
the two columns of the table `rules::rule`.
-/

namespace TekLang

/-- What can be read at a cursor: a declaration or statement, or an expression all of whose
    operators bind at least as tightly as `level`. -/
inductive Construct
  | declaration
  | expression (level : Precedence)
deriving DecidableEq, Inhabited, Repr

namespace Parser

variable {σ : Type} [TokenStream σ]

/-- An expression of any kind (`Parser::expression`). -/
def expression (inner : Construct → ParserOf σ Node) : ParserOf σ Node :=
  inner (.expression .assignment)

/-- Expressions up to the bracket `close` (`Parser::expression_list`). -/
def arguments (inner : Construct → ParserOf σ Node) (close : TokenKind) : ParserOf σ (List Node) :=
  commaSequence close .anywhere (unlessAtEnd (.token close) (expression inner))

/-- The else branch behind its keyword. It may be another if, which `chained` reads
    (`expressions::if_expr` and `statements::if_stmt`). -/
def elseBranch (inner : Construct → ParserOf σ Node) (use : Use) (chained : Construct) :
    ParserOf σ Node := do
  let start := (TokenStream.last (← get)).span
  let body ←
    if (← nextKind) = .kwIf then
      let nested ← inner chained
      pure [nested]
    else
      block (inner .declaration) (.word .kwElse)
  node (← spanFrom start) (.elseBranch use body)

/-- The rest of an if whose keyword stands at `start` (`expressions::if_expr` and
    `statements::if_stmt`, which differ in `use` and `chained` only). -/
def conditional (inner : Construct → ParserOf σ Node) (use : Use) (chained : Construct)
    (start : Span) : ParserOf σ Node := do
  let condition ← expression inner
  let body ← block (inner .declaration) .ifCondition
  let otherwise ← optional .kwElse (elseBranch inner use chained)
  node (← spanFrom start) (.conditional use condition body otherwise)

/-- The rest of an expression in parentheses, the first of which stands at `start`
    (`expressions::wrapped`). -/
def wrapped (inner : Construct → ParserOf σ Node) (start : Span) : ParserOf σ Node := do
  let content ← expression inner
  let _ ← expect .rightParen (.after .expression)
  node (← spanFrom start) (.wrapped content)

/-- The rest of an array whose bracket stands at `start` (`expressions::array`). -/
def array (inner : Construct → ParserOf σ Node) (start : Span) : ParserOf σ Node := do
  let elements ← arguments inner .rightBracket
  node (← spanFrom start) (.array elements)

/-- The operand of a sign or of `not` (`expressions::unary`). -/
def unary (inner : Construct → ParserOf σ Node) (operator : Token) : ParserOf σ Node := do
  let operand ← inner (.expression .unary)
  node (operator.span.through operand.span) (.unary operator operand)

/-- The operand of an `async` that stands at `start` (`expressions::async_expr`). -/
def async (inner : Construct → ParserOf σ Node) (start : Span) : ParserOf σ Node := do
  let operand ← inner (.expression .unary)
  node (start.through operand.span) (.async operand)

/-- The type and the arguments of a `new` that stands at `start` (`expressions::new_expr`). -/
def newObject (inner : Construct → ParserOf σ Node) (start : Span) : ParserOf σ Node := do
  let type ← typeRef
  let args ← optionalList .leftParen (arguments inner .rightParen)
  node (← spanFrom start) (.new type args)

/-- The operand that begins with `token`, which is read already (the first half of
    `Parser::parse_precedence`, with the prefix rules and `expressions::literal`). -/
def operand (inner : Construct → ParserOf σ Node) (token : Token) : ParserOf σ Node :=
  match token.kind with
  | .identifier => node token.span (.identifier token)
  | .number => node token.span (.literal .number token)
  | .string => node token.span (.literal .string token)
  | .boolean => node token.span (.literal .boolean token)
  | .kwThis => node token.span .this
  | .kwSuper => node token.span .super
  | .leftParen => wrapped inner token.span
  | .leftBracket => array inner token.span
  | .minus | .kwNot => unary inner token
  | .kwNew => newObject inner token.span
  | .kwAsync => async inner token.span
  | .kwIf => conditional inner .value (.expression .primary) token.span
  | .kwAbstract => failAt token.span (.reservedWord token.lexeme)
  | _ => failAt token.span (.missing .construct .anywhere)

/-- The expressions that a call with type arguments may call. -/
def isGenericCallee : Form Node → Bool
  | .identifier _ | .member .. => true
  | _ => false

/-- The expressions that an assignment may give a value to. -/
def isAssignable : Form Node → Bool
  | .identifier _ | .member .. | .index .. => true
  | _ => false

/-- The right operand of an operator between two operands (`expressions::binary`). -/
def binary (inner : Construct → ParserOf σ Node) (left : Node) (operator : Token) :
    ParserOf σ Node := do
  let right ← inner (.expression (.ofRightOperand operator.kind))
  node (left.span.through right.span) (.binary left operator right)

/-- The rest of a call (`expressions::call`). -/
def call (inner : Construct → ParserOf σ Node) (callee : Node) (generics : List Node) :
    ParserOf σ Node := do
  let args ← arguments inner .rightParen
  node (← spanFrom callee.span) (.call callee generics args)

/-- What follows a less-than sign: type arguments of a call, if what comes next looks like that, and
    otherwise the right operand of a comparison (`expressions::less`). -/
def lessThan (inner : Construct → ParserOf σ Node) (left : Node) (operator : Token) :
    ParserOf σ Node := do
  if isGenericCallee left.form && TokenStream.startsGenericCall (← get) then
    let generics ← genericArguments typeRef
    let _ ← expect .leftParen (.after .genericArguments)
    call inner left generics
  else
    binary inner left operator

/-- The value of an assignment (`expressions::assignment`). -/
def assignment (inner : Construct → ParserOf σ Node) (target : Node) (operator : Token) :
    ParserOf σ Node := do
  if !isAssignable target.form then
    failAt target.span .assignmentTarget
  let value ← inner (.expression (.ofRightOperand operator.kind))
  node (target.span.through value.span) (.assignment target value)

/-- The rest of a subscript (`expressions::index`). -/
def index (inner : Construct → ParserOf σ Node) (object : Node) : ParserOf σ Node := do
  let subscript ← expression inner
  let _ ← expect .rightBracket (.after .index)
  node (← spanFrom object.span) (.index object subscript)

/-- The name of a member (`expressions::member`). -/
def member (object : Node) : ParserOf σ Node := do
  let kind ← nextKind
  if kind = .identifier ∨ kind = .kwSuper then
    let property ← advance
    node (object.span.through property.span) (.member object property)
  else
    fail (.missing .identifierOrSuper (.after (.word .dot)))

/-- The type that a value is compared with (`expressions::instanceof`). -/
def instanceOf (value : Node) : ParserOf σ Node := do
  let type ← typeRef
  node (value.span.through type.span) (.instanceOf value type)

/-- The expression that `operator`, which is read already, makes of the operand in front of it (the
    infix rules). -/
def extend (inner : Construct → ParserOf σ Node) (left : Node) (operator : Token) :
    ParserOf σ Node :=
  match operator.kind with
  | .leftParen => call inner left []
  | .leftBracket => index inner left
  | .dot => member left
  | .less => lessThan inner left operator
  | .kwInstanceof => instanceOf left
  | .equal => assignment inner left operator
  | _ => binary inner left operator

/-- Extends an expression by operators as long as they bind at least as tightly as `level` (the loop
    of `Parser::parse_precedence`). -/
def operators (inner : Construct → ParserOf σ Node) (level : Precedence) :
    List Token → Node → ParserOf σ Node
  | [], left => return left
  | _ :: rounds, left => do
    if level ≤ .ofOperator (← nextKind) then
      let operator ← advance
      operators inner level rounds (← extend inner left operator)
    else
      return left

/-- An expression whose operators bind at least as tightly as `level`
    (`Parser::parse_precedence`). -/
def expressionWith (inner : Construct → ParserOf σ Node) (level : Precedence) :
    ParserOf σ Node := do
  if ← atEnd then
    fail (.missing .expression .anywhere)
  let first ← operand inner (← advance)
  operators inner level (TokenStream.rounds (← get)) first

end Parser

end TekLang
