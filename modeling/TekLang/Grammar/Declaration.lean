import TekLang.Grammar.Expression

/-!
# Declarations and statements

Every construct but a bare expression is known by its first word. The readers here begin behind that
word, whose span they are given. They are those of `parser::declarations` and `parser::statements`,
and `declarationWith` picks among them as `rules::declaration_rule` and `rules::statement_rule` do.
-/

namespace TekLang.Parser

variable {σ : Type} [TokenStream σ]

/-- A variable and perhaps its value (`declarations::var_decl`). -/
def variableDecl (inner : Construct → ParserOf σ Node) (start : Span) : ParserOf σ Node := do
  let (name, type) ← typedName .kwVar
  let value ← optional .equal (expression inner)
  let span ← spanFrom start
  endStatement .variableDeclaration
  node span (.variableDecl name type value)

/-- A function. Without a block behind it, it is a signature that ends like a statement
    (`declarations::function_decl`). -/
def functionDecl (inner : Construct → ParserOf σ Node) (start : Span) : ParserOf σ Node := do
  let name ← expectName (.after (.word .kwFunction))
  let generics ← genericParameters
  let _ ← expect .leftParen (.after .functionName)
  let params ← parameters
  let result ← optional .colon typeRef
  if TokenStream.startsBlock (← get) then
    let body ← block (inner .declaration) .functionSignature
    node (← spanFrom start) (.functionDecl name generics params result (some body))
  else
    let span ← spanFrom start
    endStatement .functionSignature
    node span (.functionDecl name generics params result none)

/-- A constructor whose keyword stands at `start` (`declarations::constructor`). -/
def constructor (inner : Construct → ParserOf σ Node) (start : Span) : ParserOf σ Node := do
  let _ ← expect .leftParen (.after (.word .kwNew))
  let params ← parameters
  let body ←
    if TokenStream.startsBlock (← get) then
      block (inner .declaration) .constructorSignature
    else do
      endStatement .constructorSignature
      pure []
  node (← spanFrom start) (.constructor params body)

/-- A constructor or another member of a class. -/
def classMember (inner : Construct → ParserOf σ Node) : ParserOf σ Node := do
  if TokenStream.startsConstructor (← get) then
    let new ← advance
    constructor inner new.span
  else
    let start := (← upcoming).span
    let isStatic ← accept .kwStatic
    let value ← inner .declaration
    node (start.through value.span) (.classMember isStatic value)

/-- The parts that the members of a class fall into. -/
inductive Section
  | constructors | statics | instances
deriving DecidableEq, Inhabited, Repr

/-- Where a member belongs. -/
def Section.ofMember (member : Node) : Section :=
  match member.form with
  | .constructor .. => .constructors
  | .classMember true _ => .statics
  | _ => .instances

/-- A class with the types it extends and, if a block follows, its members
    (`declarations::class_decl`). -/
def classDecl (inner : Construct → ParserOf σ Node) (start : Span) : ParserOf σ Node := do
  let name ← expectName (.after (.word .kwClass))
  let generics ← genericParameters
  let bases ← optionalList .kwExtends do
    let first ← typeRef
    let others ← eachAfter .comma typeRef
    return first :: others
  let members ←
    if TokenStream.startsBlock (← get) then do
      openBlock .classSignature
      sequence .outdent (unlessAtEnd .endOfClass (classMember inner))
    else do
      endStatement .classSignature
      pure []
  let part (s : Section) := members.filter (Section.ofMember · = s)
  node (← spanFrom start)
    (.classDecl name generics bases (part .constructors) (part .statics) (part .instances))

/-- The new name of something that is imported, if it gets one. -/
def rename : ParserOf σ (Option Token) := optional .kwAs (expectName (.after (.word .kwAs)))

/-- One name of the list of an import. -/
def importedName : ParserOf σ Node := do
  let name ← expectName .inImportList
  let newName ← rename
  node (← spanFrom name.span) (.importedName name newName)

/-- An import: of a module as a whole, perhaps under another name, or of some names in it
    (`declarations::import_decl`). -/
def importDecl (start : Span) : ParserOf σ Node := do
  let first ← expectName (.after (.word .kwImport))
  let others ← eachAfter .dot (expectName (.after (.word .dot)))
  let newName ← rename
  let exposed ←
    if newName.isNone then
      optionalList .leftParen (commaSequence .rightParen .inImportList importedName)
    else
      pure []
  let span ← spanFrom start
  endStatement .importDeclaration
  node span (.importDecl (first :: others) newName exposed)

/-- A loop over the elements of a value (`statements::for_stmt`). -/
def forEach (inner : Construct → ParserOf σ Node) (start : Span) : ParserOf σ Node := do
  let (name, type) ← typedName .kwFor
  let _ ← expect .kwIn (.after .forVariable)
  let iterable ← expression inner
  let body ← block (inner .declaration) .forHeader
  node (← spanFrom start) (.forEach name type iterable body)

/-- A loop on a condition (`statements::while_stmt`). -/
def whileLoop (inner : Construct → ParserOf σ Node) (start : Span) : ParserOf σ Node := do
  let condition ← expression inner
  let body ← block (inner .declaration) .whileCondition
  node (← spanFrom start) (.whileLoop condition body)

/-- A loop that goes round a number of times (`statements::repeat_stmt`). -/
def repeatTimes (inner : Construct → ParserOf σ Node) (start : Span) : ParserOf σ Node := do
  let amount ← expression inner
  let _ ← expect .kwTimes (.after .repeatAmount)
  let body ← block (inner .declaration) (.word .kwTimes)
  node (← spanFrom start) (.repeatTimes amount body)

/-- One case of a switch. -/
def switchCase (inner : Construct → ParserOf σ Node) : ParserOf σ Node := do
  let start ← expect .kwCase .anywhere
  let first ← expression inner
  let others ← eachAfter .comma (expression inner)
  let body ← block (inner .declaration) .caseConditions
  node (← spanFrom start.span) (.switchCase (first :: others) body)

/-- A switch with its cases (`statements::switch_stmt`). -/
def switch (inner : Construct → ParserOf σ Node) (start : Span) : ParserOf σ Node := do
  let subject ← expression inner
  openBlock .switchSubject
  let cases ← sequence .outdent (switchCase inner)
  node (← spanFrom start) (.switch subject cases)

/-- The catch clause of a try. -/
def catchClause (inner : Construct → ParserOf σ Node) : ParserOf σ Node := do
  let start ← expect .kwCatch (.after .tryBlock)
  let (name, type) ← typedName .kwCatch
  let body ← block (inner .declaration) .catchVariable
  node (← spanFrom start.span) (.catchClause name type body)

/-- A try with its catch clause (`statements::try_stmt`). -/
def tryCatch (inner : Construct → ParserOf σ Node) (start : Span) : ParserOf σ Node := do
  let body ← block (inner .declaration) (.word .kwTry)
  let handler ← catchClause inner
  node (← spanFrom start) (.tryCatch body handler)

/-- A return, with or without a value (`statements::return_stmt`). -/
def returnStmt (inner : Construct → ParserOf σ Node) (start : Span) : ParserOf σ Node := do
  let value ←
    if TokenStream.endsStatement (← get) then pure none
    else do
      let value ← expression inner
      pure (some value)
  let span ← spanFrom start
  endStatement (.word .kwReturn)
  node span (.returnStmt value)

/-- A statement that consists of the keyword `word` and a value (`statements::throw_stmt` and
    `statements::yield_stmt`). -/
def valueStmt (inner : Construct → ParserOf σ Node) (start : Span) (word : TokenKind)
    (form : Node → Form Node) : ParserOf σ Node := do
  let value ← expression inner
  let span ← spanFrom start
  endStatement (.word word)
  node span (form value)

/-- A statement that consists of the keyword `word` alone (`statements::keyword_stmt`). -/
def jumpStmt (start : Span) (word : TokenKind) (jump : Jump) : ParserOf σ Node := do
  endStatement (.word word)
  node start (.jumpStmt jump)

/-- An expression for its effect (`statements::expression_stmt`). -/
def expressionStmt (inner : Construct → ParserOf σ Node) : ParserOf σ Node := do
  let value ← expressionWith inner .assignment
  endStatement .expression
  node value.span (.expressionStmt value)

/-- A declaration or statement (`Parser::declaration` and `Parser::statement`). -/
def declarationWith (inner : Construct → ParserOf σ Node) : ParserOf σ Node := do
  let announced (construct : Span → ParserOf σ Node) : ParserOf σ Node := do
    construct (← advance).span
  match ← nextKind with
  | .kwClass => announced (classDecl inner)
  | .kwFunction => announced (functionDecl inner)
  | .kwVar => announced (variableDecl inner)
  | .kwImport => announced importDecl
  | .kwIf => announced (conditional inner .effect .declaration)
  | .kwFor => announced (forEach inner)
  | .kwWhile => announced (whileLoop inner)
  | .kwRepeat => announced (repeatTimes inner)
  | .kwSwitch => announced (switch inner)
  | .kwTry => announced (tryCatch inner)
  | .kwReturn => announced (returnStmt inner)
  | .kwThrow => announced (valueStmt inner · .kwThrow .throwStmt)
  | .kwYield => announced (valueStmt inner · .kwYield .yieldStmt)
  | .kwBreak => announced (jumpStmt · .kwBreak .breakLoop)
  | .kwContinue => announced (jumpStmt · .kwContinue .continueLoop)
  | .kwFallthrough => announced (jumpStmt · .kwFallthrough .fallthrough)
  | _ => expressionStmt inner

end TekLang.Parser
