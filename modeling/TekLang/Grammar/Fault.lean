import TekLang.Diagnostic
import TekLang.Token

/-!
# Faults of syntax

Why a construct cannot be read. Nearly always something is missing: a `Wanted` says what, and a
`Setting` says where it was looked for. `parser` writes each message out at its place; `message`
puts the same texts together.
-/

namespace TekLang

/-- What should have come next. -/
inductive Wanted
  | token (kind : TokenKind)
  | either (first second : TokenKind)
  | construct
  | expression
  | type
  | identifier
  | identifierOrSuper
  | parameterName
  | newline
  | block
  | endOfBlock
  | endOfClass
deriving DecidableEq, Inhabited, Repr

/-- Something that stands in front of the place in question. -/
inductive Landmark
  | word (kind : TokenKind)
  | expression
  | index
  | genericArguments
  | functionName
  | functionSignature
  | classSignature
  | constructorSignature
  | parameterName
  | parameter
  | variableDeclaration
  | importDeclaration
  | ifCondition
  | forVariable
  | forHeader
  | whileCondition
  | repeatAmount
  | switchSubject
  | caseConditions
  | tryBlock
  | catchVariable
deriving DecidableEq, Inhabited, Repr

/-- Where something was looked for. -/
inductive Setting
  | anywhere
  | after (landmark : Landmark)
  | inGenericParameters
  | inImportList
deriving DecidableEq, Inhabited, Repr

/-- Why a construct cannot be read. -/
inductive SyntaxFault
  | missing (wanted : Wanted) (setting : Setting)
  | reservedWord (word : String)
  | assignmentTarget
deriving DecidableEq, Inhabited, Repr

/-- A kind as messages quote it. -/
def TokenKind.quoted (kind : TokenKind) : String := "'" ++ kind.describe ++ "'"

/-- What messages call the thing that is missing. -/
def Wanted.text : Wanted → String
  | token kind => kind.quoted
  | either first second => first.quoted ++ " or " ++ second.quoted
  | construct => "a declaration, expression, or statement"
  | expression => "an expression"
  | type => "a type"
  | identifier => "an identifier"
  | identifierOrSuper => "an identifier or 'super'"
  | parameterName => "a parameter name"
  | newline => "a newline"
  | block => "a newline and indent"
  | endOfBlock => "the block to end"
  | endOfClass => "the class body to end"

/-- What messages call a landmark. -/
def Landmark.text : Landmark → String
  | word kind => kind.quoted
  | expression => "the expression"
  | index => "the index"
  | genericArguments => "the generic arguments"
  | functionName => "the function name"
  | functionSignature => "the function signature"
  | classSignature => "the class signature"
  | constructorSignature => "the constructor signature"
  | parameterName => "the parameter name"
  | parameter => "the parameter"
  | variableDeclaration => "the variable declaration"
  | importDeclaration => "the import"
  | ifCondition => "the if condition"
  | forVariable => "the loop variable"
  | forHeader => "the for header"
  | whileCondition => "the while condition"
  | repeatAmount => "the repeat amount"
  | switchSubject => "the switch expression"
  | caseConditions => "the case conditions"
  | tryBlock => "the try block"
  | catchVariable => "the catch variable"

/-- How messages tell where something was looked for. -/
def Setting.text : Setting → String
  | anywhere => ""
  | after landmark => " after " ++ landmark.text
  | inGenericParameters => " in the generic parameter list"
  | inImportList => " in the import list"

/-- The fault in words. -/
def SyntaxFault.message : SyntaxFault → String
  | missing wanted setting => "Expected " ++ wanted.text ++ setting.text
  | reservedWord word => "'" ++ word ++ "' is a reserved word"
  | assignmentTarget => "Invalid assignment target"

/-- A fault and the place in the text that it is put down to (`parser::ParseError`). -/
structure SyntaxError where
  fault : SyntaxFault
  span : Span
deriving DecidableEq, Inhabited, Repr

/-- What the author of the text is told (`ParseError::into_diagnostic`). -/
def SyntaxError.diagnostic (e : SyntaxError) : Diagnostic := ⟨"parser", e.fault.message, e.span⟩

end TekLang
