import TekLang.Grammar.Stream

/-!
# Types and parameters

A type is a path of names with type arguments in angle brackets and pairs of square brackets behind
it. Types are the only part of the grammar that refers to nothing but itself. The readers are those
of `parser::support`.
-/

namespace TekLang.Parser

variable {σ : Type} [TokenStream σ]

/-- Type arguments behind their opening bracket (`Parser::generic_args`). -/
def genericArguments (type : ParserOf σ Node) : ParserOf σ (List Node) :=
  commaSequence .greater .anywhere type

/-- A type whose type arguments are read by `argument` (`Parser::type_decl`). -/
def typeWith (argument : ParserOf σ Node) : ParserOf σ Node := do
  let first ← expectAs .identifier .type .anywhere
  let others ← eachAfter .dot (expectName (.after (.word .dot)))
  let generics ← optionalList .less (genericArguments argument)
  let pairs ← eachAfter .leftBracket (expect .rightBracket (.after (.word .leftBracket)))
  node (← spanFrom first.span) (.typeRef (first :: others) generics pairs.length)

/-- A type that is nested no deeper than there are rounds left. -/
def typeWithin : List Token → ParserOf σ Node
  | [] => fail (.missing .type .anywhere)
  | _ :: rounds => typeWith (typeWithin rounds)

/-- A type. -/
def typeRef : ParserOf σ Node := do
  typeWithin (TokenStream.rounds (← get))

/-- A generic parameter with the type that bounds it. -/
def genericParameter : ParserOf σ Node := do
  let name ← expectName .inGenericParameters
  let bound ← optional .kwExtends typeRef
  node (← spanFrom name.span) (.generic name bound)

/-- Generic parameters in angle brackets, if there are any (`Parser::generic_params`). -/
def genericParameters : ParserOf σ (List Node) :=
  optionalList .less (commaSequence .greater .anywhere genericParameter)

/-- A parameter with its type. -/
def parameter : ParserOf σ Node := do
  let name ← expectAs .identifier .parameterName .anywhere
  let _ ← expect .colon (.after .parameterName)
  let type ← typeRef
  node (← spanFrom name.span) (.parameter name type)

/-- Parameters behind their opening bracket (`Parser::param_list`). -/
def parameters : ParserOf σ (List Node) :=
  commaSequence .rightParen (.after .parameter) parameter

/-- A name, introduced by the word `after`, and its type if one is given (`Parser::var_loc`). -/
def typedName (after : TokenKind) : ParserOf σ (Token × Option Node) := do
  let name ← expectName (.after (.word after))
  let type ← optional .colon typeRef
  return (name, type)

end TekLang.Parser
