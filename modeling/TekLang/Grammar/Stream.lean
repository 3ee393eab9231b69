import TekLang.Grammar.Fault
import TekLang.Node.Basic

/-!
# Reading tokens

A reader stands at a place among tokens and reads on from there. What it may ask of the place and do
with it is a `TokenStream`, so that the grammar is written down once for every way to keep the
tokens. A parser that fails leaves the place where the failure arose, for reading is taken up again
behind it.

The loops here run over the list of the tokens that were left when they began: every round takes a
token at least, so they never run out of rounds before the tokens run out.

The operations are those of `parser::Parser`, which is a `Tape`; those on lists, blocks and
statement ends come from `parser::support`.
-/

namespace TekLang

/-- A place among tokens, with what is asked of it and done with it. -/
class TokenStream (σ : Type) where
  /-- The token that is up next: the end of input once all others are read (`Parser::peek`). -/
  upcoming : σ → Token
  /-- The kind of the next token. -/
  nextKind : σ → TokenKind
  /-- Whether all tokens are read (`Parser::is_at_end`). -/
  atEnd : σ → Bool
  /-- The token read last (`Parser::previous`). -/
  last : σ → Token
  /-- Whether a line ends here and a block opens behind it (`Parser::starts_block`). -/
  startsBlock : σ → Bool
  /-- Whether a constructor comes next in the body of a class (asked in
      `declarations::class_decl`). -/
  startsConstructor : σ → Bool
  /-- Whether what comes next looks like the type arguments of a call, of whose opening bracket
      reading stands right behind (`Parser::looks_like_generic_call`). -/
  startsGenericCall : σ → Bool
  /-- The tokens that are left, as rounds for a loop. -/
  rounds : σ → List Token
  /-- Tells places apart (`Parser::current`). -/
  index : σ → Nat
  /-- Reads the next token. The end of input stays where it is (`Parser::advance`). -/
  advance : σ → Token × σ
  /-- Makes a node and numbers it (`Parser::node`). -/
  node : Span → Form Node → σ → Node × σ

namespace TokenStream

variable {σ : Type} [TokenStream σ]

/-- Whether a statement may end here: in front of a line end, the end of a block or of the input,
    and right behind the end of a block (`Parser::at_statement_end`). -/
def endsStatement (s : σ) : Bool :=
  nextKind s = .newline ∨ nextKind s = .outdent ∨ nextKind s = .eof ∨ (last s).kind = .outdent

end TokenStream

/-- Reads something or says what is wrong, and leaves the place behind what it took either way
    (`parser::ParseResult`). -/
abbrev ParserOf (σ : Type) := EStateM SyntaxError σ

namespace Parser

variable {σ α : Type}

/-- Fails because of the tokens at `span` (`ParseError::new`). -/
def failAt (span : Span) (fault : SyntaxFault) : ParserOf σ α := throw ⟨fault, span⟩

variable [TokenStream σ]

/-- The token that is up next (`Parser::peek`). -/
def upcoming : ParserOf σ Token := return TokenStream.upcoming (← get)

/-- The kind of the next token. -/
def nextKind : ParserOf σ TokenKind := return TokenStream.nextKind (← get)

/-- Whether all tokens are read (`Parser::is_at_end`). -/
def atEnd : ParserOf σ Bool := return TokenStream.atEnd (← get)

/-- Fails because of the next token (`Parser::error_at_current`). -/
def fail (fault : SyntaxFault) : ParserOf σ α := do
  failAt (← upcoming).span fault

/-- Reads the next token. The end of input stays where it is (`Parser::advance`). -/
def advance : ParserOf σ Token := modifyGet TokenStream.advance

/-- Reads the next token if it is of the given kind, and tells whether it was
    (`Parser::match_kind`). -/
def accept (kind : TokenKind) : ParserOf σ Bool := do
  if (← nextKind) = kind then
    let _ ← advance
    return true
  else
    return false

/-- Reads a token of the given kind, which is called `wanted` where it is missing
    (`Parser::consume`). -/
def expectAs (kind : TokenKind) (wanted : Wanted) (setting : Setting) : ParserOf σ Token := do
  if (← nextKind) = kind then advance else fail (.missing wanted setting)

/-- Reads a token of the given kind. -/
def expect (kind : TokenKind) (setting : Setting) : ParserOf σ Token :=
  expectAs kind (.token kind) setting

/-- Reads a name. -/
def expectName (setting : Setting) : ParserOf σ Token := expectAs .identifier .identifier setting

/-- The span from the start of `start` to the end of the token read last (`Parser::span_from`). -/
def spanFrom (start : Span) : ParserOf σ Span :=
  return start.through (TokenStream.last (← get)).span

/-- Makes a node and numbers it (`Parser::node`). -/
def node (span : Span) (form : Form Node) : ParserOf σ Node :=
  modifyGet (TokenStream.node span form)

/-- Items up to a token of the kind `close`, which is read too; `separator` follows each item. The
    item itself has to notice that the input is over. -/
def itemsUntil (close : TokenKind) (item : ParserOf σ α) (separator : ParserOf σ Unit) :
    List Token → ParserOf σ (List α)
  | [] => return [← item]
  | _ :: rounds => do
    if ← accept close then
      return []
    let first ← item
    separator
    let others ← itemsUntil close item separator rounds
    return first :: others

/-- Items with one token of the kind `mark` in front of each, as many as there are. -/
def itemsAfter (mark : TokenKind) (item : ParserOf σ α) : List Token → ParserOf σ (List α)
  | [] => return []
  | _ :: rounds => do
    if ← accept mark then
      let first ← item
      let others ← itemsAfter mark item rounds
      return first :: others
    else
      return []

/-- Items without anything between them up to a token of the kind `close`. -/
def sequence (close : TokenKind) (item : ParserOf σ α) : ParserOf σ (List α) := do
  itemsUntil close item (pure ()) (TokenStream.rounds (← get))

/-- A comma, unless a token of the kind `close` comes next. -/
def comma (close : TokenKind) (setting : Setting) : ParserOf σ Unit := do
  if (← nextKind) ≠ close then
    let _ ← expectAs .comma (.either .comma close) setting

/-- Items up to a token of the kind `close`, with a comma between any two and perhaps one behind the
    last. -/
def commaSequence (close : TokenKind) (setting : Setting) (item : ParserOf σ α) :
    ParserOf σ (List α) := do
  itemsUntil close item (comma close setting) (TokenStream.rounds (← get))

/-- Items with one token of the kind `mark` in front of each, as many as there are. -/
def eachAfter (mark : TokenKind) (item : ParserOf σ α) : ParserOf σ (List α) := do
  itemsAfter mark item (TokenStream.rounds (← get))

/-- What a token of the kind `mark` announces, if there is one. -/
def optional (mark : TokenKind) (item : ParserOf σ α) : ParserOf σ (Option α) := do
  if ← accept mark then
    return some (← item)
  else
    return none

/-- The list that a token of the kind `mark` announces; without it the list is empty. -/
def optionalList (mark : TokenKind) (items : ParserOf σ (List α)) : ParserOf σ (List α) := do
  if ← accept mark then items else return []

/-- Ends the statement that `landmark` describes (`Parser::end_of_statement`). -/
def endStatement (landmark : Landmark) : ParserOf σ Unit := do
  if (← accept .newline) then
    return
  if !TokenStream.endsStatement (← get) then
    fail (.missing .newline (.after landmark))

/-- Opens the block behind what `landmark` describes (`Parser::block`, in front of its body, with
    `Parser::sync_indentation`). -/
def openBlock (landmark : Landmark) : ParserOf σ Unit := do
  let _ ← expectAs .newline .block (.after landmark)
  let _ ← eachAfter .newline (pure ())
  let _ ← expectAs .indent .block (.after landmark)

/-- An item of a list whose end is still to come. -/
def unlessAtEnd (wanted : Wanted) (item : ParserOf σ α) : ParserOf σ α := do
  if ← atEnd then fail (.missing wanted .anywhere) else item

/-- The block behind what `landmark` describes, one construct after another (`Parser::block` with
    `Parser::block_body`). -/
def block (construct : ParserOf σ Node) (landmark : Landmark) : ParserOf σ (List Node) := do
  openBlock landmark
  sequence .outdent (unlessAtEnd .endOfBlock construct)

end Parser

end TekLang
