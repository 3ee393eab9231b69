import TekLang.Diagnostic
import TekLang.Token

/-!
# Lexemes

A lexeme is a word of a text that is being read. It begins with its first character, takes further
characters as long as they can belong to it, and then settles into what was read: a token, two
tokens where a number is followed by a dot that begins no fraction, or a fault.

`lexer` reads a word in one go and looks ahead for its end: `Lexer::token` picks the reader by the
first character, and `single`, `with_equal`, `unexpected_char`, `lex_string`, `lex_number` and
`lex_ident_or_keyword` read on. Here a `Shape` is the reader that is at work.
-/

namespace TekLang

/-- What can be wrong with the words and lines of a text. -/
inductive TextFault
  | unexpectedCharacter
  | unterminatedString
  | inconsistentIndentation
deriving DecidableEq, Inhabited, Repr

namespace TextFault

/-- The fault in words. -/
def message : TextFault → String
  | unexpectedCharacter => "Unexpected character"
  | unterminatedString => "Unterminated string literal"
  | inconsistentIndentation => "Inconsistent indentation"

/-- What the author of the text is told. -/
def diagnostic (fault : TextFault) (span : Span) : Diagnostic := ⟨"lexer", fault.message, span⟩

end TextFault

/-- What reading a text gives, piece by piece. -/
inductive Piece
  | token (token : Token)
  | fault (fault : TextFault) (span : Span)
deriving DecidableEq, Inhabited, Repr

namespace Piece

/-- The token that a piece is. -/
def token? : Piece → Option Token
  | token t => some t
  | fault .. => none

/-- What the author is told of a piece that is a fault. -/
def diagnostic? : Piece → Option Diagnostic
  | token _ => none
  | fault f span => some (f.diagnostic span)

end Piece

/-- Words are written with unaccented letters, digits and underscores
    (`lexer::is_ident_start`). -/
def isWordStart (c : Char) : Bool := c.isAlpha || c = '_'

/-- What may follow the first character of a word (`lexer::is_ident_continue`). -/
def isWordPart (c : Char) : Bool := isWordStart c || c.isDigit

/-- Underscores may group the digits of a number (`Lexer::skip_digits`). -/
def isNumberPart (c : Char) : Bool := c.isDigit || c = '_'

/-- What a lexeme may still become. -/
inductive Shape
  /-- A finished word of a known kind. -/
  | whole (kind : TokenKind)
  | word
  /-- Digits, before or behind the point. -/
  | number (fraction : Bool)
  /-- Digits and then a dot, which stands at `dot` and is a point only if a digit follows. -/
  | numberDot (dot : Position)
  /-- A sign that has a meaning of its own with an equals sign behind it. -/
  | sign (alone : Option TokenKind) (withEqual : TokenKind)
  /-- A string up to here; after a backslash the next character is taken as it is. -/
  | quoted (quote : Char) (escaped : Bool)
  /-- A character that begins no word. -/
  | foreign
deriving DecidableEq, Inhabited, Repr

/-- The shape that the first character of a word gives it (`Lexer::token`). -/
def Shape.ofChar (c : Char) : Shape :=
  match c with
  | '(' => .whole .leftParen
  | ')' => .whole .rightParen
  | '[' => .whole .leftBracket
  | ']' => .whole .rightBracket
  | ',' => .whole .comma
  | '.' => .whole .dot
  | ':' => .whole .colon
  | '+' => .whole .plus
  | '-' => .whole .minus
  | '*' => .whole .star
  | '/' => .whole .slash
  | '%' => .whole .percent
  | '^' => .whole .caret
  | '=' => .sign (some .equal) .equalEqual
  | '<' => .sign (some .less) .lessEqual
  | '>' => .sign (some .greater) .greaterEqual
  | '!' => .sign none .bangEqual
  | '"' => .quoted '"' false
  | '\'' => .quoted '\'' false
  | c => if c.isDigit then .number false else if isWordStart c then .word else .foreign

/-- A word that is being read: where it starts, its text so far and what may become of it. -/
structure Lexeme where
  start : Position
  spelling : String
  shape : Shape
deriving DecidableEq, Inhabited, Repr

namespace Lexeme

/-- The lexeme that begins with `c` at `start`. -/
def ofChar (start : Position) (c : Char) : Lexeme := ⟨start, c.toString, .ofChar c⟩

/-- Takes one more character and goes on in another shape. -/
def push (l : Lexeme) (c : Char) (shape : Shape) : Lexeme :=
  { l with spelling := l.spelling.push c, shape }

/-- The lexeme with the character `c`, which stands at `place`, or nothing if `c` cannot belong to
    it. -/
def extend? (l : Lexeme) (place : Position) (c : Char) : Option Lexeme :=
  match l.shape with
  | .whole _ => none
  | .word => if isWordPart c then some (l.push c .word) else none
  | .number fraction =>
    if isNumberPart c then some (l.push c (.number fraction))
    else if c = '.' ∧ fraction = false then some { l with shape := .numberDot place }
    else none
  | .numberDot _ =>
    if c.isDigit then some ((l.push '.' l.shape).push c (.number true)) else none
  | .sign _ withEqual => if c = '=' then some (l.push c (.whole withEqual)) else none
  | .quoted quote escaped =>
    if c = '\n' then none
    else if escaped then some (l.push c (.quoted quote false))
    else if c = '\\' then some (l.push c (.quoted quote true))
    else if c = quote then some (l.push c (.whole .string))
    else some (l.push c (.quoted quote false))
  | .foreign => none

/-- The lexeme as a token that ends at `stop`. -/
def token (l : Lexeme) (kind : TokenKind) (stop : Position) : Piece :=
  .token ⟨kind, l.spelling, ⟨l.start, stop⟩⟩

/-- What was read once no further character belongs to the lexeme, which ends at `stop`. -/
def settle (l : Lexeme) (stop : Position) : List Piece :=
  match l.shape with
  | .whole kind => [l.token kind stop]
  | .word => [l.token (.ofWord l.spelling) stop]
  | .number _ => [l.token .number stop]
  | .numberDot dot => [l.token .number dot, .token ⟨.dot, ".", ⟨dot, stop⟩⟩]
  | .sign (some kind) _ => [l.token kind stop]
  | .sign none _ => [.fault .unexpectedCharacter ⟨l.start, stop⟩]
  | .quoted .. => [.fault .unterminatedString ⟨l.start, stop⟩]
  | .foreign => [.fault .unexpectedCharacter ⟨l.start, stop⟩]

end Lexeme

end TekLang
