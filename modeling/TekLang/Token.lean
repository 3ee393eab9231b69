import TekLang.Span

/-!
# Tokens

The words of the language. Four kinds of token spell no text: they tell where a line ends, where a
block opens and closes, and where the input is over. Kinds and tokens are those of `lexer`.
-/

namespace TekLang

/-- What sort of word a token is (`lexer::TokenKind`). -/
inductive TokenKind
  | newline | indent | outdent | eof
  | identifier | number | string | boolean
  | leftParen | rightParen | leftBracket | rightBracket | comma | dot | colon
  | plus | minus | star | slash | percent | caret
  | equal | equalEqual | bangEqual | less | lessEqual | greater | greaterEqual
  | kwClass | kwExtends | kwNew | kwAbstract | kwStatic | kwThis | kwSuper | kwInstanceof
  | kwIf | kwElse | kwFunction | kwReturn | kwAsync | kwImport | kwAs
  | kwFor | kwIn | kwWhile | kwRepeat | kwTimes | kwSwitch | kwCase | kwFallthrough
  | kwTry | kwCatch | kwThrow | kwContinue | kwBreak | kwYield | kwAnd | kwOr | kwNot | kwVar
deriving DecidableEq, Inhabited, Repr

namespace TokenKind

/-- What a kind is called in messages: its spelling where it has only one
    (`TokenKind::describe`). -/
def describe : TokenKind → String
  | newline => "newline"
  | indent => "indent"
  | outdent => "outdent"
  | eof => "end of input"
  | identifier => "identifier"
  | number => "number"
  | string => "string"
  | boolean => "boolean"
  | leftParen => "("
  | rightParen => ")"
  | leftBracket => "["
  | rightBracket => "]"
  | comma => ","
  | dot => "."
  | colon => ":"
  | plus => "+"
  | minus => "-"
  | star => "*"
  | slash => "/"
  | percent => "%"
  | caret => "^"
  | equal => "="
  | equalEqual => "=="
  | bangEqual => "!="
  | less => "<"
  | lessEqual => "<="
  | greater => ">"
  | greaterEqual => ">="
  | kwClass => "class"
  | kwExtends => "extends"
  | kwNew => "new"
  | kwAbstract => "abstract"
  | kwStatic => "static"
  | kwThis => "this"
  | kwSuper => "super"
  | kwInstanceof => "instanceof"
  | kwIf => "if"
  | kwElse => "else"
  | kwFunction => "function"
  | kwReturn => "return"
  | kwAsync => "async"
  | kwImport => "import"
  | kwAs => "as"
  | kwFor => "for"
  | kwIn => "in"
  | kwWhile => "while"
  | kwRepeat => "repeat"
  | kwTimes => "times"
  | kwSwitch => "switch"
  | kwCase => "case"
  | kwFallthrough => "fallthrough"
  | kwTry => "try"
  | kwCatch => "catch"
  | kwThrow => "throw"
  | kwContinue => "continue"
  | kwBreak => "break"
  | kwYield => "yield"
  | kwAnd => "and"
  | kwOr => "or"
  | kwNot => "not"
  | kwVar => "var"

/-- The kinds that tell about lines, blocks and the end instead of spelling text. -/
def isLayout : TokenKind → Bool
  | newline | indent | outdent | eof => true
  | _ => false

/-- The reserved words, each spelt as it is described. -/
def keywords : List TokenKind :=
  [kwClass, kwExtends, kwNew, kwAbstract, kwStatic, kwThis, kwSuper, kwInstanceof, kwIf, kwElse,
    kwFunction, kwReturn, kwAsync, kwImport, kwAs, kwFor, kwIn, kwWhile, kwRepeat, kwTimes,
    kwSwitch, kwCase, kwFallthrough, kwTry, kwCatch, kwThrow, kwContinue, kwBreak, kwYield,
    kwAnd, kwOr, kwNot, kwVar]

/-- The kind of a word of letters, digits and underscores: a reserved word, a truth value, and
    otherwise a name (`lexer::keyword`). -/
def ofWord (word : String) : TokenKind :=
  if word = "true" ∨ word = "false" then boolean
  else (keywords.find? (·.describe = word)).getD identifier

end TokenKind

/-- A word of a text: its kind, its spelling and where it stands (`lexer::Token`). -/
structure Token where
  kind : TokenKind
  lexeme : String
  span : Span
deriving DecidableEq, Inhabited, Repr

namespace Token

/-- A token that spells nothing. -/
def silent (kind : TokenKind) (span : Span) : Token := ⟨kind, "", span⟩

end Token

end TekLang
