import TekLang.Token.Lexeme

/-!
# The layout of a text

A text is read character by character. Besides the words, reading gives the tokens of the layout: a
line that holds words ends in a newline token, a line that stands further in than the one before
opens a block with an indent token, and a line that stands further out closes blocks with outdent
tokens. Blank lines and comments count for nothing, and neither do line ends between brackets.

`Scan.step` takes one character and tells what it settles; `lex` reads a whole text. The round of
`Lexer::run`, with the loops inside it, is spread over the steps: a `Place` is where in that round
the reading stands. Widths and brackets are counted without a bound, and in 32 bits by `Lexer`.
-/

namespace TekLang

/-- Where the next character falls. -/
inductive Place
  /-- Before the first word of the line that starts at `start`, so far `width` wide. -/
  | margin (start : Position) (width : Nat)
  | betweenWords
  | insideWord (lexeme : Lexeme)
  | insideComment
deriving DecidableEq, Inhabited, Repr

/-- What has to be known of the text so far in order to read on (`lexer::Lexer`). -/
structure Scan where
  /-- Where the next character stands. -/
  next : Position
  place : Place
  /-- The widths of the open blocks, innermost first, each less than the one before. The stack of
      `Lexer` has a 0 below them, for the program. -/
  blocks : List Nat
  /-- How many brackets are open. -/
  nesting : Nat
  /-- Whether the line holds a word already. -/
  hasWords : Bool
deriving DecidableEq, Inhabited, Repr

namespace Scan

/-- Before the first character of a text. -/
def initial : Scan := ⟨.origin, .margin .origin 0, [], 0, false⟩

/-- A tab indents a line as far as four blanks (`lexer::TAB_WIDTH`). -/
def tabWidth : Nat := 4

/-- How many brackets are open behind a token. A closing bracket too many changes nothing. -/
def nestingAfter (nesting : Nat) : TokenKind → Nat
  | .leftParen | .leftBracket => nesting + 1
  | .rightParen | .rightBracket => nesting - 1
  | _ => nesting

/-- Takes account of a piece of the line. -/
def note (s : Scan) : Piece → Scan
  | .token t => { s with nesting := nestingAfter s.nesting t.kind, hasWords := true }
  | .fault .. => s

/-- Ends the word that is being read, if there is one. -/
def settleWord (s : Scan) : Scan × List Piece :=
  match s.place with
  | .insideWord l =>
    let pieces := l.settle s.next
    ({ pieces.foldl note s with place := .betweenWords }, pieces)
  | _ => (s, [])

/-- The width of the innermost open block. -/
def blockWidth (s : Scan) : Nat := s.blocks.headD 0

/-- Opens or closes blocks for a line whose first word stands at column width `width`, behind the
    margin `span`. A line may only go back to the width of a block that is open
    (`Lexer::line_indentation`, behind the margin). -/
def enterLine (s : Scan) (span : Span) (width : Nat) : Scan × List Piece :=
  if s.blockWidth < width then
    ({ s with blocks := width :: s.blocks }, [.token (.silent .indent span)])
  else
    let kept := s.blocks.dropWhile (width < ·)
    let closed := s.blocks.takeWhile (width < ·)
    ({ s with blocks := kept },
      closed.map (fun _ => .token (.silent .outdent span)) ++
        if kept.headD 0 = width then [] else [.fault .inconsistentIndentation span])

/-- Ends the line in front of the line feed at `s.next`. Between brackets a line feed is a blank
    (`Lexer::line_break`). -/
def breakLine (s : Scan) : Scan × List Piece :=
  if 0 < s.nesting then
    ({ s with place := .betweenWords }, [])
  else
    let stop := s.next.after '\n'
    ({ s with place := .margin stop 0, hasWords := false },
      if s.hasWords then [.token ⟨.newline, "\n", ⟨s.next, stop⟩⟩] else [])

/-- Takes a character that continues no word (`Lexer::run`, behind the margin). -/
def stepOutside (s : Scan) (c : Char) : Scan × List Piece :=
  if c = ' ' ∨ c = '\t' ∨ c = '\r' then ({ s with place := .betweenWords }, [])
  else if c = '\n' then s.breakLine
  else if c = '#' then ({ s with place := .insideComment }, [])
  else ({ s with place := .insideWord (.ofChar s.next c) }, [])

/-- Takes a character in the margin of a line. A line of blanks or of a comment alone is passed
    over, and so is all of a line behind a carriage return in its margin (`Lexer::line_indentation`
    with `Lexer::skip_comment`). -/
def stepMargin (s : Scan) (start : Position) (width : Nat) (c : Char) : Scan × List Piece :=
  if c = ' ' then ({ s with place := .margin start (width + 1) }, [])
  else if c = '\t' then ({ s with place := .margin start (width + tabWidth) }, [])
  else if c = '\n' then s.breakLine
  else if c = '\r' ∨ c = '#' then ({ s with place := .insideComment }, [])
  else
    let (s, pieces) := s.enterLine ⟨start, s.next⟩ width
    ({ s with place := .insideWord (.ofChar s.next c) }, pieces)

/-- Takes a character where it stands. -/
def take (s : Scan) (c : Char) : Scan × List Piece :=
  match s.place with
  | .margin start width => s.stepMargin start width c
  | .betweenWords => s.stepOutside c
  | .insideComment => if c = '\n' then s.breakLine else (s, [])
  | .insideWord l =>
    match l.extend? s.next c with
    | some l => ({ s with place := .insideWord l }, [])
    | none =>
      let (settled, word) := s.settleWord
      let (after, pieces) := settled.stepOutside c
      (after, word ++ pieces)

/-- Takes a character and moves behind it; the second part is what is settled thereby. -/
def step (s : Scan) (c : Char) : Scan × List Piece :=
  let (after, pieces) := s.take c
  ({ after with next := s.next.after c }, pieces)

/-- What the end of the text settles: the last word, its line, the open blocks and the end
    (`Lexer::run`, behind its loop). -/
def finish (s : Scan) : List Piece :=
  let (s, word) := s.settleWord
  let here := Span.point s.next
  word ++ (if s.hasWords then [.token (.silent .newline here)] else []) ++
    s.blocks.map (fun _ => .token (.silent .outdent here)) ++ [.token (.silent .eof here)]

/-- A scan and all that has been settled before. -/
def feed (state : Scan × Array Piece) (c : Char) : Scan × Array Piece :=
  let (s, pieces) := state.1.step c
  (s, state.2 ++ pieces)

end Scan

/-- A text as tokens, together with what is wrong with it (`lexer::LexResult`). -/
structure Lexed where
  tokens : List Token
  diagnostics : List Diagnostic
deriving DecidableEq, Inhabited, Repr

/-- All pieces of a text in order. -/
def pieces (source : String) : List Piece :=
  let (s, pieces) := source.toList.foldl Scan.feed (.initial, #[])
  pieces.toList ++ s.finish

/-- Reads a text. This cannot fail: a character that begins no word is reported and passed over, and
    the last token is always the end of input (`lexer::lex`). -/
def lex (source : String) : Lexed :=
  let all := pieces source
  ⟨all.filterMap Piece.token?, all.filterMap Piece.diagnostic?⟩

end TekLang
