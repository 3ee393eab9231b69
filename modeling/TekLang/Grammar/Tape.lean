import TekLang.Grammar.Stream

/-!
# Tokens and a place among them

A `Tape` holds all tokens of a list, those behind an end of input too, and counts how many of them
are read. What is ahead is found by counting on from there: as far as a reader likes, for behind the
last token, which is an end of input, the last token is found again.
-/

namespace TekLang

/-- The end of input behind tokens that lack one stands where the last of them ends
    (`Parser::new`). -/
def endOfInput (tokens : List Token) : Token :=
  .silent .eof (.point ((tokens.getLast?.map (·.span.stop)).getD .origin))

/-- Tokens of which the last is an end of input; where it is missing, it is made up. -/
def closed (tokens : List Token) : List Token :=
  if tokens.getLast?.map (·.kind) = some .eof then tokens else tokens ++ [endOfInput tokens]

theorem getLast_closed (tokens : List Token) :
    (closed tokens).getLast?.map (·.kind) = some .eof := by
  unfold closed
  split
  · assumption
  · rw [List.getLast?_concat]
    rfl

/-- Tokens, how many of them are read and how many nodes are made (`parser::Parser`, less the
    diagnostics, which `TokenStream.declarations` hands on). -/
structure Tape where
  tokens : List Token
  current : Nat
  /-- The number of the node to be made next. -/
  nextId : NodeId
  ends : tokens.getLast?.map (·.kind) = some .eof
  inside : current < tokens.length

namespace Tape

/-- Where counting on from the next token leads, which is the last token at most. -/
def clamp (t : Tape) (offset : Nat) : Fin t.tokens.length :=
  ⟨min (t.current + offset) (t.tokens.length - 1), by have := t.inside; omega⟩

/-- The token that is found by counting on from the next one (`Parser::peek_at`). -/
def peekAt (t : Tape) (offset : Nat) : Token := t.tokens.get (t.clamp offset)

/-- The token read last, or the first one if none is read (`Parser::previous`). -/
def previous (t : Tape) : Token := t.tokens.get ⟨t.current - 1, by have := t.inside; omega⟩

/-- In front of anything but an end of input there are more tokens. -/
theorem inside_succ {t : Tape} (more : (t.peekAt 0).kind ≠ .eof) :
    t.current + 1 < t.tokens.length := by
  have inside := t.inside
  apply Nat.lt_of_le_of_ne (Nat.succ_le_of_lt inside)
  intro last
  apply more
  have place : t.clamp 0 = ⟨t.tokens.length - 1, by omega⟩ := by
    apply Fin.ext
    change min (t.current + 0) (t.tokens.length - 1) = t.tokens.length - 1
    omega
  have ends := t.ends
  rw [List.getLast?_eq_getElem?, List.getElem?_eq_getElem (by omega)] at ends
  rw [peekAt, place]
  exact Option.some.inj ends

/-- Reads the next token, unless it is an end of input (`Parser::advance`). -/
def advance (t : Tape) : Tape :=
  if more : (t.peekAt 0).kind ≠ .eof then
    { t with current := t.current + 1, inside := inside_succ more }
  else
    t

/-- How many line ends come next. They are looked for no farther than there are rounds left. -/
def lineEnds (t : Tape) : (rounds offset : Nat) → Nat
  | 0, offset => offset
  | rounds + 1, offset =>
    if (t.peekAt offset).kind = .newline then t.lineEnds rounds (offset + 1) else offset

/-- Whether a line ends here and a block opens behind it (`Parser::starts_block`). -/
def startsBlock (t : Tape) : Bool :=
  let offset := t.lineEnds t.tokens.length 0
  0 < offset ∧ (t.peekAt offset).kind = .indent

/-- Whether a constructor comes next in the body of a class (in `declarations::class_decl`). -/
def startsConstructor (t : Tape) : Bool :=
  (t.peekAt 0).kind = .kwNew ∧ (t.peekAt 1).kind = .leftParen

/-- Counts on over the tokens of type arguments and tells whether a parenthesis follows the bracket
    that closes the `depth` open ones (`Parser::looks_like_generic_call`). They are looked at no
    farther than there are rounds left. -/
def closesBeforeParen (t : Tape) : (rounds depth offset : Nat) → Bool
  | 0, _, _ => false
  | rounds + 1, depth, offset =>
    match (t.peekAt offset).kind with
    | .identifier | .dot | .comma | .leftBracket | .rightBracket =>
      t.closesBeforeParen rounds depth (offset + 1)
    | .less => t.closesBeforeParen rounds (depth + 1) (offset + 1)
    | .greater =>
      if depth = 1 then (t.peekAt (offset + 1)).kind = .leftParen
      else t.closesBeforeParen rounds (depth - 1) (offset + 1)
    | _ => false

end Tape

instance : TokenStream Tape where
  upcoming t := t.peekAt 0
  nextKind t := (t.peekAt 0).kind
  atEnd t := (t.peekAt 0).kind = .eof
  last := Tape.previous
  startsBlock := Tape.startsBlock
  startsConstructor := Tape.startsConstructor
  startsGenericCall t := t.closesBeforeParen t.tokens.length 1 0
  rounds t := t.tokens.drop t.current
  index := Tape.current
  advance t := (t.advance.previous, t.advance)
  node span form t := (⟨t.nextId, span, form⟩, { t with nextId := t.nextId + 1 })

/-- All tokens of a list, none of which is read (`Parser::new`). -/
def Tape.ofTokens (tokens : List Token) : Tape where
  tokens := closed tokens
  current := 0
  nextId := 0
  ends := getLast_closed tokens
  inside := by
    have ends := getLast_closed tokens
    cases none : closed tokens with
    | nil =>
      rw [none] at ends
      cases ends
    | cons t others => exact Nat.succ_pos _

end TekLang
