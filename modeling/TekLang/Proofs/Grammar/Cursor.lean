import TekLang.Grammar.Program

/-!
# Reading from a list

A `Cursor` stands between the tokens that have been read and those that have not. It is the simplest
way to keep tokens, and the theory of the grammar is about readers at cursors: what is in front of
the first end of input is a list, what is read is taken from its front, and looking ahead is a
recursion on it.

A program is read from a `Tape`, and what is proved at cursors carries over to it: a tape shows a
cursor at every step (`Tape.simulation`), so that both readers give the same and stand at the same
place (`Tape.construct_eq`, `parse_eq`).
-/

namespace TekLang

/-- What is known in the midst of reading a list of tokens. -/
structure Cursor where
  /-- The tokens not read yet, up to the end of input and without it. -/
  rest : List Token
  /-- The end of input. -/
  stop : Token
  /-- The token read last. -/
  last : Token
  /-- The number of the node to be made next. -/
  nextId : NodeId

/-- Reads from a list. -/
abbrev Parser := ParserOf Cursor

namespace Cursor

/-- The token that is up next: the end of input once all others are read. -/
def upcoming (c : Cursor) : Token := c.rest.headD c.stop

/-- The kind of the next token. -/
def nextKind (c : Cursor) : TokenKind :=
  match c.rest with
  | [] => .eof
  | t :: _ => t.kind

/-- Whether a line ends here and a block opens behind it. -/
def startsBlock (c : Cursor) : Bool :=
  c.nextKind = .newline ∧
    ((c.rest.dropWhile (·.kind = .newline)).head?.map (·.kind)) = some .indent

/-- Whether a statement may end here: in front of a line end, the end of a block or of the input,
    and right behind the end of a block. -/
def endsStatement (c : Cursor) : Bool :=
  c.nextKind = .newline ∨ c.nextKind = .outdent ∨ c.nextKind = .eof ∨ c.last.kind = .outdent

/-- Reads the next token. The end of input stays where it is. -/
def advance (c : Cursor) : Token × Cursor :=
  match c.rest with
  | [] => (c.last, c)
  | t :: rest => (t, { c with rest, last := t })

end Cursor

/-- Reads on over the tokens of type arguments and tells whether a parenthesis follows the bracket
    that closes the `depth` open ones. -/
def Parser.closesBeforeParen (depth : Nat) : List Token → Bool
  | [] => false
  | t :: rest =>
    match t.kind with
    | .identifier | .dot | .comma | .leftBracket | .rightBracket => closesBeforeParen depth rest
    | .less => closesBeforeParen (depth + 1) rest
    | .greater =>
      if depth = 1 then (rest.head?.map (·.kind)) = some .leftParen
      else closesBeforeParen (depth - 1) rest
    | _ => false

/-- Whether a constructor comes next in the body of a class. -/
def Parser.startsConstructor : List Token → Bool
  | new :: paren :: _ => new.kind = .kwNew ∧ paren.kind = .leftParen
  | _ => false

instance : TokenStream Cursor where
  upcoming := Cursor.upcoming
  nextKind := Cursor.nextKind
  atEnd c := c.rest.isEmpty
  last := Cursor.last
  startsBlock := Cursor.startsBlock
  startsConstructor c := Parser.startsConstructor c.rest
  startsGenericCall c := Parser.closesBeforeParen 1 c.rest
  rounds := Cursor.rest
  index c := c.rest.length
  advance := Cursor.advance
  node span form c := (⟨c.nextId, span, form⟩, { c with nextId := c.nextId + 1 })

/-- What stands at the top of a program. -/
structure TopLevel where
  body : List Node
  errors : List SyntaxError
  /-- The number of the node to be made next. -/
  nextId : NodeId

/-- Passes over everything in front of the next word that begins a construct. -/
def Cursor.recover (c : Cursor) : Cursor :=
  { c with rest := c.rest.dropWhile (!·.kind.startsAnew) }

/-- Reads declarations to the end of input. Line ends and block ends between them are passed over,
    for such are left behind by a fault. -/
def topLevel : List Token → Cursor → TopLevel
  | [], c => ⟨[], [], c.nextId⟩
  | _ :: rounds, c =>
    match c.rest with
    | [] => ⟨[], [], c.nextId⟩
    | t :: rest =>
      if t.kind = .newline ∨ t.kind = .outdent then
        topLevel rounds { c with rest }
      else
        match Parser.construct .declaration c with
        | .ok node c =>
          let others := topLevel rounds c
          { others with body := node :: others.body }
        | .error e c =>
          let others := topLevel rounds c.recover
          { others with errors := e :: others.errors }

end TekLang
