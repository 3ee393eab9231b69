import TekLang.Grammar.Declaration
import TekLang.Grammar.Tape

/-!
# Programs

`Parser.construct` ties the readers of the constructs together, and `parse` reads the tokens of a
whole text. A declaration at the top that cannot be read costs one diagnostic; reading goes on at
the next word that surely begins a new construct.
-/

namespace TekLang

section Constructs

variable {σ : Type} [TokenStream σ]

/-- A construct that is nested no deeper than there are rounds left. Every construct takes a token
    before it reads another one within, so as many rounds as there are tokens are enough. -/
def Parser.constructWithin : List Token → Construct → ParserOf σ Node
  | [], _ => Parser.fail (.missing .expression .anywhere)
  | _ :: rounds, .declaration => Parser.declarationWith (constructWithin rounds)
  | _ :: rounds, .expression level => Parser.expressionWith (constructWithin rounds) level

/-- A construct. -/
def Parser.construct (construct : Construct) : ParserOf σ Node := do
  constructWithin (TokenStream.rounds (← get)) construct

end Constructs

/-- The words at which reading is taken up again after a fault (`Parser::synchronize`). -/
def TokenKind.startsAnew : TokenKind → Bool
  | kwClass | kwSwitch | kwFunction | kwImport | kwFor | kwWhile | kwReturn | kwVar => true
  | _ => false

/-- A tree and the faults that were found while it was made. The tree of a program with faults holds
    what could be read (`parser::ParseOutput`). -/
structure Parsed where
  program : Node
  diagnostics : List Diagnostic

/-- What is read at the top of a program, and the place behind it. -/
structure Declarations (σ : Type) where
  body : List Node
  errors : List SyntaxError
  place : σ

namespace TokenStream

variable {σ : Type} [TokenStream σ]

/-- Passes over everything in front of the next word that begins a construct
    (`Parser::synchronize`). -/
def synchronize : List Token → σ → σ
  | [], s => s
  | _ :: rounds, s =>
    if atEnd s ∨ (nextKind s).startsAnew then s else synchronize rounds (advance s).2

/-- Where reading is taken up again if what begins at `s` has a fault at `s'`. If nothing was read
    up to there, a token is passed over first (in `Parser::parse_program`). -/
def resumption (s s' : σ) : σ :=
  let behind := if index s' = index s then (advance s').2 else s'
  synchronize (rounds behind) behind

/-- Reads declarations to the end of input. Line ends and block ends between them are passed over,
    for such are left behind by a fault (the loop of `Parser::parse_program`). -/
def declarations : List Token → σ → Declarations σ
  | [], s => ⟨[], [], s⟩
  | _ :: rounds, s =>
    if atEnd s then
      ⟨[], [], s⟩
    else if nextKind s = .newline ∨ nextKind s = .outdent then
      declarations rounds (advance s).2
    else
      match Parser.construct .declaration s with
      | .ok node s' =>
        let others := declarations rounds s'
        { others with body := node :: others.body }
      | .error e s' =>
        let others := declarations rounds (resumption s s')
        { others with errors := e :: others.errors }

/-- Reads a program (`Parser::parse_program`). -/
def readProgram (s : σ) : Parsed × σ :=
  let top := declarations (rounds s) s
  let span := (upcoming s).span.through (upcoming top.place).span
  let (program, s') := node span (.program top.body) top.place
  (⟨program, top.errors.map (·.diagnostic)⟩, s')

end TokenStream

/-- The tree of a list of tokens (`parser::parse`). -/
def parse (tokens : List Token) : Parsed := (TokenStream.readProgram (Tape.ofTokens tokens)).1

end TekLang
