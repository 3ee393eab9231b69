import TekLang.Token

/-!
# Precedence

How tightly an operator holds its operands. The levels stand in the order of their strength, the
weakest first; an operator of a level takes operands of that level or a tighter one. Levels and
table are those of `parser::rules`.
-/

namespace TekLang

/-- A level of binding; `none` is that of tokens which join nothing (`rules::Precedence`). -/
inductive Precedence
  | none | assignment | or | and | equality | comparison | term | factor | exponent | unary | call
  | primary
deriving DecidableEq, Inhabited, Repr

namespace Precedence

/-- Every level, weakest first. -/
def all : List Precedence :=
  [none, assignment, or, and, equality, comparison, term, factor, exponent, unary, call, primary]

/-- The name of a level. -/
def name : Precedence → String
  | none => "None"
  | assignment => "Assignment"
  | or => "Or"
  | and => "And"
  | equality => "Equality"
  | comparison => "Comparison"
  | term => "Term"
  | factor => "Factor"
  | exponent => "Exponent"
  | unary => "Unary"
  | call => "Call"
  | primary => "Primary"

/-- The place of a level in the order of strength. -/
def strength : Precedence → Nat
  | none => 0
  | assignment => 1
  | or => 2
  | and => 3
  | equality => 4
  | comparison => 5
  | term => 6
  | factor => 7
  | exponent => 8
  | unary => 9
  | call => 10
  | primary => 11

instance : LE Precedence where
  le a b := a.strength ≤ b.strength

instance : LT Precedence where
  lt a b := a.strength < b.strength

theorem le_def (a b : Precedence) : a ≤ b ↔ a.strength ≤ b.strength := Iff.rfl

theorem lt_def (a b : Precedence) : a < b ↔ a.strength < b.strength := Iff.rfl

instance (a b : Precedence) : Decidable (a ≤ b) := decidable_of_iff _ (le_def a b).symm

instance (a b : Precedence) : Decidable (a < b) := decidable_of_iff _ (lt_def a b).symm

/-- The next tighter level; there is none above `primary` (`Precedence::next`). -/
def next : Precedence → Precedence
  | none => assignment
  | assignment => or
  | or => and
  | and => equality
  | equality => comparison
  | comparison => term
  | term => factor
  | factor => exponent
  | exponent => unary
  | unary => call
  | call | primary => primary

/-- The level at which a token joins what follows it to an operand in front of it (the precedences
    of `rules::rule`). -/
def ofOperator : TokenKind → Precedence
  | .leftParen | .leftBracket | .dot => call
  | .caret => exponent
  | .star | .slash | .percent => factor
  | .plus | .minus => term
  | .less | .lessEqual | .greater | .greaterEqual | .kwInstanceof => comparison
  | .equalEqual | .bangEqual => equality
  | .kwAnd => and
  | .kwOr => or
  | .equal => assignment
  | _ => none

/-- The level that the right operand of an operator has at least. Powers group to the right, and so
    do assignments; all other operators group to the left (`expressions::binary` and
    `expressions::assignment`). -/
def ofRightOperand (operator : TokenKind) : Precedence :=
  match operator with
  | .caret => exponent
  | .equal => assignment
  | _ => (ofOperator operator).next

end Precedence

end TekLang
