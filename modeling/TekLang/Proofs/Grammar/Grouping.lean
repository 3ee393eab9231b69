import TekLang.Proofs.Grammar.Cursor
import TekLang.Node.Descendants

/-!
# Grouping

How the table of precedences groups the operands of an expression. `Node.Grouped` says that every
operand in a tree binds as tightly as its operator asks for, and `Spells` which tokens an expression
is written with. A written expression shows its grouping only by the table and by the parentheses
that are nodes of the tree.
-/

namespace TekLang

namespace Precedence

/-- The level that the left operand of an operator has at least. Powers group to the right. -/
def ofLeftOperand (operator : TokenKind) : Precedence :=
  match operator with
  | .caret => unary
  | _ => ofOperator operator

/-- An operator is taken into the last operand of an expression of the given level unless it is
    weaker than this. -/
def rightLimit : Precedence → Precedence
  | assignment => assignment
  | exponent => exponent
  | unary => unary
  | level => level.next

theorem le_rightLimit (level : Precedence) : level ≤ level.rightLimit := by
  cases level <;> decide

theorem lt_of_lt_of_le {a b c : Precedence} (hab : a < b) (hbc : b ≤ c) : a < c := by
  rw [lt_def] at *
  rw [le_def] at hbc
  omega

theorem not_le_of_lt {a b : Precedence} (h : a < b) : ¬ b ≤ a := by
  rw [lt_def] at h
  rw [le_def]
  omega

theorem le_refl (a : Precedence) : a ≤ a := Nat.le_refl _

theorem le_trans {a b c : Precedence} (hab : a ≤ b) (hbc : b ≤ c) : a ≤ c := by
  rw [le_def] at *
  omega

theorem call_lt_rightLimit {level : Precedence} (h : call ≤ level) : call < level.rightLimit := by
  cases level <;> revert h <;> decide

theorem assignment_lt_rightLimit {level : Precedence} (h : call ≤ level) :
    assignment < level.rightLimit := by
  cases level <;> revert h <;> decide

end Precedence

/-- The operators of binary expressions, without the less-than sign, which may also open the type
    arguments of a call. -/
def TokenKind.binaryOperators : List TokenKind :=
  [plus, minus, star, slash, percent, caret, equalEqual, bangEqual, lessEqual, greater,
    greaterEqual, kwAnd, kwOr]

/-- The tokens that an expression may begin with, the word `if` and the word `new` left out. -/
def TokenKind.operandStarts : List TokenKind :=
  [identifier, number, string, boolean, kwThis, kwSuper, leftParen, leftBracket, minus, kwNot,
    kwAsync]

namespace Precedence

theorem ofOperator_lt_rightLimit {operator : TokenKind} {level : Precedence}
    (binary : operator ∈ TokenKind.binaryOperators) (h : ofLeftOperand operator ≤ level) :
    ofOperator operator < level.rightLimit := by
  simp only [TokenKind.binaryOperators, List.mem_cons, List.not_mem_nil, or_false] at binary
  rcases binary with rfl | rfl | rfl | rfl | rfl | rfl | rfl | rfl | rfl | rfl | rfl | rfl | rfl <;>
    (cases level <;> revert h <;> decide)

theorem rightLimit_ofOperator {operator : TokenKind}
    (binary : operator ∈ TokenKind.binaryOperators) :
    (ofOperator operator).rightLimit = ofRightOperand operator := by
  revert operator
  decide

theorem ofOperator_le_ofLeftOperand (operator : TokenKind) :
    ofOperator operator ≤ ofLeftOperand operator := by
  cases operator <;> decide

/-- The right operand of an operator can be asked for. -/
theorem assignment_le_ofRightOperand (operator : TokenKind) :
    assignment ≤ ofRightOperand operator := by
  cases operator <;> decide

end Precedence

namespace Form

/-- How tightly an expression holds together. -/
def level {α : Type} : Form α → Precedence
  | .assignment .. => .assignment
  | .binary _ operator _ => .ofOperator operator.kind
  | .instanceOf .. => .comparison
  | .unary .. | .async _ => .unary
  | .call .. | .index .. | .member .. => .call
  | _ => .primary

/-- Every operand of an expression is of the level that the table asks for at its place. -/
def RespectsTable : Form Node → Prop
  | .unary _ operand | .async operand => .unary ≤ operand.form.level
  | .binary left operator right =>
    .ofLeftOperand operator.kind ≤ left.form.level ∧
      .ofRightOperand operator.kind ≤ right.form.level
  | .assignment target _ => target.kind ∈ [.identifier, .memberExpr, .indexExpr]
  | .call operand _ _ | .index operand _ | .member operand _ => .call ≤ operand.form.level
  | _ => True

instance : DecidablePred RespectsTable := fun form =>
  match form with
  | .unary _ operand | .async operand =>
    inferInstanceAs (Decidable (.unary ≤ operand.form.level))
  | .binary left operator right =>
    inferInstanceAs (Decidable (.ofLeftOperand operator.kind ≤ left.form.level ∧
      .ofRightOperand operator.kind ≤ right.form.level))
  | .assignment target _ =>
    inferInstanceAs (Decidable (target.kind ∈ [.identifier, .memberExpr, .indexExpr]))
  | .call operand _ _ | .index operand _ | .member operand _ =>
    inferInstanceAs (Decidable (.call ≤ operand.form.level))
  | .variableDecl .. | .functionDecl .. | .classDecl .. | .importDecl .. | .wrapped _ | .new ..
  | .instanceOf .. | .array _ | .conditional .. | .elseBranch .. | .identifier _ | .this | .super
  | .literal .. | .switch .. | .forEach .. | .repeatTimes .. | .whileLoop .. | .tryCatch ..
  | .throwStmt _ | .returnStmt _ | .yieldStmt _ | .expressionStmt _ | .jumpStmt _ | .program _
  | .typeRef .. | .parameter .. | .generic .. | .classMember .. | .constructor ..
  | .importedName .. | .switchCase .. | .catchClause .. => isTrue trivial

end Form

namespace Parser

/-- A value can be assigned to names, members and elements. -/
theorem isAssignable_iff {n : Node} :
    isAssignable n.form = true ↔ n.kind ∈ [.identifier, .memberExpr, .indexExpr] := by
  obtain ⟨id, span, form⟩ := n
  cases form with
  | variableDecl name type value => cases value <;> simp [isAssignable, Node.kind, Form.kind]
  | functionDecl name generics params result body =>
    cases body <;> simp [isAssignable, Node.kind, Form.kind]
  | conditional use => cases use <;> simp [isAssignable, Node.kind, Form.kind]
  | elseBranch use => cases use <;> simp [isAssignable, Node.kind, Form.kind]
  | literal sort => cases sort <;> simp [isAssignable, Node.kind, Form.kind]
  | jumpStmt jump => cases jump <;> simp [isAssignable, Node.kind, Form.kind]
  | _ => simp [isAssignable, Node.kind, Form.kind]

/-- What can be assigned to binds at least as tightly as a call. -/
theorem call_le_level {form : Form Node} (assignable : isAssignable form = true) :
    .call ≤ form.level := by
  cases form <;>
    first | exact absurd assignable Bool.false_ne_true | (simp only [Form.level]; decide)

end Parser

/-- Everywhere in a tree the operands respect the table. -/
def Node.Grouped (n : Node) : Prop := ∀ m ∈ n.descendants, m.form.RespectsTable

namespace Node.Grouped

instance : DecidablePred Node.Grouped := fun n =>
  inferInstanceAs (Decidable (∀ m ∈ n.descendants, m.form.RespectsTable))

theorem respectsTable {n : Node} (grouped : n.Grouped) : n.form.RespectsTable := by
  refine grouped n ?_
  rw [Node.descendants_eq]
  exact List.mem_cons_self

theorem part {n part : Node} (grouped : n.Grouped) (h : part ∈ n.form.parts) : part.Grouped := by
  intro m hm
  refine grouped m ?_
  rw [Node.descendants_eq]
  exact List.mem_cons_of_mem _ (List.mem_flatMap.2 ⟨part, Node.mem_children.2 h, hm⟩)

end Node.Grouped

/-- The kind of token that a literal is written with. -/
def Literal.tokenKind : Literal → TokenKind
  | .number => .number
  | .string => .string
  | .boolean => .boolean

mutual

/-- The tokens that an expression is written with. -/
inductive Spells : Node → List Token → Prop
  | identifier {id span} {t : Token} (kind : t.kind = .identifier) :
    Spells ⟨id, span, .identifier t⟩ [t]
  | literal {id span} (sort : Literal) {t : Token} (kind : t.kind = sort.tokenKind) :
    Spells ⟨id, span, .literal sort t⟩ [t]
  | this {id span} {t : Token} (kind : t.kind = .kwThis) : Spells ⟨id, span, .this⟩ [t]
  | super {id span} {t : Token} (kind : t.kind = .kwSuper) : Spells ⟨id, span, .super⟩ [t]
  | wrapped {id span inner ts} {left right : Token} (opens : left.kind = .leftParen)
    (content : Spells inner ts) (closes : right.kind = .rightParen) :
    Spells ⟨id, span, .wrapped inner⟩ (left :: (ts ++ [right]))
  | array {id span elements ts} {left right : Token} (opens : left.kind = .leftBracket)
    (content : SpellsAll elements ts) (closes : right.kind = .rightBracket) :
    Spells ⟨id, span, .array elements⟩ (left :: (ts ++ [right]))
  | unary {id span operand ts} {operator : Token}
    (kind : operator.kind = .minus ∨ operator.kind = .kwNot) (inner : Spells operand ts) :
    Spells ⟨id, span, .unary operator operand⟩ (operator :: ts)
  | async {id span operand ts} {word : Token} (kind : word.kind = .kwAsync)
    (inner : Spells operand ts) : Spells ⟨id, span, .async operand⟩ (word :: ts)
  | binary {id span left right ts us} {operator : Token}
    (kind : operator.kind ∈ TokenKind.binaryOperators) (first : Spells left ts)
    (second : Spells right us) :
    Spells ⟨id, span, .binary left operator right⟩ (ts ++ operator :: us)
  | assignment {id span target value ts us} {sign : Token} (kind : sign.kind = .equal)
    (first : Spells target ts) (second : Spells value us) :
    Spells ⟨id, span, .assignment target value⟩ (ts ++ sign :: us)
  | call {id span callee args ts us} {left right : Token} (first : Spells callee ts)
    (opens : left.kind = .leftParen) (content : SpellsAll args us)
    (closes : right.kind = .rightParen) :
    Spells ⟨id, span, .call callee [] args⟩ (ts ++ left :: (us ++ [right]))
  | index {id span object subscript ts us} {left right : Token} (first : Spells object ts)
    (opens : left.kind = .leftBracket) (content : Spells subscript us)
    (closes : right.kind = .rightBracket) :
    Spells ⟨id, span, .index object subscript⟩ (ts ++ left :: (us ++ [right]))
  | member {id span object ts} {dot property : Token} (first : Spells object ts)
    (kind : dot.kind = .dot) (named : property.kind = .identifier ∨ property.kind = .kwSuper) :
    Spells ⟨id, span, .member object property⟩ (ts ++ [dot, property])

/-- The tokens of a list of expressions with commas between them and perhaps one behind the last. -/
inductive SpellsAll : List Node → List Token → Prop
  | nil : SpellsAll [] []
  | last {e ts} (only : Spells e ts) : SpellsAll [e] ts
  | cons {e es ts us} {comma : Token} (first : Spells e ts) (kind : comma.kind = .comma)
    (others : SpellsAll es us) : SpellsAll (e :: es) (ts ++ comma :: us)

end

/-- An expression begins with a token that begins an operand. -/
theorem Spells.starts {e : Node} {ts : List Token} :
    Spells e ts → ∃ t us, ts = t :: us ∧ t.kind ∈ TokenKind.operandStarts
  | .identifier kind | .this kind | .super kind | .async kind _ =>
    ⟨_, _, rfl, by rw [kind]; decide⟩
  | .literal sort kind => ⟨_, _, rfl, by rw [kind]; cases sort <;> decide⟩
  | .wrapped opens _ _ | .array opens _ _ => ⟨_, _, rfl, by rw [opens]; decide⟩
  | .unary kind _ => ⟨_, _, rfl, by rcases kind with kind | kind <;> rw [kind] <;> decide⟩
  | .binary _ first _ | .assignment _ first _ | .call first _ _ _ | .index first _ _ _
  | .member first _ _ => by
    obtain ⟨t, us, rfl, starts⟩ := first.starts
    exact ⟨t, _, rfl, starts⟩

/-- Every expression binds at least as tightly as an assignment. -/
theorem Spells.assignment_le_level {e : Node} {ts : List Token} (spelled : Spells e ts) :
    .assignment ≤ e.form.level := by
  have tight : ∀ operator ∈ TokenKind.binaryOperators,
      Precedence.assignment ≤ Precedence.ofOperator operator := by decide
  cases spelled with
  | binary kind first second => exact tight _ kind
  | _ => simp only [Form.level]; decide

mutual

theorem Spells.no_eof {e : Node} {ts : List Token} : Spells e ts → ∀ t ∈ ts, t.kind ≠ .eof
  | .identifier kind | .this kind | .super kind => by simp [kind]
  | .literal sort kind => by cases sort <;> simp [kind, Literal.tokenKind]
  | .wrapped opens content closes => by
    have inner := content.no_eof
    grind
  | .array opens content closes => by
    have inner := content.no_eof
    grind
  | .unary kind inner => by
    have inner := inner.no_eof
    grind
  | .async kind inner => by
    have inner := inner.no_eof
    grind
  | .binary kind first second => by
    have before := first.no_eof
    have behind := second.no_eof
    have joins : TokenKind.eof ∉ TokenKind.binaryOperators := by decide
    grind
  | .assignment kind first second => by
    have before := first.no_eof
    have behind := second.no_eof
    grind
  | .call first opens content closes => by
    have before := first.no_eof
    have inner := content.no_eof
    grind
  | .index first opens content closes => by
    have before := first.no_eof
    have inner := content.no_eof
    grind
  | .member first kind named => by
    have before := first.no_eof
    grind

theorem SpellsAll.no_eof {es : List Node} {ts : List Token} :
    SpellsAll es ts → ∀ t ∈ ts, t.kind ≠ .eof
  | .nil => by simp
  | .last only => only.no_eof
  | .cons first kind others => by
    have before := first.no_eof
    have behind := others.no_eof
    grind

end

end TekLang
