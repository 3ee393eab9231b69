import TekLang.Proofs.Grammar.Grouping
import TekLang.Proofs.Grammar.Run
import TekLang.Proofs.Grammar.Tape
import TekLang.Proofs.Node.Bare

/-!
# Writing an expression and reading it back

A grouped expression is read back from its own tokens. The operators of an expression are read by a
loop that grows it from left to right, so the induction is not on whole runs: an expression that is
read at a level takes the loop of that level to the place behind its tokens, and what comes next
decides whether the loop goes on from there.
-/

namespace TekLang

namespace Parser

/-- The end of input is no operator. -/
theorem exists_cons_of_binds {c : Cursor} {level : Precedence} (askable : .assignment ≤ level)
    (binds : level ≤ .ofOperator c.nextKind) : ∃ t rest, c.rest = t :: rest := by
  refine List.exists_cons_of_ne_nil fun ended => ?_
  rw [Cursor.nextKind_of_rest_nil ended] at binds
  exact absurd (Precedence.le_trans askable binds) (by decide)

/-- The loop ends in front of a token that does not bind tightly enough. -/
theorem operators_of_lt {c : Cursor} {level : Precedence}
    (weak : .ofOperator c.nextKind < level) (inner : Construct → Parser Node)
    (loop : List Token) (left : Node) : operators inner level loop left c = .ok left c := by
  cases loop with
  | nil => rfl
  | cons round rounds =>
    unfold operators
    rw [bind_of_ok (nextKind_apply c), if_neg (Precedence.not_le_of_lt weak)]
    rfl

/-- The loop goes on behind an operator that binds tightly enough. -/
theorem operators_of_le {c : Cursor} {t : Token} {rest : List Token} {level : Precedence}
    (h : c.rest = t :: rest) (tight : level ≤ .ofOperator t.kind)
    (inner : Construct → Parser Node) (round : Token) (rounds : List Token) (left : Node) :
    operators inner level (round :: rounds) left c =
      (extend inner left t >>= operators inner level rounds) (c.behind t rest) := by
  have next := Cursor.nextKind_of_rest_cons h
  rw [operators, bind_of_ok (nextKind_apply c), next, if_pos tight,
    bind_of_ok (advance_of_rest_cons h)]

theorem extend_of_binary {operator : Token} (binary : operator.kind ∈ TokenKind.binaryOperators)
    (inner : Construct → Parser Node) (left : Node) :
    extend inner left operator = Parser.binary inner left operator := by
  unfold extend
  revert binary
  cases operator.kind <;> first | (intro; rfl) | (intro binary; exact absurd binary (by decide))

theorem isAssignable_of_bare_eq {a b : Node} (same : a.bare = b.bare) :
    isAssignable a.form = isAssignable b.form := by
  have forms := Node.map_form_eq_of_bare_eq same
  have kept : ∀ form : Form Node, isAssignable (form.map Node.bare) = isAssignable form := by
    intro form
    cases form <;> rfl
  rw [← kept a.form, ← kept b.form, forms]

/-- What is left of a loop over the tokens behind a cursor when the loop is entered again. -/
theorem exists_cons_of_length_le {c : Cursor} {t : Token} {rest loop : List Token}
    (h : c.rest = t :: rest) (enough : c.rest.length ≤ loop.length) :
    ∃ round rounds, loop = round :: rounds ∧ rest.length ≤ rounds.length := by
  cases loop with
  | nil => simp [h] at enough
  | cons round rounds =>
    refine ⟨round, rounds, rfl, ?_⟩
    simpa [h] using enough

end Parser

open TekLang.Parser

/-- Reading at any level that the expression `e` has comes to the place behind the tokens `ts` with
    `e` as what has been read so far, if the token there is not taken into the last operand. -/
def ReadsAs (e : Node) (ts : List Token) : Prop :=
  ∀ (rounds : List Token) (level : Precedence) (c : Cursor) (next : Token) (more : List Token),
    c.rest = ts ++ next :: more → c.rest.length ≤ rounds.length + 1 → level ≤ e.form.level →
    .ofOperator next.kind < e.form.level.rightLimit →
    ∃ e' c' loop, e'.bare = e.bare ∧ c'.rest = next :: more ∧ c'.rest.length ≤ loop.length ∧
      expressionWith (constructWithin rounds) level c =
        operators (constructWithin rounds) level loop e' c'

/-- Reading on ends behind the tokens `ts` with `e` if the next token is weaker than the level. -/
theorem ReadsAs.construct {e : Node} {ts : List Token} (reads : ReadsAs e ts)
    {rounds : List Token} {level : Precedence} {c : Cursor} {next : Token} {more : List Token}
    (h : c.rest = ts ++ next :: more) (enough : c.rest.length ≤ rounds.length)
    (tight : level ≤ e.form.level) (weak : .ofOperator next.kind < level) :
    ∃ e' c', e'.bare = e.bare ∧ c'.rest = next :: more ∧
      constructWithin rounds (.expression level) c = .ok e' c' := by
  cases rounds with
  | nil => simp [h] at enough
  | cons round rounds =>
    have limit : .ofOperator next.kind < e.form.level.rightLimit :=
      Precedence.lt_of_lt_of_le weak (Precedence.le_trans tight (Precedence.le_rightLimit _))
    obtain ⟨e', c', loop, same, left, -, run⟩ :=
      reads rounds level c next more h (by simpa using enough) tight limit
    refine ⟨e', c', same, left, ?_⟩
    have stops : .ofOperator c'.nextKind < level := by
      rw [Cursor.nextKind_of_rest_cons left]
      exact weak
    rw [constructWithin, run, operators_of_lt stops]

/-- An expression that an operand alone makes up. -/
theorem ReadsAs.of_operand {e : Node} {t : Token} {ts : List Token}
    (run : ∀ (rounds : List Token) (c : Cursor) (next : Token) (more : List Token),
      c.rest = ts ++ next :: more → c.rest.length ≤ rounds.length →
      .ofOperator next.kind < e.form.level.rightLimit →
      ∃ e' c', e'.bare = e.bare ∧ c'.rest = next :: more ∧
        operand (constructWithin rounds) t c = .ok e' c') :
    ReadsAs e (t :: ts) := by
  intro rounds level c next more h enough _ weak
  rw [List.cons_append] at h
  have few : (c.behind t (ts ++ next :: more)).rest.length ≤ rounds.length := by
    rw [h, List.length_cons] at enough
    exact Nat.le_of_succ_le_succ enough
  obtain ⟨e', c', same, left, first⟩ := run rounds (c.behind t (ts ++ next :: more)) next more rfl
    few weak
  refine ⟨e', c', c'.rest, same, left, Nat.le_refl _, ?_⟩
  rw [expressionWith_of_rest_cons h, bind_of_ok first, get_bind]

/-- An expression that an operator makes of the expression in front of it. -/
theorem ReadsAs.of_extend {left e : Node} {operator : Token} {ts us : List Token}
    (first : ReadsAs left ts) (joins : .ofOperator operator.kind < left.form.level.rightLimit)
    (looser : e.form.level ≤ left.form.level) (fits : e.form.level ≤ .ofOperator operator.kind)
    (run : ∀ (rounds : List Token) (left' : Node) (c : Cursor) (next : Token) (more : List Token),
      left'.bare = left.bare → c.rest = us ++ next :: more → c.rest.length ≤ rounds.length →
      .ofOperator next.kind < e.form.level.rightLimit →
      ∃ e' c', e'.bare = e.bare ∧ c'.rest = next :: more ∧
        extend (constructWithin rounds) left' operator c = .ok e' c') :
    ReadsAs e (ts ++ operator :: us) := by
  intro rounds level c next more h enough tight weak
  obtain ⟨left', c₁, loop, same₁, rest₁, long, begun⟩ :=
    first rounds level c operator (us ++ next :: more) (by simpa using h) enough
      (Precedence.le_trans tight looser) joins
  obtain ⟨round, loop, rfl, remaining⟩ := exists_cons_of_length_le rest₁ long
  have few : (c₁.behind operator (us ++ next :: more)).rest.length ≤ rounds.length := by
    rw [h] at enough
    simp only [Cursor.rest_behind, List.length_append, List.length_cons] at enough ⊢
    omega
  obtain ⟨e', c₂, same₂, rest₂, extended⟩ :=
    run rounds left' (c₁.behind operator (us ++ next :: more)) next more same₁ rfl few weak
  refine ⟨e', c₂, loop, same₂, rest₂, ?_, ?_⟩
  · rw [rest₂]
    rw [List.length_append] at remaining
    omega
  · rw [begun, operators_of_le rest₁ (Precedence.le_trans tight fits), bind_of_ok extended]

/-- The expressions of a list are read up to the bracket behind their tokens. -/
def ReadsAllAs (es : List Node) (ts : List Token) : Prop :=
  ∀ (rounds loop : List Token) (separator : Parser Unit) (close : Token) (c : Cursor)
    (more : List Token),
    close.kind = .rightParen ∨ close.kind = .rightBracket → c.rest = ts ++ close :: more →
    c.rest.length ≤ rounds.length → c.rest.length ≤ loop.length →
    (∀ c, c.nextKind = close.kind → separator c = .ok () c) →
    (∀ c t rest, c.rest = t :: rest → t.kind = .comma → separator c = .ok () (c.behind t rest)) →
    ∃ es' c', es'.map Node.bare = es.map Node.bare ∧ c'.rest = more ∧
      itemsUntil close.kind
        (unlessAtEnd (.token close.kind) (expression (constructWithin rounds))) separator loop c =
        .ok es' c'

/-- The arguments of a call and the elements of an array. -/
theorem ReadsAllAs.arguments {es : List Node} {ts : List Token} (reads : ReadsAllAs es ts)
    {rounds : List Token} {close : Token} {c : Cursor} {more : List Token} {kind : TokenKind}
    (same : close.kind = kind) (bracket : kind = .rightParen ∨ kind = .rightBracket)
    (h : c.rest = ts ++ close :: more) (enough : c.rest.length ≤ rounds.length) :
    ∃ es' c', es'.map Node.bare = es.map Node.bare ∧ c'.rest = more ∧
      Parser.arguments (constructWithin rounds) kind c = .ok es' c' := by
  subst same
  unfold Parser.arguments commaSequence
  rw [get_bind]
  refine reads rounds c.rest _ close c more bracket h enough (Nat.le_refl _) ?_ ?_
  · intro c closes
    exact comma_of_close closes _
  · intro c t rest ahead same
    have other : close.kind ≠ .comma := by
      rcases bracket with bracket | bracket <;> rw [bracket] <;> decide
    exact comma_of_kind ahead same other _

namespace ReadsAs

section Operands

variable {id : NodeId} {span : Span}

/-- An operand that is a single token. -/
theorem single {t : Token} {form : Form Node}
    (reads : ∀ inner : Construct → Parser Node, operand inner t = node t.span form) :
    ReadsAs ⟨id, span, form⟩ [t] := by
  refine .of_operand ?_
  intro rounds c next more h _ _
  refine ⟨⟨c.nextId, t.span, form⟩, c.numbered, ?_, h, ?_⟩
  · rw [Node.bare_mk, Node.bare_mk]
  · rw [reads, node_apply]

theorem wrapped {inner : Node} {ts : List Token} {left right : Token} (reads : ReadsAs inner ts)
    (opens : left.kind = .leftParen) (closes : right.kind = .rightParen)
    (loose : .assignment ≤ inner.form.level) :
    ReadsAs ⟨id, span, .wrapped inner⟩ (left :: (ts ++ [right])) := by
  refine .of_operand ?_
  intro rounds c next more h enough _
  have weak : .ofOperator right.kind < Precedence.assignment := by
    rw [closes]
    decide
  have ahead : c.rest = ts ++ right :: next :: more := by simpa using h
  obtain ⟨inner', c₁, same, rest₁, run⟩ := reads.construct ahead enough loose weak
  refine ⟨⟨c₁.nextId, left.span.through right.span, .wrapped inner'⟩,
    (c₁.behind right (next :: more)).numbered, ?_, ?_, ?_⟩
  · rw [Node.bare_mk, Node.bare_mk, Form.map, Form.map, same]
  · rfl
  · have takes := expectAs_of_kind rest₁ closes (.token .rightParen) (.after .expression)
    simp only [operand, opens]
    unfold Parser.wrapped expression expect
    rw [bind_of_ok run, bind_of_ok takes]
    rfl

theorem array {elements : List Node} {ts : List Token} {left right : Token}
    (reads : ReadsAllAs elements ts) (opens : left.kind = .leftBracket)
    (closes : right.kind = .rightBracket) :
    ReadsAs ⟨id, span, .array elements⟩ (left :: (ts ++ [right])) := by
  refine .of_operand ?_
  intro rounds c next more h enough _
  have ahead : c.rest = ts ++ right :: next :: more := by simpa using h
  obtain ⟨elements', c₁, same, rest₁, run⟩ := reads.arguments closes (.inr rfl) ahead enough
  refine ⟨⟨c₁.nextId, left.span.through c₁.last.span, .array elements'⟩,
    c₁.numbered, ?_, ?_, ?_⟩
  · rw [Node.bare_mk, Node.bare_mk, Form.map, Form.map, same]
  · exact rest₁
  · simp only [operand, opens]
    unfold Parser.array
    rw [bind_of_ok run]
    rfl

theorem unary {inner : Node} {ts : List Token} {operator : Token} (reads : ReadsAs inner ts)
    (kind : operator.kind = .minus ∨ operator.kind = .kwNot)
    (tight : .unary ≤ inner.form.level) :
    ReadsAs ⟨id, span, .unary operator inner⟩ (operator :: ts) := by
  refine .of_operand ?_
  intro rounds c next more h enough weak
  obtain ⟨inner', c₁, same, rest₁, run⟩ := reads.construct h enough tight weak
  refine ⟨⟨c₁.nextId, operator.span.through inner'.span, .unary operator inner'⟩,
    c₁.numbered, ?_, ?_, ?_⟩
  · rw [Node.bare_mk, Node.bare_mk, Form.map, Form.map, same]
  · exact rest₁
  · have begins : operand (constructWithin rounds : Construct → Parser Node) operator =
        Parser.unary (constructWithin rounds) operator := by
      unfold operand
      rcases kind with kind | kind <;> rw [kind]
    rw [begins]
    unfold Parser.unary
    rw [bind_of_ok run]
    rfl

theorem async {inner : Node} {ts : List Token} {word : Token} (reads : ReadsAs inner ts)
    (kind : word.kind = .kwAsync) (tight : .unary ≤ inner.form.level) :
    ReadsAs ⟨id, span, .async inner⟩ (word :: ts) := by
  refine .of_operand ?_
  intro rounds c next more h enough weak
  obtain ⟨inner', c₁, same, rest₁, run⟩ := reads.construct h enough tight weak
  refine ⟨⟨c₁.nextId, word.span.through inner'.span, .async inner'⟩,
    c₁.numbered, ?_, ?_, ?_⟩
  · rw [Node.bare_mk, Node.bare_mk, Form.map, Form.map, same]
  · exact rest₁
  · simp only [operand, kind]
    unfold Parser.async
    rw [bind_of_ok run]
    rfl

end Operands

section Operators

variable {id : NodeId} {span : Span}

theorem binary {left right : Node} {ts us : List Token} {operator : Token}
    (first : ReadsAs left ts) (second : ReadsAs right us)
    (kind : operator.kind ∈ TokenKind.binaryOperators)
    (leftTight : .ofLeftOperand operator.kind ≤ left.form.level)
    (rightTight : .ofRightOperand operator.kind ≤ right.form.level) :
    ReadsAs ⟨id, span, .binary left operator right⟩ (ts ++ operator :: us) := by
  refine first.of_extend (Precedence.ofOperator_lt_rightLimit kind leftTight)
    (Precedence.le_trans (Precedence.ofOperator_le_ofLeftOperand _) leftTight)
    (Precedence.le_refl _) ?_
  intro rounds left' c next more same h enough weak
  have limit : .ofOperator next.kind < Precedence.ofRightOperand operator.kind := by
    rw [← Precedence.rightLimit_ofOperator kind]
    exact weak
  obtain ⟨right', c₁, same₁, rest₁, run⟩ := second.construct h enough rightTight limit
  refine ⟨⟨c₁.nextId, left'.span.through right'.span, .binary left' operator right'⟩,
    c₁.numbered, ?_, rest₁, ?_⟩
  · rw [Node.bare_mk, Node.bare_mk, Form.map, Form.map, same, same₁]
  · rw [extend_of_binary kind]
    unfold Parser.binary
    rw [bind_of_ok run]
    rfl

theorem assignment {target value : Node} {ts us : List Token} {sign : Token}
    (first : ReadsAs target ts) (second : ReadsAs value us) (kind : sign.kind = .equal)
    (assignable : target.kind ∈ [.identifier, .memberExpr, .indexExpr])
    (loose : .assignment ≤ value.form.level) :
    ReadsAs ⟨id, span, .assignment target value⟩ (ts ++ sign :: us) := by
  have tight := call_le_level (isAssignable_iff.2 assignable)
  refine first.of_extend ?_ ?_ ?_ ?_
  · rw [kind]
    exact Precedence.assignment_lt_rightLimit tight
  · exact Precedence.le_trans (show .assignment ≤ Precedence.call by decide) tight
  · rw [kind]
    exact Precedence.le_refl _
  intro rounds target' c next more same h enough weak
  obtain ⟨value', c₁, same₁, rest₁, run⟩ := second.construct h enough loose weak
  refine ⟨⟨c₁.nextId, target'.span.through value'.span, .assignment target' value'⟩,
    c₁.numbered, ?_, rest₁, ?_⟩
  · rw [Node.bare_mk, Node.bare_mk, Form.map, Form.map, same, same₁]
  · have allowed : isAssignable target'.form = true := by
      rw [isAssignable_of_bare_eq same]
      exact isAssignable_iff.2 assignable
    have value_ : (Precedence.ofRightOperand sign.kind) = .assignment := by
      rw [kind]
      rfl
    simp only [extend, kind]
    unfold Parser.assignment
    rw [allowed, value_]
    change (constructWithin rounds _ >>= _) c = _
    rw [bind_of_ok run]
    rfl

theorem call {callee : Node} {args : List Node} {ts us : List Token} {left right : Token}
    (first : ReadsAs callee ts) (second : ReadsAllAs args us) (opens : left.kind = .leftParen)
    (closes : right.kind = .rightParen) (tight : .call ≤ callee.form.level) :
    ReadsAs ⟨id, span, .call callee [] args⟩ (ts ++ left :: (us ++ [right])) := by
  refine first.of_extend ?_ tight ?_ ?_
  · rw [opens]
    exact Precedence.call_lt_rightLimit tight
  · rw [opens]
    exact Precedence.le_refl _
  intro rounds callee' c next more same h enough _
  have ahead : c.rest = us ++ right :: next :: more := by simpa using h
  obtain ⟨args', c₁, same₁, rest₁, run⟩ := second.arguments closes (.inl rfl) ahead enough
  refine ⟨⟨c₁.nextId, callee'.span.through c₁.last.span, .call callee' [] args'⟩,
    c₁.numbered, ?_, rest₁, ?_⟩
  · rw [Node.bare_mk, Node.bare_mk, Form.map, Form.map, same, same₁, List.map_nil]
  · simp only [extend, opens]
    unfold Parser.call
    rw [bind_of_ok run]
    rfl

theorem index {object subscript : Node} {ts us : List Token} {left right : Token}
    (first : ReadsAs object ts) (second : ReadsAs subscript us) (opens : left.kind = .leftBracket)
    (closes : right.kind = .rightBracket) (tight : .call ≤ object.form.level)
    (loose : .assignment ≤ subscript.form.level) :
    ReadsAs ⟨id, span, .index object subscript⟩ (ts ++ left :: (us ++ [right])) := by
  refine first.of_extend ?_ tight ?_ ?_
  · rw [opens]
    exact Precedence.call_lt_rightLimit tight
  · rw [opens]
    exact Precedence.le_refl _
  intro rounds object' c next more same h enough _
  have ahead : c.rest = us ++ right :: next :: more := by simpa using h
  have weak : .ofOperator right.kind < Precedence.assignment := by
    rw [closes]
    decide
  obtain ⟨subscript', c₁, same₁, rest₁, run⟩ := second.construct ahead enough loose weak
  refine ⟨⟨c₁.nextId, object'.span.through right.span, .index object' subscript'⟩,
    (c₁.behind right (next :: more)).numbered, ?_, rfl, ?_⟩
  · rw [Node.bare_mk, Node.bare_mk, Form.map, Form.map, same, same₁]
  · have takes := expectAs_of_kind rest₁ closes (.token .rightBracket) (.after .index)
    simp only [extend, opens]
    unfold Parser.index expression expect
    rw [bind_of_ok run, bind_of_ok takes]
    rfl

theorem member {object : Node} {ts : List Token} {dot property : Token} (first : ReadsAs object ts)
    (kind : dot.kind = .dot) (named : property.kind = .identifier ∨ property.kind = .kwSuper)
    (tight : .call ≤ object.form.level) :
    ReadsAs ⟨id, span, .member object property⟩ (ts ++ [dot, property]) := by
  refine first.of_extend ?_ tight ?_ ?_
  · rw [kind]
    exact Precedence.call_lt_rightLimit tight
  · rw [kind]
    exact Precedence.le_refl _
  intro rounds object' c next more same h _ _
  have next_ : c.nextKind = .identifier ∨ c.nextKind = .kwSuper := by
    rw [Cursor.nextKind_of_rest_cons h]
    exact named
  refine ⟨⟨c.nextId, object'.span.through property.span, .member object' property⟩,
    (c.behind property (next :: more)).numbered, ?_, rfl, ?_⟩
  · rw [Node.bare_mk, Node.bare_mk, Form.map, Form.map, same]
  · simp only [extend, kind]
    unfold Parser.member
    rw [bind_of_ok (nextKind_apply c), if_pos next_, bind_of_ok (advance_of_rest_cons h)]
    rfl

end Operators

end ReadsAs

namespace ReadsAllAs

theorem nil : ReadsAllAs [] [] := by
  intro rounds loop separator close c more bracket h _ long _ _
  obtain ⟨round, loop, rfl, -⟩ := exists_cons_of_length_le h long
  refine ⟨[], c.behind close more, rfl, rfl, ?_⟩
  rw [itemsUntil, bind_of_ok (accept_of_kind h rfl)]
  rfl

/-- An expression of a list is read as an item, for it is not mistaken for the closing bracket. -/
theorem item {e : Node} {ts : List Token} (spelled : Spells e ts) (reads : ReadsAs e ts)
    {rounds : List Token} {close next : Token} {c : Cursor} {more : List Token}
    (bracket : close.kind = .rightParen ∨ close.kind = .rightBracket)
    (h : c.rest = ts ++ next :: more) (enough : c.rest.length ≤ rounds.length)
    (weak : .ofOperator next.kind < Precedence.assignment) :
    accept close.kind c = .ok false c ∧
      ∃ e' c', e'.bare = e.bare ∧ c'.rest = next :: more ∧
        unlessAtEnd (.token close.kind) (expression (constructWithin rounds)) c = .ok e' c' := by
  obtain ⟨t, us, rfl, kind⟩ := spelled.starts
  rw [List.cons_append] at h
  constructor
  · refine accept_of_ne ?_
    rw [Cursor.nextKind_of_rest_cons h]
    intro closes
    rw [closes] at kind
    rcases bracket with bracket | bracket <;>
      (rw [bracket] at kind; exact absurd kind (by decide))
  · obtain ⟨e', c', same, rest, run⟩ := reads.construct h enough spelled.assignment_le_level weak
    refine ⟨e', c', same, rest, ?_⟩
    rw [unlessAtEnd_of_rest_cons h]
    exact run

theorem last {e : Node} {ts : List Token} (spelled : Spells e ts) (reads : ReadsAs e ts) :
    ReadsAllAs [e] ts := by
  intro rounds loop separator close c more bracket h enough long skips _
  have weak : .ofOperator close.kind < Precedence.assignment := by
    rcases bracket with bracket | bracket <;> rw [bracket] <;> decide
  obtain ⟨other, e', c₁, same, rest₁, run⟩ := item spelled reads bracket h enough weak
  obtain ⟨t, us, rfl, -⟩ := spelled.starts
  obtain ⟨round, loop, rfl, remaining⟩ := exists_cons_of_length_le h long
  cases loop with
  | nil => simp at remaining
  | cons round loop =>
    refine ⟨[e'], c₁.behind close more, by rw [List.map_cons, same]; rfl, rfl, ?_⟩
    have ends : c₁.nextKind = close.kind := Cursor.nextKind_of_rest_cons rest₁
    rw [itemsUntil, bind_of_ok other]
    change (unlessAtEnd _ _ >>= _) c = _
    rw [bind_of_ok run, bind_of_ok (skips c₁ ends), itemsUntil]
    simp only [bind_apply, accept_of_kind rest₁ rfl]
    rfl

theorem cons {e : Node} {es : List Node} {ts us : List Token} {comma : Token}
    (spelled : Spells e ts) (reads : ReadsAs e ts) (kind : comma.kind = .comma)
    (others : ReadsAllAs es us) : ReadsAllAs (e :: es) (ts ++ comma :: us) := by
  intro rounds loop separator close c more bracket h enough long skips takes
  have ahead : c.rest = ts ++ comma :: (us ++ close :: more) := by simpa using h
  have weak : .ofOperator comma.kind < Precedence.assignment := by
    rw [kind]
    decide
  obtain ⟨other, e', c₁, same, rest₁, run⟩ := item spelled reads bracket ahead enough weak
  obtain ⟨t, vs, rfl, -⟩ := spelled.starts
  rw [ahead] at enough
  obtain ⟨round, loop, rfl, remaining⟩ := exists_cons_of_length_le ahead long
  have fewer : (us ++ close :: more).length ≤ rounds.length := by
    simp only [List.length_append, List.length_cons] at enough ⊢
    omega
  have shorter : (us ++ close :: more).length ≤ loop.length := by
    simp only [List.append_eq, List.length_append, List.length_cons] at remaining ⊢
    omega
  obtain ⟨es', c₂, sames, rest₂, run₂⟩ := others rounds loop separator close
    (c₁.behind comma (us ++ close :: more)) more bracket rfl fewer shorter skips takes
  refine ⟨e' :: es', c₂, by rw [List.map_cons, List.map_cons, same, sames], rest₂, ?_⟩
  rw [itemsUntil, bind_of_ok other]
  change (unlessAtEnd _ _ >>= _) c = _
  rw [bind_of_ok run, bind_of_ok (takes c₁ comma _ rest₁ kind), bind_of_ok run₂]
  rfl

end ReadsAllAs

mutual

/-- A grouped expression is read as the tokens it is written with. -/
theorem Spells.readsAs {e : Node} {ts : List Token} :
    Spells e ts → e.Grouped → ReadsAs e ts
  | .identifier kind, _ => .single fun _ => by simp only [operand, kind]
  | .literal sort kind, _ => .single fun _ => by
    cases sort <;> simp only [operand, kind, Literal.tokenKind]
  | .this kind, _ => .single fun _ => by simp only [operand, kind]
  | .super kind, _ => .single fun _ => by simp only [operand, kind]
  | .wrapped opens content closes, grouped =>
    .wrapped (content.readsAs (grouped.part (by simp [Form.parts]))) opens closes
      content.assignment_le_level
  | .array opens content closes, grouped =>
    .array (content.readsAllAs fun e he => grouped.part (by simpa [Form.parts] using he)) opens
      closes
  | .unary kind inner, grouped =>
    .unary (inner.readsAs (grouped.part (by simp [Form.parts]))) kind grouped.respectsTable
  | .async kind inner, grouped =>
    .async (inner.readsAs (grouped.part (by simp [Form.parts]))) kind grouped.respectsTable
  | .binary kind first second, grouped =>
    .binary (first.readsAs (grouped.part (by simp [Form.parts])))
      (second.readsAs (grouped.part (by simp [Form.parts]))) kind grouped.respectsTable.1
      grouped.respectsTable.2
  | .assignment kind first second, grouped =>
    .assignment (first.readsAs (grouped.part (by simp [Form.parts])))
      (second.readsAs (grouped.part (by simp [Form.parts]))) kind grouped.respectsTable
      second.assignment_le_level
  | .call first opens content closes, grouped =>
    .call (first.readsAs (grouped.part (by simp [Form.parts])))
      (content.readsAllAs fun e he => grouped.part (by simp [Form.parts, he])) opens closes
      grouped.respectsTable
  | .index first opens content closes, grouped =>
    .index (first.readsAs (grouped.part (by simp [Form.parts])))
      (content.readsAs (grouped.part (by simp [Form.parts]))) opens closes grouped.respectsTable
      content.assignment_le_level
  | .member first kind named, grouped =>
    .member (first.readsAs (grouped.part (by simp [Form.parts]))) kind named grouped.respectsTable

theorem SpellsAll.readsAllAs {es : List Node} {ts : List Token} :
    SpellsAll es ts → (∀ e ∈ es, e.Grouped) → ReadsAllAs es ts
  | .nil, _ => .nil
  | .last only, grouped => .last only (only.readsAs (grouped _ (by simp)))
  | .cons first kind others, grouped =>
    .cons first (first.readsAs (grouped _ (by simp))) kind
      (others.readsAllAs fun e he => grouped e (List.mem_cons_of_mem _ he))

end

namespace Parser

/-- What begins with an operand is an expression for its effect. -/
theorem declarationWith_of_operandStarts {c : Cursor} {t : Token} {rest : List Token}
    (h : c.rest = t :: rest) (kind : t.kind ∈ TokenKind.operandStarts)
    (inner : Construct → Parser Node) : declarationWith inner c = expressionStmt inner c := by
  unfold declarationWith
  rw [bind_of_ok (nextKind_apply c), Cursor.nextKind_of_rest_cons h]
  revert kind
  cases t.kind <;> first | (intro; rfl) | (intro kind; exact absurd kind (by decide))

/-- A grouped expression on a line of its own is a statement. -/
theorem construct_of_spells {e : Node} {ts : List Token} (spelled : Spells e ts)
    (grouped : e.Grouped) {c : Cursor} {newline : Token} {more : List Token}
    (h : c.rest = ts ++ newline :: more) (kind : newline.kind = .newline) :
    ∃ id span value c', value.bare = e.bare ∧ c'.rest = more ∧
      construct .declaration c = .ok ⟨id, span, .expressionStmt value⟩ c' := by
  obtain ⟨t, us, rfl, starts⟩ := spelled.starts
  have weak : .ofOperator newline.kind < Precedence.assignment := by
    rw [kind]
    decide
  have limit : .ofOperator newline.kind < e.form.level.rightLimit :=
    Precedence.lt_of_lt_of_le weak
      (Precedence.le_trans spelled.assignment_le_level (Precedence.le_rightLimit _))
  have ahead : c.rest = t :: (us ++ newline :: more) := h
  obtain ⟨value, c₁, loop, same, rest₁, -, run⟩ :=
    spelled.readsAs grouped (us ++ newline :: more) .assignment c newline more h
      (by rw [ahead]; exact Nat.le_refl _) spelled.assignment_le_level limit
  have stops : .ofOperator c₁.nextKind < Precedence.assignment := by
    rw [Cursor.nextKind_of_rest_cons rest₁]
    exact weak
  rw [operators_of_lt stops] at run
  refine ⟨c₁.nextId, value.span, value, (c₁.behind newline more).numbered, same, rfl, ?_⟩
  rw [construct_apply, ahead, constructWithin, declarationWith_of_operandStarts ahead starts]
  unfold expressionStmt endStatement
  rw [bind_of_ok run]
  simp only [bind_apply, accept_of_kind rest₁ kind]
  rfl

end Parser

/-- A grouped expression on a line of its own is read back without a fault, and it is all that the
    program consists of. -/
theorem parse_of_spells {e : Node} {ts : List Token} (spelled : Spells e ts) (grouped : e.Grouped)
    {newline eof : Token} (line : newline.kind = .newline) (ends : eof.kind = .eof) :
    (parse (ts ++ [newline, eof])).diagnostics = [] ∧
      (parse (ts ++ [newline, eof])).program.bare =
        (⟨0, default, .program [⟨0, default, .expressionStmt e⟩]⟩ : Node).bare := by
  have before : (Cursor.ofTokens (ts ++ [newline, eof])).rest = ts ++ [newline] := by
    refine (List.takeWhile_append_of_pos fun t ht => by simpa using spelled.no_eof t ht).trans ?_
    simp [line, ends]
  rw [parse_eq]
  generalize Cursor.ofTokens (ts ++ [newline, eof]) = c at before ⊢
  obtain ⟨id, span, value, c', same, rest, run⟩ := construct_of_spells spelled grouped before line
  obtain ⟨t, us, rfl, starts⟩ := spelled.starts
  have noLayout : ¬(t.kind = .newline ∨ t.kind = .outdent) := by
    rintro (kind | kind) <;> (rw [kind] at starts; exact absurd starts (by decide))
  have ahead : c.rest = t :: (us ++ [newline]) := before
  have top : topLevel c.rest c = ⟨[⟨id, span, .expressionStmt value⟩], [], c'.nextId⟩ := by
    nth_rewrite 1 [ahead]
    rw [topLevel_construct ahead noLayout, run]
    dsimp only
    rw [topLevel_ended _ rest]
  dsimp only
  rw [top]
  refine ⟨rfl, ?_⟩
  simp only [Node.bare_mk, Form.map, List.map_cons, List.map_nil, same]

namespace Sample

/-- A sign or a keyword, wherever it stands. -/
def sign (kind : TokenKind) : Token := ⟨kind, kind.describe, default⟩

theorem kind_sign (kind : TokenKind) : (sign kind).kind = kind := rfl

/-- The use of a name. -/
def use (name : String) : Node := ⟨0, default, .identifier ⟨.identifier, name, default⟩⟩

/-- Two expressions joined by an operator. -/
def join (left : Node) (operator : TokenKind) (right : Node) : Node :=
  ⟨0, default, .binary left (sign operator) right⟩

/-- The tree of `a[b] = -c ^ d ^ e(f) - (g - h)`. -/
def difference : Node :=
  ⟨0, default, .assignment ⟨0, default, .index (use "a") (use "b")⟩
    (join
      (join ⟨0, default, .unary (sign .minus) (use "c")⟩ .caret
        (join (use "d") .caret ⟨0, default, .call (use "e") [] [use "f"]⟩))
      .minus ⟨0, default, .wrapped (join (use "g") .minus (use "h"))⟩)⟩

/-- The tokens of that tree. -/
def differenceTokens : List Token :=
  let name (lexeme : String) : Token := ⟨.identifier, lexeme, default⟩
  [name "a", sign .leftBracket, name "b", sign .rightBracket, sign .equal, sign .minus, name "c",
    sign .caret, name "d", sign .caret, name "e", sign .leftParen, name "f", sign .rightParen,
    sign .minus, sign .leftParen, name "g", sign .minus, name "h", sign .rightParen]

theorem spells_difference : Spells difference differenceTokens := by
  have spelled : Spells difference _ :=
    .assignment (kind_sign .equal)
      (.index (.identifier rfl) (kind_sign .leftBracket) (.identifier rfl)
        (kind_sign .rightBracket))
      (.binary (by decide)
        (.binary (by decide) (.unary (.inl rfl) (.identifier rfl))
          (.binary (by decide) (.identifier rfl)
            (.call (.identifier rfl) (kind_sign .leftParen) (.last (.identifier rfl))
              (kind_sign .rightParen))))
        (.wrapped (kind_sign .leftParen)
          (.binary (by decide) (.identifier rfl) (.identifier rfl)) (kind_sign .rightParen)))
  exact spelled

end Sample

open Sample in
/-- A sign in front of a power, a chain of powers and one of differences, all in an assignment. -/
theorem parse_of_spells_difference :
    Spells difference differenceTokens ∧ difference.Grouped ∧
      (sign .newline).kind = .newline ∧ (sign .eof).kind = .eof ∧
      (parse (differenceTokens ++ [sign .newline, sign .eof])).diagnostics = [] ∧
      (parse (differenceTokens ++ [sign .newline, sign .eof])).program.bare =
        (⟨0, default, .program [⟨0, default, .expressionStmt difference⟩]⟩ : Node).bare :=
  ⟨spells_difference, by decide, rfl, rfl,
    parse_of_spells spells_difference (by decide) rfl rfl⟩

end TekLang
