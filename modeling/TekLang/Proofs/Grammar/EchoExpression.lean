import TekLang.Proofs.Grammar.EchoBlock
import TekLang.Proofs.Grammar.FollowsExpression

/-!
# Reading types and expressions in front of more tokens

A type ends with a word, so there is always more behind it. An expression ends with a word, too,
unless it ends with an if, whose block also ends the line: then, and only then, the tokens behind it
can be those of the next statement while operators are still looked for.
-/

namespace TekLang

open Placed (anywhere)

namespace Form

variable {α : Type}

/-- The expression that a construct ends with if no word and no block closes it. -/
def lastOperand? : Form α → Option α
  | unary _ operand | async operand => some operand
  | binary _ _ right => some right
  | assignment _ value | throwStmt value | yieldStmt value | expressionStmt value => some value
  | variableDecl _ _ value | returnStmt value => value
  | _ => none

end Form

/-- A node that ends with an if that has a value. -/
inductive Node.EndsInConditional : Node → Prop
  | here {id span condition body otherwise} :
    EndsInConditional ⟨id, span, .conditional .value condition body otherwise⟩
  | last {n m : Node} (ends : n.form.lastOperand? = some m) (conditional : EndsInConditional m) :
    EndsInConditional n

/-- Behind the node the block of an if was closed last, or a word was read. -/
def Node.StopsAt (n : Node) (c : Cursor) : Prop :=
  c.last.kind.isLayout = true → c.last.kind = .outdent ∧ n.EndsInConditional

/-- What ends with an operand stops where the operand does. -/
theorem Node.StopsAt.last {n m : Node} {c : Cursor} (stops : m.StopsAt c)
    (ends : n.form.lastOperand? = some m) : n.StopsAt c :=
  fun layout => ⟨(stops layout).1, .last ends (stops layout).2⟩

namespace Parser

theorem BehindWord.stopsAt {c : Cursor} (word : BehindWord c) (n : Node) : n.StopsAt c := by
  intro layout
  rw [word] at layout
  cases layout

variable {more : List Token} {Before : Cursor → Prop}

/-! ## Types -/

section Types

variable (follows : MayFollow more)

/-- A word that is asked for is the last that was read. -/
theorem expectAs_echoed {kind : TokenKind} (word : kind.isLayout = false) (wanted : Wanted)
    (setting : Setting) : Echoed more Before (fun _ => BehindWord)
      (expectAs kind wanted setting) (expectAs kind wanted setting) := by
  have some : kind ≠ .eof := by
    rintro rfl
    cases word
  exact (Echoed.expectAs some wanted setting).weaken (fun _ => id) fun _ _ holds =>
    .of_kind holds.2 word

theorem expect_echoed {kind : TokenKind} (word : kind.isLayout = false) (setting : Setting) :
    Echoed more Before (fun _ => BehindWord) (expect kind setting) (expect kind setting) :=
  expectAs_echoed word _ _

theorem expectName_echoed (setting : Setting) :
    Echoed more Before (fun _ => BehindWord) (expectName setting) (expectName setting) :=
  expectAs_echoed rfl _ _

include follows

theorem optional_echoed {α : Type} [Placed α] {mark : TokenKind} (word : mark ≠ .eof)
    (other : mark.onlyBegins = false) {item item' : Parser α}
    (echoed : Echoed more (fun c => c.last.kind = mark) (fun _ => BehindWord) item item') :
    Echoed more BehindWord (fun _ => BehindWord) (optional mark item) (optional mark item') := by
  have given :
      Echoed more (fun c => c.last.kind = mark) (fun a c => (fun _ => BehindWord) (some a) c)
      item item' := echoed
  exact .optional follows word other given fun _ => id

theorem inAngles_echoed {item item' : Parser Node} {phrase : Phrase}
    (grammar : Follows item (IsPart phrase))
    (echoed : Echoed more (fun _ => True) (fun _ => BehindWord) item item') :
    Echoed more BehindWord (fun _ => BehindWord)
      (optionalList .less (commaSequence .greater .anywhere item))
      (optionalList .less (commaSequence .greater .anywhere item')) := by
  have listed : Echoed more (fun c => c.last.kind = .less) (fun _ => BehindWord)
      (commaSequence .greater .anywhere item) (commaSequence .greater .anywhere item') :=
    (Echoed.commaSequence (by decide) grammar echoed.forget _).weaken (fun _ => id)
      fun _ _ last => .of_kind last rfl
  exact .optionalList follows (by decide) rfl listed fun _ => id

theorem typeWith_echoed {type type' : Parser Node} (grammar : Follows type (IsPart .type))
    (echoed : Echoed more (fun _ => True) (fun _ => BehindWord) type type') :
    Echoed more Before (fun _ => BehindWord) (typeWith type) (typeWith type') := by
  refine .bind (expectAs_echoed rfl _ _) ?_
  intro first first' sameFirst
  refine .bind (.eachAfter (expectName_echoed _) follows (by decide) rfl) ?_
  intro others others' sameOthers
  refine .bind (inAngles_echoed follows grammar echoed) ?_
  intro generics generics' sameGenerics
  refine .bind (.eachAfter (expect_echoed rfl _) follows (by decide) rfl) ?_
  intro pairs pairs' samePairs
  refine .spanned ?_ fun _ _ => id
  have depth : pairs'.length = pairs.length := by
    have lengths := congrArg List.length samePairs
    simpa [anywhere] using lengths
  rw [depth]
  simp_all [anywhere, Form.mapTokens, Form.map]

theorem typeWithin_echoed {loop loop' : List Token} (enough : loop.length ≤ loop'.length) :
    Echoed more Before (fun _ => BehindWord) (typeWithin loop) (typeWithin loop') := by
  induction loop generalizing loop' Before with
  | nil => exact .fail _
  | cons round loop ih =>
    cases loop' with
    | nil => exact absurd enough (Nat.not_succ_le_zero _)
    | cons round' loop' =>
      exact typeWith_echoed follows (typeWithin_follows loop) (ih (Nat.le_of_succ_le_succ enough))

theorem typeRef_echoed : Echoed more Before (fun _ => BehindWord) typeRef typeRef := by
  refine .getRest ?_
  intro loop loop' longer
  exact typeWithin_echoed follows (by omega)

theorem genericParameter_echoed :
    Echoed more Before (fun _ => BehindWord) genericParameter genericParameter := by
  refine .bind (expectName_echoed _) ?_
  intro name name' sameName
  refine .bind (optional_echoed follows (by decide) rfl (typeRef_echoed follows)) ?_
  intro bound bound' sameBound
  refine .spanned ?_ fun _ _ => id
  simp_all [anywhere, Form.mapTokens, Form.map]

theorem genericParameters_echoed :
    Echoed more BehindWord (fun _ => BehindWord) genericParameters genericParameters :=
  inAngles_echoed follows genericParameter_follows (genericParameter_echoed follows)

theorem parameter_echoed : Echoed more Before (fun _ => BehindWord) parameter parameter := by
  refine .bind (expectAs_echoed rfl _ _) ?_
  intro name name' sameName
  refine .bind (expect_echoed rfl _) ?_
  intro _ _ _
  refine .bind (typeRef_echoed follows) ?_
  intro type type' sameType
  refine .spanned ?_ fun _ _ => id
  simp_all [anywhere, Form.mapTokens, Form.map]

theorem parameters_echoed : Echoed more Before (fun _ => BehindWord) parameters parameters :=
  (Echoed.commaSequence (by decide) parameter_follows (parameter_echoed follows).forget _).weaken
    (fun _ => id) fun _ _ last => .of_kind last rfl

theorem typedName_echoed (after : TokenKind) :
    Echoed more Before (fun _ => BehindWord) (typedName after) (typedName after) := by
  refine .bind (expectName_echoed _) ?_
  intro name name' sameName
  refine .bind (optional_echoed follows (by decide) rfl (typeRef_echoed follows)) ?_
  intro type type' sameType
  refine .pure ?_ fun _ => id
  exact Prod.ext sameName sameType

end Types

/-! ## Expressions -/

/-- What the readers of the constructs within do in front of more tokens. The last statement of a
    text is read again even where the tokens behind it could go on with an expression, unless it
    ends with an if that has a value. -/
structure EchoesGrammar (more : List Token) (inner inner' : Construct → Parser Node) : Prop where
  grammar : FollowsGrammar inner
  expressionOf : ∀ level, .assignment ≤ level → Echoed more (fun _ => True) Node.StopsAt
    (inner (.expression level)) (inner' (.expression level))
  forward : ∀ k, Forward (inner k)
  statement : Repeats more (fun _ => True) (fun n c => c.Open more ∨ ¬n.EndsInConditional)
    (inner .declaration) (inner' .declaration)

variable {inner inner' : Construct → Parser Node}

namespace EchoesGrammar

variable (echoes : EchoesGrammar more inner inner')
include echoes

theorem declaration : Echoed more (fun _ => True) (fun _ _ => True) (inner .declaration)
    (inner' .declaration) where
  forward := echoes.forward _
  ensures _ _ _ _ _ := trivial
  repeats := echoes.statement.weaken (fun _ => id) fun _ _ => .inl

/-- An if in the place of a statement has no value. -/
theorem chained : Ensures (fun c => c.nextKind = .kwIf) (inner .declaration) fun n _ =>
    ¬n.EndsInConditional := by
  rintro c ⟨id, span, form⟩ c' next run conditional
  obtain ⟨_, _, _, rfl⟩ := echoes.grammar.chained .effect c _ c' next run
  cases conditional with
  | last ends => cases ends

theorem expression :
    Echoed more Before Node.StopsAt (Parser.expression inner) (Parser.expression inner') :=
  (echoes.expressionOf .assignment (by decide)).always

theorem arguments {close : TokenKind} (word : close.isLayout = false) :
    Echoed more Before (fun _ => BehindWord) (Parser.arguments inner close)
      (Parser.arguments inner' close) := by
  have some : close ≠ .eof := by
    rintro rfl
    cases word
  have item : Echoed more (fun _ => True) (fun _ _ => True)
      (unlessAtEnd (.token close) (Parser.expression inner))
      (unlessAtEnd (.token close) (Parser.expression inner')) :=
    .unlessAtEnd echoes.expression.forget _
  exact (Echoed.commaSequence some (unlessAtEnd_follows echoes.grammar.expression _) item _).weaken
    (fun _ => id) fun _ _ last => .of_kind last word

end EchoesGrammar

/-! ### What the readers ask -/

theorem isGenericCallee_map (f : Token → Token) (g : Node → Node) (form : Form Node) :
    isGenericCallee ((form.mapTokens f).map g) = isGenericCallee form := by
  cases form <;> rfl

theorem isAssignable_map (f : Token → Token) (g : Node → Node) (form : Form Node) :
    isAssignable ((form.mapTokens f).map g) = isAssignable form := by
  cases form <;> rfl

theorem isGenericCallee_of_unplaced {m n : Node} (same : m.unplaced = n.unplaced) :
    isGenericCallee m.form = isGenericCallee n.form := by
  have alike := congrArg isGenericCallee (Node.form_eq_of_unplaced same)
  rwa [isGenericCallee_map, isGenericCallee_map] at alike

theorem isAssignable_of_unplaced {m n : Node} (same : m.unplaced = n.unplaced) :
    isAssignable m.form = isAssignable n.form := by
  have alike := congrArg isAssignable (Node.form_eq_of_unplaced same)
  rwa [isAssignable_map, isAssignable_map] at alike

theorem closesBeforeParen_cons {t u : Token} {ts us : List Token} (same : t.kind = u.kind)
    (next : ts.head?.map (·.kind) = us.head?.map (·.kind))
    (tail : ∀ depth, closesBeforeParen depth ts = closesBeforeParen depth us) (depth : Nat) :
    closesBeforeParen depth (t :: ts) = closesBeforeParen depth (u :: us) := by
  rw [closesBeforeParen, closesBeforeParen]
  simp only [same, next, tail]

theorem closesBeforeParen_unplaced (ts : List Token) (depth : Nat) :
    closesBeforeParen depth (ts.map Token.unplaced) = closesBeforeParen depth ts := by
  induction ts generalizing depth with
  | nil => rfl
  | cons t ts ih =>
    have next : (ts.map Token.unplaced).head?.map (·.kind) = ts.head?.map (·.kind) := by
      cases ts <;> rfl
    exact closesBeforeParen_cons t.kind_unplaced next ih depth

theorem closesBeforeParen_of_layout {t : Token} (layout : t.kind.isLayout = true)
    (rest : List Token) (depth : Nat) : closesBeforeParen depth (t :: rest) = false := by
  rw [closesBeforeParen]
  revert layout
  cases t.kind <;> simp [TokenKind.isLayout]

/-- Reading on over type arguments never gets past a token of the layout. -/
theorem closesBeforeParen_append {ts : List Token} {t : Token} (ends : ts.getLast? = some t)
    (layout : t.kind.isLayout = true) (more : List Token) (depth : Nat) :
    closesBeforeParen depth (ts ++ more) = closesBeforeParen depth ts := by
  induction ts generalizing depth with
  | nil => cases ends
  | cons u ts ih =>
    cases ts with
    | nil =>
      obtain rfl : u = t := Option.some.inj ends
      rw [List.cons_append, closesBeforeParen_of_layout layout, closesBeforeParen_of_layout layout]
    | cons v ts =>
      rw [List.getLast?_cons_cons] at ends
      have next : (v :: ts ++ more).head?.map (·.kind) = (v :: ts).head?.map (·.kind) := rfl
      exact closesBeforeParen_cons rfl next (ih ends) depth

/-- Whether type arguments follow does not depend on what stands behind the text. -/
theorem closesBeforeParen_heads {c d : Cursor} (heads : c.Heads more d) (some : c.rest ≠ [])
    (depth : Nat) : closesBeforeParen depth d.rest = closesBeforeParen depth c.rest := by
  obtain ⟨t, ends, layout⟩ := heads.closed.getLast? some
  rw [← closesBeforeParen_unplaced, heads.rest, closesBeforeParen_unplaced,
    closesBeforeParen_append ends layout]

section Expressions

variable (follows : MayFollow more) (echoes : EchoesGrammar more inner inner')

section Values

include echoes

theorem wrapped_echoed (start start' : Span) :
    Echoed more Before Node.StopsAt (wrapped inner start) (wrapped inner' start') := by
  refine .bind echoes.expression ?_
  intro content content' sameContent
  refine .bind (expect_echoed rfl _) ?_
  intro _ _ _
  refine .spanned ?_ fun _ _ word => BehindWord.stopsAt word _
  simp_all [anywhere, Form.mapTokens, Form.map]

theorem array_echoed (start start' : Span) :
    Echoed more Before Node.StopsAt (array inner start) (array inner' start') := by
  refine .bind (echoes.arguments rfl) ?_
  intro elements elements' sameElements
  refine .spanned ?_ fun _ _ word => BehindWord.stopsAt word _
  simp_all [anywhere, Form.mapTokens, Form.map]

theorem unary_echoed {operator operator' : Token}
    (same : operator'.unplaced = operator.unplaced) :
    Echoed more Before Node.StopsAt (unary inner operator) (unary inner' operator') := by
  refine .bind (echoes.expressionOf .unary (by decide)).always ?_
  intro operand operand' sameOperand
  refine .node ?_ fun _ stops => Node.StopsAt.last stops rfl
  simp_all [anywhere, Form.mapTokens, Form.map]

theorem async_echoed (start start' : Span) :
    Echoed more Before Node.StopsAt (async inner start) (async inner' start') := by
  refine .bind (echoes.expressionOf .unary (by decide)).always ?_
  intro operand operand' sameOperand
  refine .node ?_ fun _ stops => Node.StopsAt.last stops rfl
  simp_all [anywhere, Form.mapTokens, Form.map]

theorem binary_echoed {left left' : Node} {operator operator' : Token}
    (sameLeft : left'.unplaced = left.unplaced) (same : operator'.unplaced = operator.unplaced) :
    Echoed more Before Node.StopsAt (binary inner left operator)
      (binary inner' left' operator') := by
  unfold binary
  rw [Token.kind_eq_of_unplaced same]
  refine .bind (echoes.expressionOf _ (Precedence.assignment_le_ofRightOperand _)).always ?_
  intro right right' sameRight
  refine .node ?_ fun _ stops => Node.StopsAt.last stops rfl
  simp_all [anywhere, Form.mapTokens, Form.map]

theorem call_echoed {callee callee' : Node} {generics generics' : List Node}
    (sameCallee : callee'.unplaced = callee.unplaced)
    (sameGenerics : generics'.map Node.unplaced = generics.map Node.unplaced) :
    Echoed more Before Node.StopsAt (call inner callee generics)
      (call inner' callee' generics') := by
  refine .bind (echoes.arguments rfl) ?_
  intro args args' sameArgs
  refine .spanned ?_ fun _ _ word => BehindWord.stopsAt word _
  simp_all [anywhere, Form.mapTokens, Form.map]

theorem index_echoed {object object' : Node} (sameObject : object'.unplaced = object.unplaced) :
    Echoed more Before Node.StopsAt (index inner object) (index inner' object') := by
  refine .bind echoes.expression ?_
  intro subscript subscript' sameSubscript
  refine .bind (expect_echoed rfl _) ?_
  intro _ _ _
  refine .spanned ?_ fun _ _ word => BehindWord.stopsAt word _
  simp_all [anywhere, Form.mapTokens, Form.map]

theorem assignment_echoed {target target' : Node} {operator operator' : Token}
    (sameTarget : target'.unplaced = target.unplaced)
    (same : operator'.unplaced = operator.unplaced) :
    Echoed more Before Node.StopsAt (assignment inner target operator)
      (assignment inner' target' operator') := by
  unfold assignment
  rw [isAssignable_of_unplaced sameTarget, Token.kind_eq_of_unplaced same]
  have value : Echoed more Before Node.StopsAt
      (do
        let value ← inner (.expression (.ofRightOperand operator.kind))
        node (target.span.through value.span) (.assignment target value))
      (do
        let value ← inner' (.expression (.ofRightOperand operator.kind))
        node (target'.span.through value.span) (.assignment target' value)) := by
    refine .bind (echoes.expressionOf _ (Precedence.assignment_le_ofRightOperand _)).always ?_
    intro value value' sameValue
    refine .node ?_ fun _ stops => Node.StopsAt.last stops rfl
    simp_all [anywhere, Form.mapTokens, Form.map]
  exact .ite (fun _ => .bind (.failAt _ _) fun _ _ _ => value) fun _ => value

end Values

include follows echoes

theorem elseBranch_echoed {use : Use} {chained : Construct}
    (nested : Echoed more (fun c => c.nextKind = .kwIf) (fun _ => BehindBlock) (inner chained)
      (inner' chained)) :
    Echoed more Before (fun _ => BehindBlock) (elseBranch inner use chained)
      (elseBranch inner' use chained) := by
  refine .get ?_
  intro _ _
  refine .nextKind_of_fails ?_ ?_
  · intro next
    refine .ite ?_ ?_
    · rintro rfl
      refine .bind (nested.weaken (fun _ holds => holds.2.2) fun _ _ => id) ?_
      intro branch branch' same
      refine .spanned ?_ fun _ _ => id
      simp_all [anywhere, Form.mapTokens, Form.map]
    · intro _
      refine .bind (.block follows echoes.grammar.declaration echoes.declaration _) ?_
      intro body body' same
      refine .spanned ?_ fun _ _ closed _ => closed
      simp_all [anywhere, Form.mapTokens, Form.map]
  · intro c n c' ended run
    rw [if_neg (by decide)] at run
    obtain ⟨body, c₁, found, -⟩ := bind_eq_ok.1 run
    exact rest_ne_nil_of_block echoes.grammar.declaration found ended

/-- An if whose value is asked for. -/
theorem conditional_echoed (start start' : Span) :
    Echoed more Before Node.StopsAt (conditional inner .value (.expression .primary) start)
      (conditional inner' .value (.expression .primary) start') := by
  have nested : Echoed more (fun c => c.nextKind = .kwIf) (fun _ => BehindBlock)
      (inner (.expression .primary)) (inner' (.expression .primary)) :=
    (echoes.expressionOf .primary (by decide)).weaken (fun _ _ => trivial)
      fun _ _ stops layout => (stops layout).1
  refine .bind echoes.expression ?_
  intro condition condition' sameCondition
  refine .bind (.block follows echoes.grammar.declaration echoes.declaration _) ?_
  intro body body' sameBody
  have branch : Echoed more (fun c => c.last.kind = .kwElse)
      (fun n c => (fun _ : Option Node => BehindBlock) (some n) c)
      (elseBranch inner .value (.expression .primary))
      (elseBranch inner' .value (.expression .primary)) := elseBranch_echoed follows echoes nested
  have given : Echoed more (fun c => c.last.kind = .outdent)
      (fun (_ : Option Node) => BehindBlock)
      (optional .kwElse (elseBranch inner .value (.expression .primary)))
      (optional .kwElse (elseBranch inner' .value (.expression .primary))) :=
    .optional follows (by decide) rfl branch fun _ closed _ => closed
  refine .bind given ?_
  intro otherwise otherwise' sameOtherwise
  refine .spanned ?_ fun _ _ block layout => ⟨block layout, .here⟩
  simp_all [anywhere, Form.mapTokens, Form.map]

theorem newObject_echoed (start start' : Span) :
    Echoed more Before Node.StopsAt (newObject inner start) (newObject inner' start') := by
  refine .bind (typeRef_echoed follows) ?_
  intro type type' sameType
  refine .bind (.optionalList follows (by decide) rfl (echoes.arguments rfl) fun _ => id) ?_
  intro args args' sameArgs
  refine .spanned ?_ fun _ _ word => BehindWord.stopsAt word _
  simp_all [anywhere, Form.mapTokens, Form.map]

/-- What an operand is depends on the kind of its first token. -/
theorem operand_echoed {token token' : Token} (same : token'.unplaced = token.unplaced) :
    Echoed more (fun c => c.last = token) Node.StopsAt (operand inner token)
      (operand inner' token') := by
  have leaf {kind : TokenKind} {span span' : Span} {form form' : Form Node}
      (first : token.kind = kind) (word : kind.isLayout = false)
      (alike : (form'.mapTokens Token.unplaced).map Node.unplaced =
        (form.mapTokens Token.unplaced).map Node.unplaced) :
      Echoed more (fun c => c.last = token) Node.StopsAt (node span form) (node span' form') := by
    refine .node alike ?_
    rintro c rfl
    exact BehindWord.stopsAt (.of_kind first word) _
  unfold operand
  rw [Token.kind_eq_of_unplaced same]
  cases first : token.kind with
  | identifier => exact leaf first rfl (by simp [Form.mapTokens, Form.map, same])
  | number | string | boolean => exact leaf first rfl (by simp [Form.mapTokens, Form.map, same])
  | kwThis | kwSuper => exact leaf first rfl rfl
  | leftParen => exact wrapped_echoed echoes _ _
  | leftBracket => exact array_echoed echoes _ _
  | minus | kwNot => exact unary_echoed echoes same
  | kwNew => exact newObject_echoed follows echoes _ _
  | kwAsync => exact async_echoed echoes _ _
  | kwIf => exact conditional_echoed follows echoes _ _
  | _ => exact .failAt _ _

theorem lessThan_echoed {left left' : Node} {operator operator' : Token}
    (sameLeft : left'.unplaced = left.unplaced) (same : operator'.unplaced = operator.unplaced) :
    Echoed more (fun c => c.last.kind = .less) Node.StopsAt (lessThan inner left operator)
      (lessThan inner' left' operator') := by
  refine .getIf ?_ ?_ (binary_echoed echoes sameLeft same)
  · intro c d heads last
    have some : c.rest ≠ [] := heads.closed.rest_ne_nil (by rw [last]; rfl)
    rw [isGenericCallee_of_unplaced sameLeft, TokenStream.startsGenericCall_cursor,
      TokenStream.startsGenericCall_cursor, closesBeforeParen_heads heads some]
  · have generic : Echoed more (fun _ => True) (fun _ => BehindWord) (genericArguments typeRef)
        (genericArguments typeRef) :=
      (Echoed.commaSequence (by decide) typeRef_follows (typeRef_echoed follows).forget _).weaken
        (fun _ => id) fun _ _ last => .of_kind last rfl
    refine .bind generic.always ?_
    intro generics generics' sameGenerics
    refine .bind (expect_echoed rfl _) ?_
    intro _ _ _
    exact call_echoed echoes sameLeft sameGenerics

omit follows echoes in
theorem member_echoed {object object' : Node} (sameObject : object'.unplaced = object.unplaced) :
    Echoed more Before Node.StopsAt (member object) (member object') := by
  refine .nextKind_of_fails ?_ ?_
  · intro next
    refine .ite ?_ fun _ => .fail _
    intro named
    refine .bind ((Echoed.advance next).weaken (fun _ holds => holds.2) fun _ _ => id) ?_
    intro property property' sameProperty
    refine .node ?_ ?_
    · simp_all [anywhere, Form.mapTokens, Form.map]
    · rintro c ⟨same, last⟩
      refine BehindWord.stopsAt ?_ _
      rcases named with rfl | rfl <;> exact .of_kind (last ▸ same) rfl
  · intro c n c' _ run
    rw [if_neg (by decide)] at run
    exact not_fail_ok run

omit echoes in
theorem instanceOf_echoed {value value' : Node} (sameValue : value'.unplaced = value.unplaced) :
    Echoed more Before Node.StopsAt (instanceOf value) (instanceOf value') := by
  refine .bind (typeRef_echoed follows) ?_
  intro type type' sameType
  refine .node ?_ fun _ word => BehindWord.stopsAt word _
  simp_all [anywhere, Form.mapTokens, Form.map]

theorem extend_echoed {left left' : Node} {operator operator' : Token}
    (sameLeft : left'.unplaced = left.unplaced) (same : operator'.unplaced = operator.unplaced) :
    Echoed more (fun c => c.last = operator) Node.StopsAt (extend inner left operator)
      (extend inner' left' operator') := by
  unfold extend
  rw [Token.kind_eq_of_unplaced same]
  split
  case h_1 => exact call_echoed echoes sameLeft rfl
  case h_2 => exact index_echoed echoes sameLeft
  case h_3 => exact member_echoed sameLeft
  case h_4 kind =>
    refine (lessThan_echoed follows echoes sameLeft same).weaken ?_ fun _ _ => id
    rintro c rfl
    exact kind
  case h_5 => exact instanceOf_echoed follows sameLeft
  case h_6 => exact assignment_echoed echoes sameLeft same
  case h_7 => exact binary_echoed echoes sameLeft same

omit echoes in
/-- At the end of input no operator follows, and none does where there are more tokens behind. -/
theorem not_le_ofOperator {level : Precedence} (askable : .assignment ≤ level) {c : Cursor}
    (opened : c.Open more) (ended : c.rest = []) : ¬level ≤ .ofOperator (firstKind more) := by
  intro binds
  have reaches := Precedence.le_trans askable binds
  have apart : ∀ kind : TokenKind, kind = .eof ∨ kind.onlyBegins = true →
      ¬.assignment ≤ Precedence.ofOperator kind := by
    intro kind
    cases kind <;> decide
  rcases follows with none | begins | joins
  · exact apart _ (.inl none) reaches
  · exact apart _ (.inr begins) reaches
  · exact opened joins ended

omit echoes in
/-- In front of more tokens no operator is found, either. -/
theorem operators_atEnd {level : Precedence} (askable : .assignment ≤ level) {c d : Cursor}
    (heads : c.Heads more d) (opened : c.Open more) (ended : c.rest = []) (loop : List Token)
    (left : Node) : operators inner level loop left d = .ok left d := by
  cases loop with
  | nil => rfl
  | cons round loop =>
    unfold operators
    rw [bind_of_ok (nextKind_apply d), heads.nextKind_atEnd ended,
      if_neg (not_le_ofOperator follows askable opened ended)]
    rfl

/-- Operators are looked for as long as there are tokens left, and no longer in front of more. -/
theorem operators_echoed {level : Precedence} (askable : .assignment ≤ level)
    {loop loop' : List Token} (enough : loop.length + more.length ≤ loop'.length)
    {left left' : Node} (sameLeft : left'.unplaced = left.unplaced) :
    Echoed more (fun c => left.StopsAt c ∧ c.rest.length ≤ loop.length) Node.StopsAt
      (operators inner level loop left) (operators inner' level loop' left') := by
  induction loop generalizing loop' left left' with
  | nil =>
    refine ⟨.pure left, ?_, ?_⟩
    · rintro c _ _ ⟨stops, -⟩ ⟨⟩
      exact stops
    · rintro c d _ _ heads ⟨-, none⟩ ⟨⟩ opened
      have ended : c.rest = [] := List.length_eq_zero_iff.1 (Nat.le_zero.1 none)
      exact ⟨left', d, operators_atEnd follows askable heads opened ended _ _, sameLeft, heads⟩
  | cons round loop ih =>
    cases loop' with
    | nil => exact absurd enough (by simp)
    | cons round' loop' =>
      have fewer : loop.length + more.length ≤ loop'.length := by
        simp only [List.length_cons] at enough
        omega
      have none : ¬level ≤ .ofOperator .eof := fun binds =>
        absurd (Precedence.le_trans askable binds) (by decide)
      refine .nextKind ?_ ?_ ?_
      · intro next
        refine .ite ?_ ?_
        · intro _
          refine .bind ((Echoed.advance_frame next loop.length).weaken ?_ fun _ _ => id) ?_
          · rintro c ⟨⟨-, less⟩, next⟩
            exact ⟨next, less⟩
          · intro operator operator' same
            have larger := (extend_echoed follows echoes sameLeft same).frame loop.length
            refine .bind (larger.weaken ?_ fun _ _ => id) ?_
            · rintro c ⟨⟨-, last⟩, less⟩
              exact ⟨last, less⟩
            · intro node node' sameNode
              exact ih fewer sameNode
        · intro _
          exact .pure sameLeft fun _ holds => holds.1.1
      · rintro c n c' ⟨stops, -⟩ _ run
        rw [if_neg none] at run
        cases run
        exact stops
      · rintro c d n c' heads holds ended run opened
        rw [if_neg none] at run
        cases run
        rw [if_neg (not_le_ofOperator follows askable opened ended)]
        exact ⟨left', d, rfl, sameLeft, heads⟩

omit follows echoes in
/-- An expression is read from a token at least. -/
theorem expressionWith_eq (level : Precedence) : expressionWith inner level =
    unlessAtEnd .expression (do
      let first ← operand inner (← advance)
      operators inner level (← get).rest first) := by
  funext c
  cases ahead : c.rest with
  | nil =>
    unfold expressionWith unlessAtEnd
    rw [bind_of_ok (atEnd_of_rest_nil ahead), bind_of_ok (atEnd_of_rest_nil ahead)]
    rfl
  | cons t rest =>
    rw [unlessAtEnd_of_rest_cons ahead]
    unfold expressionWith
    rw [bind_of_ok (atEnd_of_rest_cons ahead)]
    rfl

theorem expressionWith_echoed {level : Precedence} (askable : .assignment ≤ level) :
    Echoed more Before Node.StopsAt (expressionWith inner level)
      (expressionWith inner' level) := by
  rw [expressionWith_eq, expressionWith_eq]
  refine .unlessAtEnd ?_ _
  have begun : Echoed more (fun c => Before c ∧ c.rest ≠ []) (fun t c => c.last = t) advance
      advance := Echoed.advance_some.weaken (fun _ holds => holds.2) fun _ _ => id
  refine .bind begun ?_
  intro token token' same
  refine .bind (operand_echoed follows echoes same) ?_
  intro first first' sameFirst
  have rounds (loop loop' : List Token) (longer : loop'.length = loop.length + more.length) :
      Echoed more (fun c => first.StopsAt c ∧ c.rest.length ≤ loop.length) Node.StopsAt
        (operators inner level loop first) (operators inner' level loop' first') :=
    operators_echoed follows echoes askable (Nat.le_of_eq longer.symm) sameFirst
  exact .getRest rounds

end Expressions

end Parser

end TekLang
