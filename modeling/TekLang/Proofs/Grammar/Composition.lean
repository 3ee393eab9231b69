import TekLang.Proofs.Grammar.Movement

/-!
# What readers are put together from

Every reader is a sequence of small steps: it looks at the cursor, takes a token, numbers a node,
fails, or asks `inner` for a construct within. `Composed` says so of two readers at once that differ
in nothing but whom they ask, and what holds of all such readers is an induction on it: a reader
depends on `inner` only behind the tokens that it took before, and it puts a fault down to a token
that it took or is in front of.
-/

namespace TekLang

namespace Parser

variable {ι α β : Type}

/-- The parser cannot fail. -/
def Succeeds (p : Parser α) : Prop := ∀ c, ∃ a c', p c = .ok a c'

/-- Two readers are put together in the same way from steps of which only those that ask for a
    construct differ. They fail in front of a token or at one of the places that are `known`. -/
inductive Composed (inner inner' : ι → Parser Node) :
    {α : Type} → (Position → Prop) → Parser α → Parser α → Prop
  | steady {α : Type} {known} {p : Parser α} (forward : Forward p) (succeeds : Succeeds p) :
    Composed inner inner' known p p
  | fail {α : Type} {known} (fault : SyntaxFault) :
    Composed inner inner' known (fail fault : Parser α) (fail fault)
  | failAt {α : Type} {known} {span : Span} (fault : SyntaxFault) (place : known span.start) :
    Composed inner inner' known (failAt span fault : Parser α) (failAt span fault)
  | inner {known} (k : ι) : Composed inner inner' known (inner k) (inner' k)
  | andThen {α β : Type} {known} {p q : Parser α} {f g : α → Parser β}
    (first : Composed inner inner' known p q)
    (second : ∀ a c c', p c = .ok a c' → Composed inner inner' known (f a) (g a)) :
    Composed inner inner' known (p >>= f) (q >>= g)

namespace Composed

variable {inner inner' : ι → Parser Node} {known : Position → Prop}

/-- A reader goes forward if those that it asks do. -/
theorem forward {p q : Parser α} (composed : Composed inner inner' known p q)
    (asked : ∀ k, Forward (inner k)) : Forward p := by
  induction composed with
  | steady forward _ => exact forward
  | fail => exact .fail _
  | failAt => exact .failAt _ _
  | inner k => exact asked k
  | @andThen _ _ _ p q f g _ _ ih_first ih_second =>
    intro c
    rw [bind_apply]
    cases run : p c with
    | ok a c₁ => exact (ih_first.ok run).trans (ih_second a c c₁ run c₁)
    | error e c₁ => exact ih_first.error run

section Steps

variable {p q : Parser α}

theorem bind {f g : α → Parser β} (first : Composed inner inner' known p q)
    (second : ∀ a, Composed inner inner' known (f a) (g a)) :
    Composed inner inner' known (p >>= f) (q >>= g) :=
  .andThen first fun a _ _ _ => second a

theorem ite {condition : Prop} [Decidable condition] {p' q' : Parser α}
    (yes : Composed inner inner' known p q) (no : Composed inner inner' known p' q') :
    Composed inner inner' known (if condition then p else p') (if condition then q else q') := by
  split
  · exact yes
  · exact no

theorem pure (a : α) : Composed inner inner' known (Pure.pure a) (Pure.pure a) :=
  .steady (.pure a) fun c => ⟨a, c, rfl⟩

theorem get : Composed inner inner' known (get : Parser Cursor) get :=
  .steady .get fun c => ⟨_, c, rfl⟩

theorem upcoming : Composed inner inner' known upcoming upcoming :=
  .steady .upcoming fun c => ⟨_, c, rfl⟩

theorem nextKind : Composed inner inner' known nextKind nextKind :=
  .steady .nextKind fun c => ⟨_, c, rfl⟩

theorem atEnd : Composed inner inner' known atEnd atEnd :=
  .steady .atEnd fun c => ⟨_, c, rfl⟩

theorem advance : Composed inner inner' known advance advance := by
  refine .steady .advance ?_
  intro c
  cases ahead : c.rest with
  | nil => exact ⟨_, _, advance_of_rest_nil ahead⟩
  | cons t rest => exact ⟨_, _, advance_of_rest_cons ahead⟩

theorem spanFrom (start : Span) : Composed inner inner' known (spanFrom start) (spanFrom start) :=
  .steady (.spanFrom start) fun c => ⟨_, c, rfl⟩

theorem node (span : Span) (form : Form Node) :
    Composed inner inner' known (node span form) (node span form) :=
  .steady (.node span form) fun c => ⟨_, _, node_apply span form c⟩

theorem spanned (start : Span) (form : Form Node) :
    Composed inner inner' known (do Parser.node (← Parser.spanFrom start) form)
      (do Parser.node (← Parser.spanFrom start) form) :=
  .bind (spanFrom start) fun span => .node span form

theorem accept (kind : TokenKind) : Composed inner inner' known (accept kind) (accept kind) :=
  .bind nextKind fun _ => .ite (.bind advance fun _ => .pure true) (.pure false)

theorem expectAs (kind : TokenKind) (wanted : Wanted) (setting : Setting) :
    Composed inner inner' known (expectAs kind wanted setting) (expectAs kind wanted setting) :=
  .bind nextKind fun _ => .ite advance (.fail _)

theorem expect (kind : TokenKind) (setting : Setting) :
    Composed inner inner' known (expect kind setting) (expect kind setting) := expectAs kind _ _

theorem expectName (setting : Setting) :
    Composed inner inner' known (expectName setting) (expectName setting) := expectAs _ _ _

end Steps

section Loops

variable {item item' : Parser α} (same : Composed inner inner' known item item')
include same

theorem optional (mark : TokenKind) :
    Composed inner inner' known (optional mark item) (optional mark item') :=
  .bind (accept mark) fun _ => .ite (.bind same fun _ => .pure _) (.pure _)

theorem itemsUntil (close : TokenKind) {separator : Parser Unit}
    (between : Composed inner inner' known separator separator) (loop : List Token) :
    Composed inner inner' known (itemsUntil close item separator loop)
      (itemsUntil close item' separator loop) := by
  induction loop with
  | nil => exact .bind same fun _ => .pure _
  | cons round loop ih =>
    refine .bind (accept close) fun _ => .ite (.pure _) ?_
    exact .bind same fun _ => .bind between fun _ => .bind ih fun _ => .pure _

theorem itemsAfter (mark : TokenKind) (loop : List Token) :
    Composed inner inner' known (itemsAfter mark item loop) (itemsAfter mark item' loop) := by
  induction loop with
  | nil => exact .pure _
  | cons round loop ih =>
    exact .bind (accept mark) fun _ =>
      .ite (.bind same fun _ => .bind ih fun _ => .pure _) (.pure _)

theorem sequence (close : TokenKind) :
    Composed inner inner' known (sequence close item) (sequence close item') :=
  .bind get fun c => itemsUntil same close (.pure ()) c.rest

theorem commaSequence (close : TokenKind) (setting : Setting) :
    Composed inner inner' known (commaSequence close setting item)
      (commaSequence close setting item') := by
  refine .bind get fun c => itemsUntil same close ?_ c.rest
  exact .bind nextKind fun _ => .ite (.bind (expectAs _ _ _) fun _ => .pure _) (.pure _)

theorem eachAfter (mark : TokenKind) :
    Composed inner inner' known (eachAfter mark item) (eachAfter mark item') :=
  .bind get fun c => itemsAfter same mark c.rest

theorem unlessAtEnd (wanted : Wanted) :
    Composed inner inner' known (unlessAtEnd wanted item) (unlessAtEnd wanted item') :=
  .bind atEnd fun _ => .ite (.fail _) same

end Loops

theorem optionalList {items items' : Parser (List α)}
    (same : Composed inner inner' known items items') (mark : TokenKind) :
    Composed inner inner' known (optionalList mark items) (optionalList mark items') :=
  .bind (accept mark) fun _ => .ite same (.pure _)

theorem endStatement (landmark : Landmark) :
    Composed inner inner' known (endStatement landmark) (endStatement landmark) :=
  .bind (accept _) fun _ => .ite (.pure _) (.bind get fun _ => .ite (.fail _) (.pure _))

theorem openBlock (landmark : Landmark) :
    Composed inner inner' known (openBlock landmark) (openBlock landmark) :=
  .bind (expectAs _ _ _) fun _ => .bind (eachAfter (.pure _) _) fun _ =>
    .bind (expectAs _ _ _) fun _ => .pure _

theorem block {construct construct' : Parser Node}
    (same : Composed inner inner' known construct construct') (landmark : Landmark) :
    Composed inner inner' known (block construct landmark) (block construct' landmark) :=
  .bind (openBlock landmark) fun _ => sequence (unlessAtEnd same _) _

theorem statement (start : Span) (landmark : Landmark) (form : Form Node) :
    Composed inner inner' known
      (do
        let span ← Parser.spanFrom start
        Parser.endStatement landmark
        Parser.node span form)
      (do
        let span ← Parser.spanFrom start
        Parser.endStatement landmark
        Parser.node span form) :=
  .bind (spanFrom start) fun span => .bind (endStatement landmark) fun _ => .node span form

/-! ### Types -/

theorem genericArguments {type type' : Parser Node}
    (same : Composed inner inner' known type type') :
    Composed inner inner' known (genericArguments type) (genericArguments type') :=
  commaSequence same _ _

theorem typeWith {argument argument' : Parser Node}
    (same : Composed inner inner' known argument argument') :
    Composed inner inner' known (typeWith argument) (typeWith argument') :=
  .bind (expectAs _ _ _) fun _ => .bind (eachAfter (expectName _) _) fun _ =>
    .bind (optionalList (genericArguments same) _) fun _ =>
      .bind (eachAfter (expect _ _) _) fun _ => .spanned _ _

theorem typeRef : Composed inner inner' known typeRef typeRef := by
  refine .bind get ?_
  intro c
  rw [TokenStream.rounds_cursor]
  induction c.rest with
  | nil => exact .fail _
  | cons round loop ih => exact typeWith ih

theorem genericParameters : Composed inner inner' known genericParameters genericParameters :=
  optionalList (commaSequence (.bind (expectName _) fun _ => .bind (optional typeRef _) fun _ =>
    .spanned _ _) _ _) _

theorem parameters : Composed inner inner' known parameters parameters :=
  commaSequence (.bind (expectAs _ _ _) fun _ => .bind (expect _ _) fun _ =>
    .bind typeRef fun _ => .spanned _ _) _ _

theorem typedName (after : TokenKind) :
    Composed inner inner' known (typedName after) (typedName after) :=
  .bind (expectName _) fun _ => .bind (optional typeRef _) fun _ => .pure _

theorem rename : Composed inner inner' known rename rename := optional (expectName _) _

theorem importDecl (start : Span) :
    Composed inner inner' known (importDecl start) (importDecl start) := by
  refine .bind (expectName _) fun _ => .bind (eachAfter (expectName _) _) fun _ =>
    .bind rename fun _ => .ite ?_ ?_
  · refine .bind (optionalList (commaSequence ?_ _ _) _) fun _ => .statement _ _ _
    exact .bind (expectName _) fun _ => .bind rename fun _ => .spanned _ _
  · exact .bind (.pure _) fun _ => .statement _ _ _

theorem jumpStmt (word : TokenKind) (jump : Jump) (start : Span) :
    Composed inner inner' known (jumpStmt start word jump) (jumpStmt start word jump) :=
  .bind (endStatement _) fun _ => .node _ _

end Composed

/-! ### Where an expression starts -/

/-- What the parser reads starts at the place. -/
def StartsAt (place : Position) (p : Parser Node) : Prop :=
  ∀ c n c', p c = .ok n c' → n.span.start = place

namespace StartsAt

variable {place : Position}

theorem bind {p : Parser α} {f : α → Parser Node} (second : ∀ a, StartsAt place (f a)) :
    StartsAt place (p >>= f) := by
  intro c n c' run
  obtain ⟨a, c₁, -, run⟩ := bind_eq_ok.1 run
  exact second a c₁ n c' run

theorem ite {condition : Prop} [Decidable condition] {p q : Parser Node} (yes : StartsAt place p)
    (no : StartsAt place q) : StartsAt place (if condition then p else q) := by
  split
  · exact yes
  · exact no

theorem node {span : Span} (form : Form Node) : StartsAt span.start (Parser.node span form) := by
  rintro c n c' ⟨⟩
  rfl

theorem spanned {start : Span} (form : Form Node) :
    StartsAt start.start (do Parser.node (← spanFrom start) form) := by
  rintro c n c' ⟨⟩
  rfl

theorem failAt (span : Span) (fault : SyntaxFault) :
    StartsAt place (Parser.failAt span fault) := by
  rintro c n c' ⟨⟩

theorem fail (fault : SyntaxFault) : StartsAt place (Parser.fail fault) := by
  rintro c n c' ⟨⟩

variable {inner : Construct → Parser Node}

theorem binary (left : Node) (operator : Token) :
    StartsAt left.span.start (Parser.binary inner left operator) := .bind fun _ => .node _

theorem call (callee : Node) (generics : List Node) :
    StartsAt callee.span.start (Parser.call inner callee generics) := .bind fun _ => .spanned _

theorem operand (token : Token) : StartsAt token.span.start (Parser.operand inner token) := by
  unfold Parser.operand
  split
  case h_7 => exact .bind fun _ => .bind fun _ => .spanned _
  case h_8 => exact .bind fun _ => .spanned _
  case h_9 | h_10 | h_12 => exact .bind fun _ => .node _
  case h_11 => exact .bind fun _ => .bind fun _ => .spanned _
  case h_13 => exact .bind fun _ => .bind fun _ => .bind fun _ => .spanned _
  case h_14 | h_15 => exact .failAt _ _
  all_goals exact .node _

/-- An operator only adds something behind the operand in front of it. -/
theorem extend (left : Node) (operator : Token) :
    StartsAt left.span.start (Parser.extend inner left operator) := by
  unfold Parser.extend
  split
  case h_1 => exact call _ _
  case h_2 => exact .bind fun _ => .bind fun _ => .spanned _
  case h_3 => exact .bind fun _ => .ite (.bind fun _ => .node _) (.fail _)
  case h_4 =>
    refine .bind fun _ => .ite ?_ (binary _ _)
    exact .bind fun _ => .bind fun _ => call _ _
  case h_5 => exact .bind fun _ => .node _
  case h_6 =>
    unfold Parser.assignment
    exact .ite (.bind fun _ => .bind fun _ => .node _) (.bind fun _ => .node _)
  case h_7 => exact binary _ _

end StartsAt

/-! ### Expressions -/

namespace Composed

variable {inner inner' : Construct → Parser Node} {known : Position → Prop}

theorem arguments (close : TokenKind) :
    Composed inner inner' known (arguments inner close) (arguments inner' close) :=
  commaSequence (unlessAtEnd (.inner _) _) _ _

theorem elseBranch (use : Use) (chained : Construct) :
    Composed inner inner' known (elseBranch inner use chained)
      (elseBranch inner' use chained) := by
  refine .bind get fun _ => .bind nextKind fun _ => .ite ?_ ?_
  · exact .bind (.inner _) fun _ => .spanned _ _
  · exact .bind (block (.inner _) _) fun _ => .spanned _ _

theorem conditional (use : Use) (chained : Construct) (start : Span) :
    Composed inner inner' known (conditional inner use chained start)
      (conditional inner' use chained start) :=
  .bind (.inner _) fun _ => .bind (block (.inner _) _) fun _ =>
    .bind (optional (elseBranch use chained) _) fun _ => .spanned _ _

theorem operand (token : Token) (place : known token.span.start) :
    Composed inner inner' known (operand inner token) (operand inner' token) := by
  unfold Parser.operand
  split
  case h_7 => exact .bind (.inner _) fun _ => .bind (expect _ _) fun _ => .spanned _ _
  case h_8 => exact .bind (arguments _) fun _ => .spanned _ _
  case h_9 | h_10 => exact .bind (.inner _) fun _ => .node _ _
  case h_11 =>
    exact .bind typeRef fun _ => .bind (optionalList (arguments _) _) fun _ => .spanned _ _
  case h_12 => exact .bind (.inner _) fun _ => .node _ _
  case h_13 => exact conditional _ _ _
  case h_14 | h_15 => exact .failAt _ place
  all_goals exact .node _ _

theorem binary (left : Node) (operator : Token) :
    Composed inner inner' known (binary inner left operator) (binary inner' left operator) :=
  .bind (.inner _) fun _ => .node _ _

theorem call (callee : Node) (generics : List Node) :
    Composed inner inner' known (call inner callee generics) (call inner' callee generics) :=
  .bind (arguments _) fun _ => .spanned _ _

theorem extend (left : Node) (operator : Token) (place : known left.span.start) :
    Composed inner inner' known (extend inner left operator) (extend inner' left operator) := by
  unfold Parser.extend
  split
  case h_1 => exact call _ _
  case h_2 => exact .bind (.inner _) fun _ => .bind (expect _ _) fun _ => .spanned _ _
  case h_3 => exact .bind nextKind fun _ => .ite (.bind advance fun _ => .node _ _) (.fail _)
  case h_4 =>
    refine .bind get fun _ => .ite ?_ (binary _ _)
    exact .bind (genericArguments typeRef) fun _ => .bind (expect _ _) fun _ => call _ _
  case h_5 => exact .bind typeRef fun _ => .node _ _
  case h_6 =>
    unfold Parser.assignment
    exact .ite (.bind (.failAt _ place) fun _ => .bind (.inner _) fun _ => .node _ _)
      (.bind (.inner _) fun _ => .node _ _)
  case h_7 => exact binary _ _

theorem operators (level : Precedence) (loop : List Token) (left : Node)
    (place : known left.span.start) :
    Composed inner inner' known (operators inner level loop left)
      (operators inner' level loop left) := by
  induction loop generalizing left with
  | nil => exact .pure _
  | cons round loop ih =>
    refine .bind nextKind fun _ => .ite ?_ (.pure _)
    refine .bind advance fun operator => .andThen (extend left operator place) ?_
    intro larger c c' run
    refine ih larger ?_
    rw [StartsAt.extend left operator c larger c' run]
    exact place

/-! ### Declarations and statements -/

theorem functionDecl (start : Span) :
    Composed inner inner' known (functionDecl inner start) (functionDecl inner' start) := by
  refine .bind (expectName _) fun _ => .bind genericParameters fun _ => .bind (expect _ _) fun _ =>
    .bind parameters fun _ => .bind (optional typeRef _) fun _ => .bind get fun _ => .ite ?_ ?_
  · exact .bind (block (.inner _) _) fun _ => .spanned _ _
  · exact .statement _ _ _

theorem constructor (start : Span) :
    Composed inner inner' known (constructor inner start) (constructor inner' start) := by
  refine .bind (expect _ _) fun _ => .bind parameters fun _ => .bind get fun _ => .ite ?_ ?_
  · exact .bind (block (.inner _) _) fun _ => .spanned _ _
  · exact .bind (endStatement _) fun _ => .bind (.pure _) fun _ => .spanned _ _

theorem classMember : Composed inner inner' known (classMember inner) (classMember inner') := by
  refine .bind get fun _ => .ite ?_ ?_
  · exact .bind advance fun _ => constructor _
  · exact .bind upcoming fun _ => .bind (accept _) fun _ => .bind (.inner _) fun _ => .node _ _

theorem classDecl (start : Span) :
    Composed inner inner' known (classDecl inner start) (classDecl inner' start) := by
  refine .bind (expectName _) fun _ => .bind genericParameters fun _ => .bind ?_ fun _ =>
    .bind get fun _ => .ite ?_ ?_
  · exact optionalList (.bind typeRef fun _ => .bind (eachAfter typeRef _) fun _ => .pure _) _
  · exact .bind (openBlock _) fun _ =>
      .bind (sequence (unlessAtEnd classMember _) _) fun _ => .spanned _ _
  · exact .bind (endStatement _) fun _ => .bind (.pure _) fun _ => .spanned _ _

theorem switchCase : Composed inner inner' known (switchCase inner) (switchCase inner') :=
  .bind (expect _ _) fun _ => .bind (.inner _) fun _ => .bind (eachAfter (.inner _) _) fun _ =>
    .bind (block (.inner _) _) fun _ => .spanned _ _

theorem catchClause : Composed inner inner' known (catchClause inner) (catchClause inner') :=
  .bind (expect _ _) fun _ => .bind (typedName _) fun _ => .bind (block (.inner _) _) fun _ =>
    .spanned _ _

theorem valueStmt (word : TokenKind) (form : Node → Form Node) (start : Span) :
    Composed inner inner' known (valueStmt inner start word form)
      (valueStmt inner' start word form) := .bind (.inner _) fun _ => .statement _ _ _

end Composed

/-- Both readers take the next token before anything else, unless there is none. -/
def TokenFirst (inner inner' : Construct → Parser Node) (p q : Parser Node) : Prop :=
  ∀ c t rest, c.rest = t :: rest → ∃ f g, p c = f (c.behind t rest) ∧ q c = g (c.behind t rest) ∧
    Composed inner inner' (· = t.span.start) f g

namespace TokenFirst

variable {inner inner' : Construct → Parser Node}

theorem advance {f g : Token → Parser Node}
    (same : ∀ t, Composed inner inner' (· = t.span.start) (f t) (g t)) :
    TokenFirst inner inner' (Parser.advance >>= f) (Parser.advance >>= g) := by
  intro c t rest ahead
  refine ⟨f t, g t, ?_, ?_, same t⟩
  all_goals rw [bind_of_ok (advance_of_rest_cons ahead)]

/-- A construct that its first word announces. -/
theorem announced {construct construct' : Span → Parser Node}
    (same : ∀ {known} start, Composed inner inner' known (construct start) (construct' start)) :
    TokenFirst inner inner' (do construct (← Parser.advance).span)
      (do construct' (← Parser.advance).span) := advance fun _ => same _

theorem bind {p q : Parser Node} {f g : Node → Parser Node} (first : TokenFirst inner inner' p q)
    (second : ∀ {known} n, Composed inner inner' known (f n) (g n)) :
    TokenFirst inner inner' (p >>= f) (q >>= g) := by
  intro c t rest ahead
  obtain ⟨f₁, g₁, here, here', same⟩ := first c t rest ahead
  refine ⟨f₁ >>= f, g₁ >>= g, ?_, ?_, same.bind second⟩
  · rw [bind_apply, bind_apply, here]
  · rw [bind_apply, bind_apply, here']

theorem nextKind {f g : TokenKind → Parser Node}
    (chosen : ∀ kind, TokenFirst inner inner' (f kind) (g kind)) :
    TokenFirst inner inner' (Parser.nextKind >>= f) (Parser.nextKind >>= g) :=
  fun c => chosen c.nextKind c

theorem expressionWith (level : Precedence) :
    TokenFirst inner inner' (expressionWith inner level) (expressionWith inner' level) := by
  have words : TokenFirst inner inner'
      (do
        let first ← operand inner (← Parser.advance)
        operators inner level (← get).rest first)
      (do
        let first ← operand inner' (← Parser.advance)
        operators inner' level (← get).rest first) := by
    refine advance fun t => .andThen (.operand t rfl) ?_
    intro first c c' run
    exact .bind .get fun _ => .operators _ _ _ (StartsAt.operand t c first c' run)
  intro c t rest ahead
  unfold Parser.expressionWith
  rw [bind_of_ok (atEnd_of_rest_cons ahead), bind_of_ok (atEnd_of_rest_cons ahead)]
  exact words c t rest ahead

theorem declarationWith :
    TokenFirst inner inner' (declarationWith inner) (declarationWith inner') := by
  refine nextKind ?_
  intro kind
  split
  case h_1 => exact announced .classDecl
  case h_2 => exact announced .functionDecl
  case h_3 =>
    exact announced fun _ => .bind (.typedName _) fun _ => .bind (.optional (.inner _) _) fun _ =>
      .statement _ _ _
  case h_4 => exact announced .importDecl
  case h_5 => exact announced (.conditional _ _)
  case h_6 =>
    exact announced fun _ => .bind (.typedName _) fun _ => .bind (.expect _ _) fun _ =>
      .bind (.inner _) fun _ => .bind (.block (.inner _) _) fun _ => .spanned _ _
  case h_7 =>
    exact announced fun _ => .bind (.inner _) fun _ => .bind (.block (.inner _) _) fun _ =>
      .spanned _ _
  case h_8 =>
    exact announced fun _ => .bind (.inner _) fun _ => .bind (.expect _ _) fun _ =>
      .bind (.block (.inner _) _) fun _ => .spanned _ _
  case h_9 =>
    exact announced fun _ => .bind (.inner _) fun _ => .bind (.openBlock _) fun _ =>
      .bind (.sequence .switchCase _) fun _ => .spanned _ _
  case h_10 =>
    exact announced fun _ => .bind (.block (.inner _) _) fun _ =>
      .bind .catchClause fun _ => .spanned _ _
  case h_11 =>
    refine announced fun _ => .bind .get fun _ => .ite ?_ ?_
    · exact .bind (.pure _) fun _ => .statement _ _ _
    · exact .bind (.inner _) fun _ => .bind (.pure _) fun _ => .statement _ _ _
  case h_12 => exact announced (.valueStmt .kwThrow .throwStmt)
  case h_13 => exact announced (.valueStmt .kwYield .yieldStmt)
  case h_14 => exact announced (.jumpStmt .kwBreak .breakLoop)
  case h_15 => exact announced (.jumpStmt .kwContinue .continueLoop)
  case h_16 => exact announced (.jumpStmt .kwFallthrough .fallthrough)
  case h_17 =>
    exact bind (expressionWith _) fun _ => .bind (.endStatement _) fun _ => .node _ _

end TokenFirst

theorem expressionWith_atEnd {inner : Construct → Parser Node} {level : Precedence} {c : Cursor}
    (ended : c.rest = []) :
    expressionWith inner level c = fail (.missing .expression .anywhere) c := by
  unfold expressionWith
  rw [bind_of_ok (atEnd_of_rest_nil ended)]
  rfl

theorem expressionWith_of_rest_cons {c : Cursor} {t : Token} {rest : List Token}
    (h : c.rest = t :: rest) (inner : Construct → Parser Node) (level : Precedence) :
    expressionWith inner level c =
      (operand inner t >>= fun first => do operators inner level (← get).rest first)
        (c.behind t rest) := by
  unfold expressionWith
  rw [bind_of_ok (atEnd_of_rest_cons h)]
  change ((do
    let token ← advance
    let first ← operand inner token
    operators inner level (← get).rest first) : Parser Node) c = _
  rw [bind_of_ok (advance_of_rest_cons h)]

/-- At the end of input an expression is missing. -/
theorem declarationWith_atEnd {inner : Construct → Parser Node} {c : Cursor}
    (ended : c.rest = []) :
    declarationWith inner c = fail (.missing .expression .anywhere) c := by
  have next : c.nextKind = .eof := Cursor.nextKind_of_rest_nil ended
  have missing : expressionWith inner .assignment c = _ := expressionWith_atEnd ended
  unfold declarationWith
  rw [bind_of_ok (nextKind_apply c), next]
  change expressionStmt inner c = _
  unfold expressionStmt
  rw [bind_apply, missing]
  rfl

/-- A construct whose constructs within `inner` reads. -/
def constructWith (inner : Construct → Parser Node) : Construct → Parser Node
  | .declaration => declarationWith inner
  | .expression level => expressionWith inner level

theorem constructWithin_cons (round : Token) (loop : List Token) (k : Construct) :
    constructWithin (round :: loop) k = constructWith (constructWithin loop) k := by
  cases k <;> rfl

theorem constructWith_atEnd {inner : Construct → Parser Node} (k : Construct) {c : Cursor}
    (ended : c.rest = []) : constructWith inner k c = fail (.missing .expression .anywhere) c := by
  cases k with
  | declaration => exact declarationWith_atEnd ended
  | expression level => exact expressionWith_atEnd ended

theorem TokenFirst.constructWith {inner inner' : Construct → Parser Node} (k : Construct) :
    TokenFirst inner inner' (constructWith inner k) (constructWith inner' k) := by
  cases k with
  | declaration => exact .declarationWith
  | expression level => exact .expressionWith level

/-! ### How far reading goes -/

theorem Forward.of_composed {inner : ι → Parser Node} {p : Parser α}
    (composed : Composed inner inner (fun _ => True) p p) (asked : ∀ k, Forward (inner k)) :
    Forward p := composed.forward asked

theorem TokenFirst.advances {inner : Construct → Parser Node} {p : Parser Node}
    (opens : TokenFirst inner inner p p) (asked : ∀ k, Forward (inner k)) {fault : SyntaxFault}
    (atEnd : ∀ c, c.rest = [] → p c = fail fault c) : Advances p where
  forward c := by
    cases ahead : c.rest with
    | nil =>
      rw [atEnd c ahead]
      exact .refl c
    | cons t rest =>
      obtain ⟨f, g, here, -, composed⟩ := opens c t rest ahead
      rw [here]
      exact .take ahead (composed.forward asked _)
  takes c some := by
    obtain ⟨t, rest, ahead⟩ := List.exists_cons_of_ne_nil some
    obtain ⟨f, g, here, -, composed⟩ := opens c t rest ahead
    have fewer := (composed.forward asked (c.behind t rest)).rest_suffix.length_le
    rw [here, ahead, List.length_cons]
    exact Nat.lt_succ_of_le fewer

theorem advances_constructWith {inner : Construct → Parser Node} (asked : ∀ k, Forward (inner k))
    (k : Construct) : Advances (constructWith inner k) :=
  (TokenFirst.constructWith k).advances asked fun _ => constructWith_atEnd k

theorem forward_constructWithin (loop : List Token) (k : Construct) :
    Forward (constructWithin loop k) := by
  induction loop generalizing k with
  | nil => exact .fail _
  | cons round loop ih =>
    rw [constructWithin_cons]
    exact (advances_constructWith ih k).forward

/-- Reading a construct, even one with a fault, only takes tokens and numbers nodes, and it takes
    one token at least. -/
theorem advances_construct (k : Construct) : Advances (construct k) where
  forward := .bind .get fun c => forward_constructWithin c.rest k
  takes c some := by
    obtain ⟨t, rest, ahead⟩ := List.exists_cons_of_ne_nil some
    have shorter := (advances_constructWith (forward_constructWithin rest) k).takes c some
    rw [← constructWithin_cons t, ← ahead] at shorter
    exact shorter

end Parser

end TekLang
