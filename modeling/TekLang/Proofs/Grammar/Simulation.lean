import TekLang.Proofs.Grammar.Rounds
import TekLang.Proofs.Grammar.TopLevel
import TekLang.Proofs.Grammar.Translation

/-!
# Reading alike

A reader never looks at how its tokens are kept: it asks for the next one, for the last one and for
the little it has to know of those ahead, and takes and makes one thing after another. So if a
stream of tokens answers and steps as a list does, whatever is read from it is what is read from the
list, and so are the faults. A `Simulation` is the relation between the two that every step keeps;
`Simulates` says that of a reader, one lemma for each, and `readProgram_shows` of whole programs.

Loops have as many rounds as the stream has tokens, which may be more than the list has: more than
enough rounds change nothing (`Counted.enough`).
-/

namespace TekLang

/-- What a stream shows of tokens that a list holds. It answers as the list does and goes on showing
    what the list comes to, with the spellings and the numbers that `τ` gives. -/
structure Simulation (σ : Type) [TokenStream σ] where
  τ : Translation
  Shows : σ → Cursor → Prop
  nextKind {s c} : Shows s c → TokenStream.nextKind s = c.nextKind
  upcoming {s c} : Shows s c → TokenStream.upcoming s = translated τ c.upcoming
  atEnd {s c} : Shows s c → TokenStream.atEnd s = c.rest.isEmpty
  last {s c} : Shows s c → TokenStream.last s = translated τ c.last
  startsBlock {s c} : Shows s c → TokenStream.startsBlock s = c.startsBlock
  startsConstructor {s c} :
    Shows s c → TokenStream.startsConstructor s = Parser.startsConstructor c.rest
  startsGenericCall {s c} :
    Shows s c → TokenStream.startsGenericCall s = Parser.closesBeforeParen 1 c.rest
  rounds {s c} : Shows s c → c.rest.length ≤ (TokenStream.rounds s).length
  index {s c s' c'} : Shows s c → Shows s' c' → c'.rest.length < c.rest.length →
    TokenStream.index s' ≠ TokenStream.index s
  token {s c} : Shows s c → (TokenStream.advance s).1 = translated τ c.advance.1
  advance {s c} : Shows s c → Shows (TokenStream.advance s).2 c.advance.2
  made {s c} (span : Span) (form : Form Node) :
    Shows s c → (TokenStream.node span form s).1 = ⟨τ.number c.nextId, span, form⟩
  node {s c} (span : Span) (form : Form Node) :
    Shows s c → Shows (TokenStream.node span form s).2 c.numbered

variable {σ : Type} [TokenStream σ]

/-- Outcomes of the same reading. -/
inductive Simulation.Agrees (sim : Simulation σ) {α : Type} [Translatable α] :
    EStateM.Result SyntaxError Cursor α → EStateM.Result SyntaxError σ α → Prop
  | ok (a : α) {c s} (shows : sim.Shows s c) : Agrees sim (.ok a c) (.ok (translated sim.τ a) s)
  | error (e : SyntaxError) {c s} (shows : sim.Shows s c) : Agrees sim (.error e c) (.error e s)

/-- However reading ends, the place that it comes to is shown. -/
theorem Simulation.Agrees.shows {sim : Simulation σ} {α : Type} [Translatable α]
    {r : EStateM.Result SyntaxError Cursor α} {r' : EStateM.Result SyntaxError σ α}
    (agrees : sim.Agrees r r') : sim.Shows (Parser.placeAfter r') (Parser.placeAfter r) := by
  cases agrees with
  | ok a shows | error e shows => exact shows

/-- The second reader makes of a stream what the first one makes of a list that it shows. -/
def Simulates (sim : Simulation σ) {α : Type} [Translatable α] (p : Parser α)
    (q : ParserOf σ α) : Prop :=
  ∀ s c, sim.Shows s c → sim.Agrees (p c) (q s)

variable {sim : Simulation σ}

theorem Simulation.endsStatement {s : σ} {c : Cursor} (shows : sim.Shows s c) :
    TokenStream.endsStatement s = c.endsStatement := by
  rw [TokenStream.endsStatement, Cursor.endsStatement, sim.nextKind shows, sim.last shows]
  rfl

/-- Readers of constructs that may be asked alike: what the first ones read follows the grammar. -/
structure SimulatesGrammar (sim : Simulation σ) (inner : Construct → Parser Node)
    (inner' : Construct → ParserOf σ Node) : Prop where
  forward : ∀ k, Parser.Forward (inner k)
  grammar : Parser.FollowsGrammar inner
  within : ∀ k, Parser.IsAskable k → Simulates sim (inner k) (inner' k)

namespace SimulatesGrammar

variable {inner : Construct → Parser Node} {inner' : Construct → ParserOf σ Node}

theorem declaration (asked : SimulatesGrammar sim inner inner') :
    Simulates sim (inner .declaration) (inner' .declaration) := asked.within .declaration trivial

theorem expressionOf (asked : SimulatesGrammar sim inner inner') {level : Precedence}
    (askable : .assignment ≤ level) :
    Simulates sim (inner (.expression level)) (inner' (.expression level)) :=
  asked.within (.expression level) askable

end SimulatesGrammar

namespace Simulates

variable {α β : Type} [Translatable α] [Translatable β]

theorem bind {p : Parser α} {q : ParserOf σ α} {f : α → Parser β} {g : α → ParserOf σ β}
    (first : Simulates sim p q) (second : ∀ a, Simulates sim (f a) (g (translated sim.τ a))) :
    Simulates sim (p >>= f) (q >>= g) := by
  intro s c shows
  rw [bind_apply, bind_apply]
  have agrees := first s c shows
  generalize p c = r at agrees ⊢
  generalize q s = r' at agrees ⊢
  cases agrees with
  | ok a shows => exact second a _ _ shows
  | error e shows => exact .error e shows

theorem pure (a : α) :
    Simulates sim (Pure.pure a : Parser α) (Pure.pure (translated sim.τ a)) :=
  fun _ _ shows => .ok a shows

/-- Whatever is asked, the stream and the list that it shows may be asked alike. -/
theorem get {f : Cursor → Parser α} {g : σ → ParserOf σ α}
    (asked : ∀ s c, sim.Shows s c → Simulates sim (f c) (g s)) :
    Simulates sim (get >>= f) (get >>= g) :=
  fun s c shows => asked s c shows s c shows

theorem ite {condition condition' : Prop} [Decidable condition] [Decidable condition']
    {p p' : Parser α} {q q' : ParserOf σ α} (same : condition' ↔ condition)
    (yes : Simulates sim p q) (no : Simulates sim p' q') :
    Simulates sim (if condition then p else p') (if condition' then q else q') := by
  by_cases holds : condition
  · rw [if_pos holds, if_pos (same.2 holds)]
    exact yes
  · rw [if_neg holds, if_neg (mt same.1 holds)]
    exact no

/-- What a reader asks has the same answer. -/
theorem answer {f : Cursor → α} {g : σ → α}
    (same : ∀ s c, sim.Shows s c → g s = translated sim.τ (f c)) :
    Simulates sim (do return f (← MonadState.get)) (do return g (← MonadState.get)) := by
  intro s c shows
  change sim.Agrees (.ok (f c) c) (.ok (g s) s)
  rw [same s c shows]
  exact .ok (f c) shows

section Steps

theorem nextKind : Simulates sim Parser.nextKind Parser.nextKind :=
  answer fun _ _ shows => sim.nextKind shows

theorem upcoming : Simulates sim Parser.upcoming Parser.upcoming :=
  answer fun _ _ shows => sim.upcoming shows

theorem atEnd : Simulates sim Parser.atEnd Parser.atEnd :=
  answer fun _ _ shows => sim.atEnd shows

theorem failAt (span : Span) (fault : SyntaxFault) :
    Simulates sim (Parser.failAt span fault : Parser α) (Parser.failAt span fault) :=
  fun _ _ shows => .error ⟨fault, span⟩ shows

theorem fail (fault : SyntaxFault) :
    Simulates sim (Parser.fail fault : Parser α) (Parser.fail fault) :=
  .bind upcoming fun t => failAt t.span fault

theorem advance : Simulates sim Parser.advance Parser.advance := by
  intro s c shows
  change sim.Agrees (.ok c.advance.1 c.advance.2)
    (.ok (TokenStream.advance s).1 (TokenStream.advance s).2)
  rw [sim.token shows]
  exact .ok _ (sim.advance shows)

theorem accept (kind : TokenKind) : Simulates sim (Parser.accept kind) (Parser.accept kind) :=
  .bind nextKind fun _ => .ite .rfl (.bind advance fun _ => .pure true) (.pure false)

theorem expectAs (kind : TokenKind) (wanted : Wanted) (setting : Setting) :
    Simulates sim (Parser.expectAs kind wanted setting) (Parser.expectAs kind wanted setting) :=
  .bind nextKind fun _ => .ite .rfl advance (fail _)

theorem expect (kind : TokenKind) (setting : Setting) :
    Simulates sim (Parser.expect kind setting) (Parser.expect kind setting) := expectAs kind _ _

theorem expectName (setting : Setting) :
    Simulates sim (Parser.expectName setting) (Parser.expectName setting) := expectAs _ _ _

theorem comma (close : TokenKind) (setting : Setting) :
    Simulates sim (Parser.comma close setting) (Parser.comma close setting) :=
  .bind nextKind fun _ => .ite .rfl (.bind (expectAs _ _ _) fun _ => .pure ()) (.pure ())

theorem node (span : Span) (form : Form Node) :
    Simulates sim (Parser.node span form) (Parser.node span (translated sim.τ form)) := by
  intro s c shows
  have made := sim.made span (translated sim.τ form) shows
  rw [← Node.translated_mk] at made
  change sim.Agrees (.ok ⟨c.nextId, span, form⟩ c.numbered)
    (.ok (TokenStream.node span (translated sim.τ form) s).1 _)
  rw [made]
  exact .ok _ (sim.node span _ shows)

/-- A node up to the end of the last of its parts. -/
theorem nodeThrough (start : Span) (last : Node) (form : Form Node) :
    Simulates sim (Parser.node (start.through last.span) form)
      (Parser.node (start.through (translated sim.τ last).span) (translated sim.τ form)) := by
  rw [Node.span_translated]
  exact node _ form

theorem spanFrom (start : Span) :
    Simulates sim (Parser.spanFrom start) (Parser.spanFrom start) := by
  refine answer ?_
  intro s c shows
  rw [sim.last shows]
  rfl

theorem spanned (start : Span) (form : Form Node) :
    Simulates sim (do Parser.node (← Parser.spanFrom start) form)
      (do Parser.node (← Parser.spanFrom start) (translated sim.τ form)) :=
  .bind (spanFrom start) fun span => node span form

end Steps

section Loops

variable {item : Parser α} {item' : ParserOf σ α} (same : Simulates sim item item')
include same

theorem optional (mark : TokenKind) :
    Simulates sim (Parser.optional mark item) (Parser.optional mark item') :=
  .bind (accept mark) fun _ => .ite .rfl (.bind same fun _ => .pure _) (.pure none)

theorem itemsUntil (close : TokenKind) {separator : Parser Unit} {separator' : ParserOf σ Unit}
    (between : Simulates sim separator separator') (rounds : List Token) :
    Simulates sim (Parser.itemsUntil close item separator rounds)
      (Parser.itemsUntil close item' separator' rounds) := by
  induction rounds with
  | nil => exact .bind same fun a => .pure [a]
  | cons round rounds ih =>
    refine .bind (accept close) fun _ => .ite .rfl (.pure []) ?_
    exact .bind same fun a => .bind between fun _ => .bind ih fun as => .pure (a :: as)

theorem itemsAfter (mark : TokenKind) (rounds : List Token) :
    Simulates sim (Parser.itemsAfter mark item rounds) (Parser.itemsAfter mark item' rounds) := by
  induction rounds with
  | nil => exact .pure []
  | cons round rounds ih =>
    refine .bind (accept mark) fun _ => .ite .rfl ?_ (.pure [])
    exact .bind same fun a => .bind ih fun as => .pure (a :: as)

theorem sequence {close : TokenKind} (word : close ≠ .eof) (takes : Parser.Takes item) :
    Simulates sim (Parser.sequence close item) (Parser.sequence close item') := by
  intro s c shows
  have run := itemsUntil same close (.pure ()) (TokenStream.rounds s) s c shows
  rw [(Parser.itemsUntil_counted word takes (.pure ())).enough (sim.rounds shows)] at run
  exact run

theorem commaSequence {close : TokenKind} (word : close ≠ .eof) (takes : Parser.Takes item)
    (setting : Setting) :
    Simulates sim (Parser.commaSequence close setting item)
      (Parser.commaSequence close setting item') := by
  intro s c shows
  have run := itemsUntil same close (comma close setting) (TokenStream.rounds s) s c shows
  rw [(Parser.itemsUntil_counted word takes (.comma close setting)).enough (sim.rounds shows)]
    at run
  exact run

theorem eachAfter {mark : TokenKind} (word : mark ≠ .eof) (forward : Parser.Forward item) :
    Simulates sim (Parser.eachAfter mark item) (Parser.eachAfter mark item') := by
  intro s c shows
  have run := itemsAfter same mark (TokenStream.rounds s) s c shows
  rw [(Parser.itemsAfter_counted word forward).enough (sim.rounds shows)] at run
  exact run

theorem unlessAtEnd (wanted : Wanted) :
    Simulates sim (Parser.unlessAtEnd wanted item) (Parser.unlessAtEnd wanted item') :=
  .bind atEnd fun _ => .ite .rfl (fail _) same

end Loops

theorem optionalList {items : Parser (List α)} {items' : ParserOf σ (List α)}
    (same : Simulates sim items items') (mark : TokenKind) :
    Simulates sim (Parser.optionalList mark items) (Parser.optionalList mark items') :=
  .bind (accept mark) fun _ => .ite .rfl same (.pure [])

theorem endStatement (landmark : Landmark) :
    Simulates sim (Parser.endStatement landmark) (Parser.endStatement landmark) := by
  refine .bind (accept _) fun _ => .ite .rfl (.pure ()) ?_
  refine .get fun s c shows => .ite ?_ (fail _) (.pure ())
  rw [sim.endsStatement shows]
  rfl

theorem openBlock (landmark : Landmark) :
    Simulates sim (Parser.openBlock landmark) (Parser.openBlock landmark) :=
  .bind (expectAs _ _ _) fun _ =>
    .bind (eachAfter (.pure ()) (by decide) (.pure ())) fun _ =>
      .bind (expectAs _ _ _) fun _ => .pure ()

theorem block {construct : Parser Node} {construct' : ParserOf σ Node}
    (same : Simulates sim construct construct') (takes : Parser.Takes construct)
    (landmark : Landmark) :
    Simulates sim (Parser.block construct landmark) (Parser.block construct' landmark) :=
  .bind (openBlock landmark) fun _ =>
    sequence (unlessAtEnd same _) (by decide) (takes.unlessAtEnd _)

theorem statement (start : Span) (landmark : Landmark) (form : Form Node) :
    Simulates sim
      (do
        let span ← Parser.spanFrom start
        Parser.endStatement landmark
        Parser.node span form)
      (do
        let span ← Parser.spanFrom start
        Parser.endStatement landmark
        Parser.node span (translated sim.τ form)) :=
  .bind (spanFrom start) fun span => .bind (endStatement landmark) fun _ => node span form

/-! ### Types -/

theorem genericArguments {type : Parser Node} {type' : ParserOf σ Node}
    (same : Simulates sim type type') (takes : Parser.Takes type) :
    Simulates sim (Parser.genericArguments type) (Parser.genericArguments type') :=
  commaSequence same (by decide) takes _

theorem namesAfter (mark : TokenKind) (word : mark ≠ .eof) (setting : Setting) :
    Simulates sim (Parser.eachAfter mark (Parser.expectName setting))
      (Parser.eachAfter mark (Parser.expectName setting)) :=
  eachAfter (expectName setting) word (.expectAs _ _ _)

theorem typeWith {argument : Parser Node} {argument' : ParserOf σ Node}
    (same : Simulates sim argument argument') (takes : Parser.Takes argument) :
    Simulates sim (Parser.typeWith argument) (Parser.typeWith argument') := by
  refine .bind (expectAs _ _ _) fun first => .bind (namesAfter _ (by decide) _) fun others =>
    .bind (optionalList (genericArguments same takes) _) fun generics =>
      .bind (eachAfter (expect _ _) (by decide) (.expectAs _ _ _)) fun pairs => ?_
  have length : (translated sim.τ pairs).length = pairs.length := List.length_map _
  rw [length]
  exact .spanned first.span (.typeRef (first :: others) generics pairs.length)

theorem typeWithin (rounds : List Token) :
    Simulates sim (Parser.typeWithin rounds) (Parser.typeWithin rounds) := by
  induction rounds with
  | nil => exact fail _
  | cons round rounds ih => exact typeWith ih (Parser.typeWithin_follows rounds).takes

theorem typeRef : Simulates sim Parser.typeRef Parser.typeRef := by
  intro s c shows
  have run := typeWithin (TokenStream.rounds s) s c shows
  rw [Parser.typeWithin_counted.enough (sim.rounds shows)] at run
  exact run

theorem genericParameter : Simulates sim Parser.genericParameter Parser.genericParameter :=
  .bind (expectName _) fun name => .bind (optional typeRef _) fun bound =>
    .spanned name.span (.generic name bound)

theorem genericParameters : Simulates sim Parser.genericParameters Parser.genericParameters :=
  optionalList
    (commaSequence genericParameter (by decide) Parser.genericParameter_follows.takes _) _

theorem parameter : Simulates sim Parser.parameter Parser.parameter :=
  .bind (expectAs _ _ _) fun name => .bind (expect _ _) fun _ => .bind typeRef fun type =>
    .spanned name.span (.parameter name type)

theorem parameters : Simulates sim Parser.parameters Parser.parameters :=
  commaSequence parameter (by decide) Parser.parameter_follows.takes _

theorem typedName (after : TokenKind) :
    Simulates sim (Parser.typedName after) (Parser.typedName after) :=
  .bind (expectName _) fun name => .bind (optional typeRef _) fun type => .pure (name, type)

theorem rename : Simulates sim Parser.rename Parser.rename := optional (expectName _) _

theorem importedName : Simulates sim Parser.importedName Parser.importedName :=
  .bind (expectName _) fun name => .bind rename fun newName =>
    .spanned name.span (.importedName name newName)

theorem importDecl (start : Span) :
    Simulates sim (Parser.importDecl start) (Parser.importDecl start) := by
  refine .bind (expectName _) fun first => .bind (namesAfter _ (by decide) _) fun others =>
    .bind rename fun newName => .ite ?_ (.bind ?_ fun exposed => ?_) ?_
  · cases newName <;> rfl
  · exact optionalList
      (commaSequence importedName (by decide) Parser.importedName_follows.takes _) _
  · exact statement start _ (.importDecl (first :: others) newName exposed)
  · exact .bind (.pure []) fun exposed =>
      statement start _ (.importDecl (first :: others) newName exposed)

theorem jumpStmt (word : TokenKind) (jump : Jump) (start : Span) :
    Simulates sim (Parser.jumpStmt start word jump) (Parser.jumpStmt start word jump) :=
  .bind (endStatement _) fun _ => node start (.jumpStmt jump)

/-! ### Expressions -/

section Constructs

variable {inner : Construct → Parser Node} {inner' : Construct → ParserOf σ Node}
  (asked : SimulatesGrammar sim inner inner')
include asked

theorem expression : Simulates sim (Parser.expression inner) (Parser.expression inner') :=
  asked.expressionOf (by decide)

theorem constructs (landmark : Landmark) :
    Simulates sim (Parser.block (inner .declaration) landmark)
      (Parser.block (inner' .declaration) landmark) :=
  block asked.declaration asked.grammar.declaration.takes landmark

theorem arguments {close : TokenKind} (word : close ≠ .eof) :
    Simulates sim (Parser.arguments inner close) (Parser.arguments inner' close) :=
  commaSequence (unlessAtEnd (expression asked) _) word
    (asked.grammar.expression.takes.unlessAtEnd _) _

theorem elseBranch (use : Use) {chained : Construct} (askable : Parser.IsAskable chained) :
    Simulates sim (Parser.elseBranch inner use chained) (Parser.elseBranch inner' use chained) := by
  refine .get fun s c shows => ?_
  rw [sim.last shows]
  refine .bind nextKind fun _ => .ite .rfl ?_ ?_
  · exact .bind (asked.within _ askable) fun nested => .bind (.pure [nested]) fun body =>
      .spanned c.last.span (.elseBranch use body)
  · exact .bind (constructs asked _) fun body => .spanned c.last.span (.elseBranch use body)

theorem conditional (use : Use) {chained : Construct} (askable : Parser.IsAskable chained)
    (start : Span) :
    Simulates sim (Parser.conditional inner use chained start)
      (Parser.conditional inner' use chained start) :=
  .bind (expression asked) fun condition => .bind (constructs asked _) fun body =>
    .bind (optional (elseBranch asked use askable) _) fun otherwise =>
      .spanned start (.conditional use condition body otherwise)

theorem operand (token : Token) :
    Simulates sim (Parser.operand inner token)
      (Parser.operand inner' (translated sim.τ token)) := by
  unfold Parser.operand
  rw [Token.kind_translated, Token.span_translated]
  split
  case h_1 => exact node token.span (.identifier token)
  case h_2 => exact node token.span (.literal .number token)
  case h_3 => exact node token.span (.literal .string token)
  case h_4 => exact node token.span (.literal .boolean token)
  case h_5 => exact node token.span .this
  case h_6 => exact node token.span .super
  case h_7 =>
    exact .bind (expression asked) fun content => .bind (expect _ _) fun _ =>
      .spanned token.span (.wrapped content)
  case h_8 =>
    exact .bind (arguments asked (by decide)) fun elements => .spanned token.span (.array elements)
  case h_9 | h_10 =>
    exact .bind (asked.expressionOf (by decide)) fun n => nodeThrough token.span n (.unary token n)
  case h_11 =>
    exact .bind typeRef fun type => .bind (optionalList (arguments asked (by decide)) _) fun args =>
      .spanned token.span (.new type args)
  case h_12 =>
    exact .bind (asked.expressionOf (by decide)) fun n => nodeThrough token.span n (.async n)
  case h_13 => exact conditional asked .value (Parser.isAskable_chained .value) token.span
  case h_14 kind =>
    rw [Token.translated_of_reserved kind]
    exact failAt _ _
  case h_15 => exact failAt _ _

theorem binary (left : Node) (operator : Token) :
    Simulates sim (Parser.binary inner left operator)
      (Parser.binary inner' (translated sim.τ left) (translated sim.τ operator)) := by
  have askable : .assignment ≤ Precedence.ofRightOperand operator.kind :=
    Precedence.assignment_le_ofRightOperand operator.kind
  refine .bind (asked.expressionOf askable) fun right => ?_
  rw [Node.span_translated left]
  exact nodeThrough left.span right (.binary left operator right)

theorem call (callee : Node) (generics : List Node) :
    Simulates sim (Parser.call inner callee generics)
      (Parser.call inner' (translated sim.τ callee) (translated sim.τ generics)) := by
  refine .bind (arguments asked (by decide)) fun args => ?_
  rw [Node.span_translated]
  exact spanned callee.span (.call callee generics args)

theorem lessThan (left : Node) (operator : Token) :
    Simulates sim (Parser.lessThan inner left operator)
      (Parser.lessThan inner' (translated sim.τ left) (translated sim.τ operator)) := by
  refine .get fun s c shows => .ite ?_ ?_ (binary asked left operator)
  · rw [Node.form_translated, Parser.isGenericCallee_translated, sim.startsGenericCall shows]
    rfl
  · exact .bind (genericArguments typeRef Parser.typeRef_follows.takes) fun generics =>
      .bind (expect _ _) fun _ => call asked left generics

theorem assignment (target : Node) (operator : Token) :
    Simulates sim (Parser.assignment inner target operator)
      (Parser.assignment inner' (translated sim.τ target) (translated sim.τ operator)) := by
  have askable : .assignment ≤ Precedence.ofRightOperand operator.kind :=
    Precedence.assignment_le_ofRightOperand operator.kind
  have assigns : Simulates sim
      (do
        let value ← inner (.expression (.ofRightOperand operator.kind))
        Parser.node (target.span.through value.span) (.assignment target value))
      (do
        let value ← inner' (.expression (.ofRightOperand operator.kind))
        Parser.node (target.span.through value.span)
          (.assignment (translated sim.τ target) value)) :=
    .bind (asked.expressionOf askable) fun value =>
      nodeThrough target.span value (.assignment target value)
  unfold Parser.assignment
  rw [Node.form_translated, Parser.isAssignable_translated, Node.span_translated]
  exact .ite .rfl (.bind (failAt _ _) fun _ => assigns) assigns

theorem index (object : Node) :
    Simulates sim (Parser.index inner object) (Parser.index inner' (translated sim.τ object)) := by
  refine .bind (expression asked) fun subscript => .bind (expect _ _) fun _ => ?_
  rw [Node.span_translated]
  exact spanned object.span (.index object subscript)

omit asked in
theorem member (object : Node) :
    Simulates sim (Parser.member object) (Parser.member (translated sim.τ object)) := by
  refine .bind nextKind fun _ => .ite .rfl (.bind advance fun property => ?_) (fail _)
  rw [Node.span_translated]
  exact node (object.span.through property.span) (.member object property)

omit asked in
theorem instanceOf (value : Node) :
    Simulates sim (Parser.instanceOf value) (Parser.instanceOf (translated sim.τ value)) := by
  refine .bind typeRef fun type => ?_
  rw [Node.span_translated value]
  exact nodeThrough value.span type (.instanceOf value type)

theorem extend (left : Node) (operator : Token) :
    Simulates sim (Parser.extend inner left operator)
      (Parser.extend inner' (translated sim.τ left) (translated sim.τ operator)) := by
  unfold Parser.extend
  rw [Token.kind_translated]
  split
  case h_1 => exact call asked left []
  case h_2 => exact index asked left
  case h_3 => exact member left
  case h_4 => exact lessThan asked left operator
  case h_5 => exact instanceOf left
  case h_6 => exact assignment asked left operator
  case h_7 => exact binary asked left operator

theorem operators (level : Precedence) (rounds : List Token) (left : Node) :
    Simulates sim (Parser.operators inner level rounds left)
      (Parser.operators inner' level rounds (translated sim.τ left)) := by
  induction rounds generalizing left with
  | nil => exact .pure left
  | cons round rounds ih =>
    refine .bind nextKind fun _ => .ite .rfl ?_ (.pure left)
    exact .bind advance fun operator => .bind (extend asked left operator) fun more => ih more

theorem operatorsBehind {level : Precedence} (askable : .assignment ≤ level) (left : Node) :
    Simulates sim (Parser.operatorsBehind inner level left)
      (do
        let s ← MonadState.get
        Parser.operators inner' level (TokenStream.rounds s) (translated sim.τ left)) := by
  intro s c shows
  have run := operators asked level (TokenStream.rounds s) left s c shows
  rw [(Parser.operators_counted asked.forward askable).enough _ c.rest left c (sim.rounds shows)
    (Nat.le_refl _)] at run
  exact run

theorem expressionWith {level : Precedence} (askable : .assignment ≤ level) :
    Simulates sim (Parser.expressionWith inner level) (Parser.expressionWith inner' level) := by
  have words : Simulates sim
      (do
        let first ← Parser.operand inner (← Parser.advance)
        Parser.operatorsBehind inner level first)
      (do
        let first ← Parser.operand inner' (← Parser.advance)
        Parser.operators inner' level (TokenStream.rounds (← MonadState.get)) first) :=
    .bind advance fun token => .bind (operand asked token) fun first =>
      operatorsBehind asked askable first
  exact .bind atEnd fun _ => .ite .rfl (.bind (fail _) fun _ => words) words

/-! ### Declarations and statements -/

theorem variableDecl (start : Span) :
    Simulates sim (Parser.variableDecl inner start) (Parser.variableDecl inner' start) := by
  refine .bind (typedName _) ?_
  rintro ⟨name, type⟩
  exact .bind (optional (expression asked) _) fun value =>
    statement start _ (.variableDecl name type value)

theorem functionDecl (start : Span) :
    Simulates sim (Parser.functionDecl inner start) (Parser.functionDecl inner' start) := by
  refine .bind (expectName _) fun name => .bind genericParameters fun generics =>
    .bind (expect _ _) fun _ => .bind parameters fun params =>
      .bind (optional typeRef _) fun result => .get fun s c shows => .ite ?_ ?_ ?_
  · rw [sim.startsBlock shows]
    rfl
  · exact .bind (constructs asked _) fun body =>
      spanned start (.functionDecl name generics params result (some body))
  · exact statement start _ (.functionDecl name generics params result none)

theorem constructor (start : Span) :
    Simulates sim (Parser.constructor inner start) (Parser.constructor inner' start) := by
  refine .bind (expect _ _) fun _ => .bind parameters fun params =>
    .get fun s c shows => .ite ?_ ?_ ?_
  · rw [sim.startsBlock shows]
    rfl
  · exact .bind (constructs asked _) fun body => spanned start (.constructor params body)
  · exact .bind (endStatement _) fun _ => .bind (.pure []) fun body =>
      spanned start (.constructor params body)

theorem classMember :
    Simulates sim (Parser.classMember inner) (Parser.classMember inner') := by
  refine .get fun s c shows => .ite ?_ ?_ ?_
  · rw [sim.startsConstructor shows]
    rfl
  · exact .bind advance fun new => constructor asked new.span
  · exact .bind upcoming fun first => .bind (accept _) fun isStatic =>
      .bind asked.declaration fun value =>
        nodeThrough first.span value (.classMember isStatic value)

theorem classDecl (start : Span) :
    Simulates sim (Parser.classDecl inner start) (Parser.classDecl inner' start) := by
  have made (name : Token) (generics bases members : List Node) :
      Simulates sim
        (do
          Parser.node (← Parser.spanFrom start) (.classDecl name generics bases
            (members.filter (Parser.Section.ofMember · = .constructors))
            (members.filter (Parser.Section.ofMember · = .statics))
            (members.filter (Parser.Section.ofMember · = .instances))))
        (do
          Parser.node (← Parser.spanFrom start)
            (.classDecl (translated sim.τ name) (translated sim.τ generics)
              (translated sim.τ bases)
              ((translated sim.τ members).filter (Parser.Section.ofMember · = .constructors))
              ((translated sim.τ members).filter (Parser.Section.ofMember · = .statics))
              ((translated sim.τ members).filter (Parser.Section.ofMember · = .instances)))) := by
    simp only [Parser.sections_translated]
    exact spanned start (.classDecl name generics bases _ _ _)
  refine .bind (expectName _) fun name => ?_
  refine .bind genericParameters fun generics => .bind ?_ fun bases =>
    .get fun s c shows => .ite ?_ ?_ ?_
  · exact optionalList (.bind typeRef fun first =>
      .bind (eachAfter typeRef (by decide) .typeRef) fun others => .pure (first :: others)) _
  · rw [sim.startsBlock shows]
    rfl
  · have takes := (Parser.classMember_follows asked.grammar).takes
    exact .bind (openBlock _) fun _ =>
      .bind (sequence (unlessAtEnd (classMember asked) _) (by decide) (takes.unlessAtEnd _))
        fun members => made name generics bases members
  · exact .bind (endStatement _) fun _ => .bind (.pure []) fun members =>
      made name generics bases members

theorem forEach (start : Span) :
    Simulates sim (Parser.forEach inner start) (Parser.forEach inner' start) := by
  refine .bind (typedName _) ?_
  rintro ⟨name, type⟩
  exact .bind (expect _ _) fun _ => .bind (expression asked) fun iterable =>
    .bind (constructs asked _) fun body => spanned start (.forEach name type iterable body)

theorem whileLoop (start : Span) :
    Simulates sim (Parser.whileLoop inner start) (Parser.whileLoop inner' start) :=
  .bind (expression asked) fun condition => .bind (constructs asked _) fun body =>
    spanned start (.whileLoop condition body)

theorem repeatTimes (start : Span) :
    Simulates sim (Parser.repeatTimes inner start) (Parser.repeatTimes inner' start) :=
  .bind (expression asked) fun amount => .bind (expect _ _) fun _ =>
    .bind (constructs asked _) fun body =>
    spanned start (.repeatTimes amount body)

theorem switchCase : Simulates sim (Parser.switchCase inner) (Parser.switchCase inner') :=
  .bind (expect _ _) fun start => .bind (expression asked) fun first =>
    .bind (eachAfter (expression asked) (by decide) (asked.forward _)) fun others =>
      .bind (constructs asked _) fun body =>
        spanned start.span (.switchCase (first :: others) body)

theorem switch (start : Span) :
    Simulates sim (Parser.switch inner start) (Parser.switch inner' start) :=
  .bind (expression asked) fun subject => .bind (openBlock _) fun _ =>
    .bind (sequence (switchCase asked) (by decide)
      (Parser.switchCase_follows asked.grammar).takes) fun cases =>
        spanned start (.switch subject cases)

theorem catchClause : Simulates sim (Parser.catchClause inner) (Parser.catchClause inner') := by
  refine .bind (expect _ _) fun start => .bind (typedName _) ?_
  rintro ⟨name, type⟩
  exact .bind (constructs asked _) fun body => spanned start.span (.catchClause name type body)

theorem tryCatch (start : Span) :
    Simulates sim (Parser.tryCatch inner start) (Parser.tryCatch inner' start) :=
  .bind (constructs asked _) fun body => .bind (catchClause asked) fun handler =>
    spanned start (.tryCatch body handler)

theorem returnStmt (start : Span) :
    Simulates sim (Parser.returnStmt inner start) (Parser.returnStmt inner' start) := by
  refine .get fun s c shows => .ite ?_ ?_ ?_
  · rw [sim.endsStatement shows]
    rfl
  · exact .bind (.pure none) fun value => statement start _ (.returnStmt value)
  · exact .bind (expression asked) fun value => .bind (.pure (some value)) fun value =>
      statement start _ (.returnStmt value)

theorem valueStmt (word : TokenKind) {form : Node → Form Node}
    (keeps : ∀ n, form (translated sim.τ n) = translated sim.τ (form n)) (start : Span) :
    Simulates sim (Parser.valueStmt inner start word form)
      (Parser.valueStmt inner' start word form) := by
  refine .bind (expression asked) fun value => ?_
  rw [keeps]
  exact statement start _ (form value)

theorem expressionStmt :
    Simulates sim (Parser.expressionStmt inner) (Parser.expressionStmt inner') := by
  refine .bind (expressionWith asked (by decide)) fun value => .bind (endStatement _) fun _ => ?_
  rw [Node.span_translated]
  exact node value.span (.expressionStmt value)

theorem declarationWith :
    Simulates sim (Parser.declarationWith inner) (Parser.declarationWith inner') := by
  have announced {construct : Span → Parser Node} {construct' : Span → ParserOf σ Node}
      (same : ∀ start, Simulates sim (construct start) (construct' start)) :
      Simulates sim (do construct (← Parser.advance).span)
        (do construct' (← Parser.advance).span) :=
    .bind advance fun word => same word.span
  refine .bind nextKind fun kind => ?_
  rw [show translated sim.τ kind = kind from rfl]
  split
  case h_1 => exact announced (classDecl asked)
  case h_2 => exact announced (functionDecl asked)
  case h_3 => exact announced (variableDecl asked)
  case h_4 => exact announced importDecl
  case h_5 => exact announced (conditional asked .effect trivial)
  case h_6 => exact announced (forEach asked)
  case h_7 => exact announced (whileLoop asked)
  case h_8 => exact announced (repeatTimes asked)
  case h_9 => exact announced (switch asked)
  case h_10 => exact announced (tryCatch asked)
  case h_11 => exact announced (returnStmt asked)
  case h_12 => exact announced (valueStmt asked .kwThrow fun _ => rfl)
  case h_13 => exact announced (valueStmt asked .kwYield fun _ => rfl)
  case h_14 => exact announced (jumpStmt .kwBreak .breakLoop)
  case h_15 => exact announced (jumpStmt .kwContinue .continueLoop)
  case h_16 => exact announced (jumpStmt .kwFallthrough .fallthrough)
  case h_17 => exact expressionStmt asked

end Constructs

theorem constructWithin (rounds : List Token) {k : Construct} (askable : Parser.IsAskable k) :
    Simulates sim (Parser.constructWithin rounds k) (Parser.constructWithin rounds k) := by
  induction rounds generalizing k with
  | nil => exact fail _
  | cons round rounds ih =>
    have asked : SimulatesGrammar sim (Parser.constructWithin rounds)
        (Parser.constructWithin rounds) :=
      ⟨Parser.forward_constructWithin rounds, Parser.constructWithin_follows rounds, fun _ => ih⟩
    cases k with
    | declaration => exact declarationWith asked
    | expression level => exact expressionWith asked askable

theorem construct {k : Construct} (askable : Parser.IsAskable k) :
    Simulates sim (Parser.construct k) (Parser.construct k) := by
  intro s c shows
  have run := constructWithin (TokenStream.rounds s) askable s c shows
  rw [Parser.constructWithin_counted.enough _ c.rest k c (sim.rounds shows) (Nat.le_refl _)] at run
  exact run

theorem grammar : SimulatesGrammar sim Parser.construct Parser.construct :=
  ⟨fun k => (Parser.advances_construct k).forward, Parser.construct_follows, fun _ => construct⟩

end Simulates

/-! ### Programs -/

namespace Cursor

variable {c : Cursor} {t : Token} {rest : List Token}

theorem recover_ended (ended : c.rest = []) : c.recover = c := by
  unfold recover
  rw [ended, List.dropWhile_nil, ← ended]

theorem recover_stops (ahead : c.rest = t :: rest) (anew : t.kind.startsAnew = true) :
    c.recover = c := by
  unfold recover
  rw [ahead, List.dropWhile_cons_of_neg (by simp [anew]), ← ahead]

theorem recover_passes (ahead : c.rest = t :: rest) (other : ¬t.kind.startsAnew = true) :
    c.recover = { c with rest : Cursor }.recover := by
  unfold recover
  rw [ahead, List.dropWhile_cons_of_pos (by simp [other])]

end Cursor

namespace Simulation

/-- At the top of a program it does not matter what was read last. -/
def ShowsAhead (sim : Simulation σ) (s : σ) (c : Cursor) : Prop :=
  ∃ last, sim.Shows s { c with last }

theorem Shows.ahead {s : σ} {c : Cursor} (shows : sim.Shows s c) : sim.ShowsAhead s c :=
  ⟨c.last, shows⟩

theorem atEnd_of_rest_nil {s : σ} {c : Cursor} (shows : sim.Shows s c) (ended : c.rest = []) :
    TokenStream.atEnd s = true := by
  rw [sim.atEnd shows, ended]
  rfl

section Ahead

variable {s : σ} {c : Cursor} {t : Token} {rest : List Token} (shows : sim.Shows s c)
  (ahead : c.rest = t :: rest)
include shows ahead

theorem atEnd_of_rest_cons : ¬TokenStream.atEnd s = true := by
  rw [sim.atEnd shows, ahead]
  exact Bool.false_ne_true

theorem nextKind_of_rest_cons : TokenStream.nextKind s = t.kind :=
  (sim.nextKind shows).trans (Cursor.nextKind_of_rest_cons ahead)

theorem shows_behind : sim.Shows (TokenStream.advance s).2 (c.behind t rest) := by
  have next := sim.advance shows
  rw [Cursor.advance, ahead] at next
  exact next

end Ahead

/-- Both pass over the same tokens behind a fault. -/
theorem synchronize_shows (rounds : List Token) {s : σ} {c : Cursor}
    (shows : sim.ShowsAhead s c) (enough : c.rest.length ≤ rounds.length) :
    sim.ShowsAhead (TokenStream.synchronize rounds s) c.recover := by
  induction rounds generalizing s c with
  | nil =>
    rw [Cursor.recover_ended (List.length_eq_zero_iff.1 (Nat.le_zero.1 enough))]
    exact shows
  | cons round rounds ih =>
    obtain ⟨last, shows⟩ := shows
    unfold TokenStream.synchronize
    cases ahead : c.rest with
    | nil =>
      rw [if_pos (.inl (sim.atEnd_of_rest_nil shows ahead)), Cursor.recover_ended ahead]
      exact ⟨last, shows⟩
    | cons t rest =>
      have more := sim.atEnd_of_rest_cons shows ahead
      rw [sim.nextKind_of_rest_cons shows ahead]
      by_cases anew : t.kind.startsAnew = true
      · rw [if_pos (.inr anew), Cursor.recover_stops ahead anew]
        exact ⟨last, shows⟩
      · rw [if_neg (not_or.2 ⟨more, anew⟩), Cursor.recover_passes ahead anew]
        have next := sim.shows_behind shows ahead
        have later : sim.ShowsAhead (TokenStream.advance s).2 { c with rest } := ⟨t, next⟩
        rw [ahead] at enough
        exact ih later (Nat.le_of_succ_le_succ enough)

/-- A construct at the top is read alike, whatever was read last. -/
theorem construct_agrees {s : σ} {c : Cursor} {t : Token} {rest : List Token}
    (shows : sim.ShowsAhead s c) (ahead : c.rest = t :: rest) :
    sim.Agrees (Parser.construct .declaration c) (Parser.construct .declaration s) := by
  obtain ⟨last, shows⟩ := shows
  have askable : Parser.IsAskable .declaration := trivial
  have same : Parser.construct .declaration c =
      Parser.construct .declaration { c with last : Cursor } :=
    Parser.construct_of_behind ahead ahead rfl
  rw [same]
  exact Simulates.construct askable s _ shows

/-- Behind a fault reading is taken up at the same place. The fault has taken a token, so no other
    one is passed over for it. -/
theorem resumption_shows {s s' : σ} {c c' : Cursor} (here : sim.Shows s c)
    (shows : sim.Shows s' c') (less : c'.rest.length < c.rest.length) :
    sim.ShowsAhead (TokenStream.resumption s s') c'.recover := by
  unfold TokenStream.resumption
  rw [if_neg (sim.index here shows less)]
  exact sim.synchronize_shows _ shows.ahead (sim.rounds shows)

/-- The loop at the top reads what it reads from the list. -/
structure ShowsProgram (sim : Simulation σ) (stop : Token) (read : Declarations σ)
    (top : TopLevel) : Prop where
  body : read.body = translated sim.τ top.body
  errors : read.errors = top.errors
  place : sim.ShowsAhead read.place ⟨[], stop, stop, top.nextId⟩

theorem ShowsProgram.ended {s : σ} {c : Cursor} (shows : sim.ShowsAhead s c)
    (ended : c.rest = []) : sim.ShowsProgram c.stop ⟨[], [], s⟩ ⟨[], [], c.nextId⟩ := by
  obtain ⟨last, shows⟩ := shows
  refine ⟨rfl, rfl, last, ?_⟩
  rw [ended] at shows
  exact shows

theorem declarations_shows (rounds loop : List Token) {s : σ} {c : Cursor}
    (shows : sim.ShowsAhead s c) (enough : c.rest.length ≤ rounds.length)
    (enough' : c.rest.length ≤ loop.length) :
    sim.ShowsProgram c.stop (TokenStream.declarations rounds s) (topLevel loop c) := by
  induction rounds generalizing s c loop with
  | nil =>
    have ended : c.rest = [] := List.length_eq_zero_iff.1 (Nat.le_zero.1 enough)
    rw [topLevel_ended loop ended]
    exact .ended shows ended
  | cons round rounds ih =>
    obtain ⟨last, here⟩ := shows
    unfold TokenStream.declarations
    cases ahead : c.rest with
    | nil =>
      rw [if_pos (sim.atEnd_of_rest_nil here ahead), topLevel_ended loop ahead]
      exact .ended ⟨last, here⟩ ahead
    | cons t rest =>
      rw [ahead] at enough enough'
      obtain ⟨u, loop, rfl⟩ := List.exists_cons_of_length_pos (Nat.lt_of_lt_of_le (by simp) enough')
      have enough := Nat.le_of_succ_le_succ enough
      have enough' := Nat.le_of_succ_le_succ enough'
      rw [if_neg (sim.atEnd_of_rest_cons here ahead), sim.nextKind_of_rest_cons here ahead]
      by_cases layout : t.kind = .newline ∨ t.kind = .outdent
      · rw [if_pos layout, topLevel_layout ahead layout]
        have next := sim.shows_behind here ahead
        have later : sim.ShowsAhead (TokenStream.advance s).2 { c with rest } := ⟨t, next⟩
        exact ih loop later enough enough'
      · have agrees := sim.construct_agrees ⟨last, here⟩ ahead
        have forward := (Parser.advances_construct .declaration).forward c
        have less := (Parser.advances_construct .declaration).takes c (by simp [ahead])
        rw [if_neg layout, topLevel_construct ahead layout]
        generalize Parser.construct .declaration c = outcome at agrees forward less ⊢
        generalize Parser.construct .declaration s = outcome' at agrees ⊢
        cases agrees with
        | @ok n c' s' shows =>
          have stop : c'.stop = c.stop := forward.stop_eq
          have fewer : c'.rest.length ≤ rest.length := by
            rw [ahead] at less
            exact Nat.le_of_lt_succ less
          have others :=
            ih loop shows.ahead (Nat.le_trans fewer enough) (Nat.le_trans fewer enough')
          rw [stop] at others
          exact ⟨congrArg (translated sim.τ n :: ·) others.body, others.errors, others.place⟩
        | @error e c' s' shows =>
          have stop : c'.recover.stop = c.stop := forward.stop_eq
          have fewer : c'.recover.rest.length ≤ rest.length := by
            rw [ahead] at less
            exact Nat.le_trans c'.recover_suffix.length_le (Nat.le_of_lt_succ less)
          have later := sim.resumption_shows here shows less
          have others := ih loop later (Nat.le_trans fewer enough) (Nat.le_trans fewer enough')
          rw [stop] at others
          exact ⟨others.body, congrArg (e :: ·) others.errors, others.place⟩

/-- A program is read from a stream as it is read from the list that the stream shows. -/
theorem readProgram_shows {s : σ} {c : Cursor} (shows : sim.Shows s c) :
    let top := topLevel c.rest c
    let span := c.upcoming.span.through c.stop.span
    (TokenStream.readProgram s).1 =
      ⟨⟨sim.τ.number top.nextId, span, .program (translated sim.τ top.body)⟩,
        top.errors.map (·.diagnostic)⟩ ∧
    sim.ShowsAhead (TokenStream.readProgram s).2 ⟨[], c.stop, c.stop, top.nextId + 1⟩ := by
  intro top span
  have read := sim.declarations_shows _ c.rest shows.ahead (sim.rounds shows) (Nat.le_refl _)
  obtain ⟨last, ended⟩ := read.place
  have start : (TokenStream.upcoming s).span = c.upcoming.span := by
    rw [sim.upcoming shows]
    rfl
  have stop : (TokenStream.upcoming
      (TokenStream.declarations (TokenStream.rounds s) s).place).span = c.stop.span := by
    rw [sim.upcoming ended]
    rfl
  unfold TokenStream.readProgram
  dsimp only
  rw [start, stop, read.body, read.errors]
  refine ⟨?_, last, sim.node span _ ended⟩
  rw [sim.made _ _ ended]

end Simulation

end TekLang
