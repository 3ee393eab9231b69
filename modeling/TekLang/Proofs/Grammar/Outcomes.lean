import TekLang.Proofs.Grammar.FollowsExpression

/-!
# What readers hand on

A reader succeeds with nodes or fails with a fault. `Demands` says what is demanded of either, and
`Meets` that a reader keeps to it wherever it stands. Whatever is read but an expression with
operands is good as soon as its parts are, and whatever is missing is missed in front of the token
that is there instead, so a reader meets demands if those that it asks do. What is special about
operators and their operands is left to those who make the demands.
-/

namespace TekLang

/-- The expressions that the table of precedences says something about. -/
def Form.hasOperands {α : Type} : Form α → Bool
  | .unary .. | .binary .. | .call .. | .index .. | .member .. | .instanceOf .. | .async _ => true
  | _ => false

/-- What is demanded of nodes, and of faults together with the cursors that they leave. -/
structure Demands where
  Good : Node → Prop
  Fault : SyntaxError → Cursor → Prop
  /-- Without operands a node is good if its parts are. -/
  good : ∀ {id span} {form : Form Node}, form.hasOperands = false →
    (∀ part ∈ form.parts, Good part) → Good ⟨id, span, form⟩
  /-- What is missing is missed where the next token stands. -/
  fault : ∀ {wanted setting} {c : Cursor}, wanted ≠ .construct →
    Fault ⟨.missing wanted setting, c.upcoming.span⟩ c

/-- What is said of all nodes in things of a type. -/
class HoldsNodes (α : Type) where
  AllNodes : (Node → Prop) → α → Prop

export HoldsNodes (AllNodes)

instance : HoldsNodes Node := ⟨fun good => good⟩

instance : HoldsNodes Token := ⟨fun _ _ => True⟩

instance : HoldsNodes Unit := ⟨fun _ _ => True⟩

instance : HoldsNodes Bool := ⟨fun _ _ => True⟩

instance : HoldsNodes TokenKind := ⟨fun _ _ => True⟩

instance : HoldsNodes Span := ⟨fun _ _ => True⟩

instance : HoldsNodes Cursor := ⟨fun _ _ => True⟩

section Collections

variable {α β : Type} [HoldsNodes α] [HoldsNodes β]

instance : HoldsNodes (List α) := ⟨fun good as => ∀ a ∈ as, AllNodes good a⟩

instance : HoldsNodes (Option α) := ⟨fun good a? => ∀ a ∈ a?, AllNodes good a⟩

instance : HoldsNodes (α × β) := ⟨fun good ab => AllNodes good ab.1 ∧ AllNodes good ab.2⟩

end Collections

theorem forall_mem_toList {good : Node → Prop} {n? : Option Node} (all : ∀ n ∈ n?, good n) :
    ∀ n ∈ n?.toList, good n := fun n there => all n (Option.mem_toList.1 there)

variable {α β : Type} [HoldsNodes α] [HoldsNodes β] {demands : Demands}

/-- An outcome that keeps to what is demanded. -/
def Demands.Allows (demands : Demands) : EStateM.Result SyntaxError Cursor α → Prop
  | .ok a _ => AllNodes demands.Good a
  | .error e c => demands.Fault e c

theorem Demands.Allows.bind {p : Parser α} {f : α → Parser β} {c : Cursor}
    (first : demands.Allows (p c))
    (second : ∀ a c', p c = .ok a c' → AllNodes demands.Good a → demands.Allows (f a c')) :
    demands.Allows ((p >>= f) c) := by
  rw [bind_apply]
  cases run : p c with
  | ok a c' =>
    rw [run] at first
    exact second a c' run first
  | error e c' =>
    rw [run] at first
    exact first

/-- Wherever the parser stands, its outcome keeps to what is demanded. -/
def Meets (demands : Demands) (p : Parser α) : Prop := ∀ c, demands.Allows (p c)

namespace Meets

theorem ok {p : Parser α} (meets : Meets demands p) {c c' : Cursor} {a : α}
    (run : p c = .ok a c') : AllNodes demands.Good a := by
  have allows := meets c
  rw [run] at allows
  exact allows

section Steps

theorem bind {p : Parser α} {f : α → Parser β} (first : Meets demands p)
    (second : ∀ a, AllNodes demands.Good a → Meets demands (f a)) : Meets demands (p >>= f) :=
  fun c => (first c).bind fun a c' _ good => second a good c'

theorem ite {condition : Prop} [Decidable condition] {p q : Parser α} (yes : Meets demands p)
    (no : Meets demands q) : Meets demands (if condition then p else q) := by
  split
  · exact yes
  · exact no

theorem pure {a : α} (good : AllNodes demands.Good a) :
    Meets demands (Pure.pure a : Parser α) := fun _ => good

theorem get : Meets demands (get : Parser Cursor) := fun _ => trivial

theorem upcoming : Meets demands Parser.upcoming := fun _ => trivial

theorem nextKind : Meets demands Parser.nextKind := fun _ => trivial

theorem atEnd : Meets demands Parser.atEnd := fun _ => trivial

theorem advance : Meets demands Parser.advance := by
  rintro ⟨rest, stop, last, nextId⟩
  cases rest <;> trivial

theorem spanFrom (start : Span) : Meets demands (Parser.spanFrom start) := fun _ => trivial

theorem fail (wanted : Wanted) (setting : Setting) (ahead : wanted ≠ .construct) :
    Meets demands (Parser.fail (.missing wanted setting) : Parser α) := fun _ => demands.fault ahead

theorem accept (kind : TokenKind) : Meets demands (Parser.accept kind) :=
  .bind nextKind fun _ _ => .ite (.bind advance fun _ _ => .pure trivial) (.pure trivial)

theorem expectAs (kind : TokenKind) (wanted : Wanted) (setting : Setting)
    (ahead : wanted ≠ .construct) : Meets demands (Parser.expectAs kind wanted setting) :=
  .bind nextKind fun _ _ => .ite advance (fail wanted setting ahead)

theorem expect (kind : TokenKind) (setting : Setting) :
    Meets demands (Parser.expect kind setting) := expectAs kind _ setting nofun

theorem expectName (setting : Setting) : Meets demands (Parser.expectName setting) :=
  expectAs .identifier _ setting nofun

theorem node {span : Span} {form : Form Node} (loose : form.hasOperands = false)
    (good : ∀ part ∈ form.parts, demands.Good part) : Meets demands (Parser.node span form) := by
  intro c
  rw [Parser.node_apply]
  exact demands.good loose good

theorem spanned {start : Span} {form : Form Node} (loose : form.hasOperands = false)
    (good : ∀ part ∈ form.parts, demands.Good part) :
    Meets demands (do Parser.node (← Parser.spanFrom start) form) :=
  .bind (spanFrom start) fun _ _ => node loose good

end Steps

section Loops

variable {item : Parser α} (each : Meets demands item)
include each

theorem optional (mark : TokenKind) : Meets demands (Parser.optional mark item) := by
  refine .bind (accept mark) fun _ _ => .ite ?_ (.pure nofun)
  refine .bind each fun a good => .pure ?_
  rintro _ ⟨⟩
  exact good

theorem itemsUntil (close : TokenKind) {separator : Parser Unit}
    (between : Meets demands separator) (rounds : List Token) :
    Meets demands (Parser.itemsUntil close item separator rounds) := by
  induction rounds with
  | nil => exact .bind each fun a good => .pure (List.forall_mem_singleton.2 good)
  | cons round rounds ih =>
    refine .bind (accept close) fun _ _ => .ite (.pure nofun) ?_
    exact .bind each fun a good => .bind between fun _ _ => .bind ih fun as others =>
      .pure (List.forall_mem_cons.2 ⟨good, others⟩)

theorem itemsAfter (mark : TokenKind) (rounds : List Token) :
    Meets demands (Parser.itemsAfter mark item rounds) := by
  induction rounds with
  | nil => exact .pure nofun
  | cons round rounds ih =>
    refine .bind (accept mark) fun _ _ => .ite ?_ (.pure nofun)
    exact .bind each fun a good => .bind ih fun as others =>
      .pure (List.forall_mem_cons.2 ⟨good, others⟩)

theorem sequence (close : TokenKind) : Meets demands (Parser.sequence close item) :=
  .bind get fun c _ => itemsUntil each close (.pure trivial) c.rest

theorem commaSequence (close : TokenKind) (setting : Setting) :
    Meets demands (Parser.commaSequence close setting item) := by
  refine .bind get fun c _ => itemsUntil each close ?_ c.rest
  exact .bind nextKind fun _ _ =>
    .ite (.bind (expectAs _ _ _ nofun) fun _ _ => .pure trivial) (.pure trivial)

theorem eachAfter (mark : TokenKind) : Meets demands (Parser.eachAfter mark item) :=
  .bind get fun c _ => itemsAfter each mark c.rest

theorem unlessAtEnd (wanted : Wanted) (ahead : wanted ≠ .construct) :
    Meets demands (Parser.unlessAtEnd wanted item) :=
  .bind atEnd fun _ _ => .ite (fail _ _ ahead) each

end Loops

theorem optionalList {items : Parser (List α)} (all : Meets demands items) (mark : TokenKind) :
    Meets demands (Parser.optionalList mark items) :=
  .bind (accept mark) fun _ _ => .ite all (.pure nofun)

theorem endStatement (landmark : Landmark) : Meets demands (Parser.endStatement landmark) :=
  .bind (accept _) fun _ _ => .ite (.pure trivial)
    (.bind get fun _ _ => .ite (fail _ _ nofun) (.pure trivial))

theorem openBlock (landmark : Landmark) : Meets demands (Parser.openBlock landmark) :=
  .bind (expectAs _ _ _ nofun) fun _ _ => .bind (eachAfter (.pure trivial) _) fun _ _ =>
    .bind (expectAs _ _ _ nofun) fun _ _ => .pure trivial

theorem block {construct : Parser Node} (each : Meets demands construct) (landmark : Landmark) :
    Meets demands (Parser.block construct landmark) :=
  .bind (openBlock landmark) fun _ _ => sequence (unlessAtEnd each .endOfBlock nofun) _

theorem statement {start : Span} {landmark : Landmark} {form : Form Node}
    (loose : form.hasOperands = false) (good : ∀ part ∈ form.parts, demands.Good part) :
    Meets demands (do
      let span ← Parser.spanFrom start
      Parser.endStatement landmark
      Parser.node span form) :=
  .bind (spanFrom start) fun _ _ => .bind (endStatement landmark) fun _ _ => node loose good

/-! ### Types -/

theorem genericArguments {type : Parser Node} (each : Meets demands type) :
    Meets demands (Parser.genericArguments type) := commaSequence each _ _

theorem typeWith {argument : Parser Node} (each : Meets demands argument) :
    Meets demands (Parser.typeWith argument) :=
  .bind (expectAs _ _ _ nofun) fun _ _ => .bind (eachAfter (expectName _) _) fun _ _ =>
    .bind (optionalList (genericArguments each) _) fun _ generics =>
      .bind (eachAfter (expect _ _) _) fun _ _ => .spanned rfl generics

theorem typeRef : Meets demands Parser.typeRef := by
  refine .bind get fun c _ => ?_
  rw [TokenStream.rounds_cursor]
  induction c.rest with
  | nil => exact fail _ _ nofun
  | cons round rounds ih => exact typeWith ih

theorem genericParameters : Meets demands Parser.genericParameters := by
  refine optionalList (commaSequence ?_ _ _) _
  refine .bind (expectName _) fun _ _ => .bind (optional typeRef _) fun bound good => ?_
  exact .spanned rfl (forall_mem_toList good)

theorem parameters : Meets demands Parser.parameters := by
  refine commaSequence ?_ _ _
  refine .bind (expectAs _ .parameterName _ nofun) fun _ _ => .bind (expect _ _) fun _ _ => ?_
  refine .bind typeRef fun type good => .spanned rfl ?_
  exact List.forall_mem_singleton.2 good

theorem typedName (after : TokenKind) : Meets demands (Parser.typedName after) :=
  .bind (expectName _) fun _ _ => .bind (optional typeRef _) fun _ good =>
    .pure ⟨trivial, good⟩

theorem rename : Meets demands Parser.rename := optional (expectName _) _

theorem importDecl (start : Span) : Meets demands (Parser.importDecl start) := by
  refine .bind (expectName _) fun _ _ => .bind (eachAfter (expectName _) _) fun _ _ =>
    .bind rename fun _ _ => .ite ?_ ?_
  · refine .bind (optionalList (commaSequence ?_ _ _) _) fun exposed good => .statement rfl good
    refine .bind (expectName _) fun name _ => .bind rename fun newName _ => ?_
    exact .spanned rfl (List.forall_mem_nil _)
  · exact .bind (.pure (List.forall_mem_nil _)) fun exposed good => .statement rfl good

theorem jumpStmt (word : TokenKind) (jump : Jump) (start : Span) :
    Meets demands (Parser.jumpStmt start word jump) :=
  .bind (endStatement _) fun _ _ => .node rfl (List.forall_mem_nil _)

/-! ### Constructs -/

section Constructs

variable {inner : Construct → Parser Node}
  (within : ∀ k, Parser.IsAskable k → Meets demands (inner k))
include within

theorem declaration : Meets demands (inner .declaration) := within .declaration trivial

theorem expression : Meets demands (Parser.expression inner) :=
  within (.expression .assignment) (Precedence.le_refl _)

theorem indented (landmark : Landmark) :
    Meets demands (Parser.block (inner .declaration) landmark) :=
  block (declaration within) landmark

theorem arguments (close : TokenKind) : Meets demands (Parser.arguments inner close) :=
  commaSequence (unlessAtEnd (expression within) (.token close) nofun) _ _

theorem elseBranch (use : Use) :
    Meets demands (Parser.elseBranch inner use (Parser.chained use)) := by
  refine .bind get fun c _ => .bind nextKind fun _ _ => .ite ?_ ?_
  · refine .bind (within _ (Parser.isAskable_chained use)) fun nested good => ?_
    refine .bind (.pure ?_) fun body all => .spanned rfl all
    exact List.forall_mem_singleton.2 good
  · exact .bind (indented within _) fun body all => .spanned rfl all

theorem conditional (use : Use) (start : Span) :
    Meets demands (Parser.conditional inner use (Parser.chained use) start) := by
  refine .bind (expression within) fun condition tested => .bind (indented within _) fun body all =>
    .bind (optional (elseBranch within use) _) fun otherwise other => .spanned rfl ?_
  refine List.forall_mem_cons.2 ⟨tested, List.forall_mem_append.2 ⟨all, ?_⟩⟩
  exact forall_mem_toList other

/-- An operand meets the demands if signs and `async` do and if they allow for the faults of a token
    that begins no operand. -/
theorem operand {token : Token} {c : Cursor}
    (signs : token.kind = .minus ∨ token.kind = .kwNot →
      demands.Allows (Parser.unary inner token c))
    (async : demands.Allows (Parser.async inner token.span c))
    (reserved : token.kind = .kwAbstract → demands.Fault ⟨.reservedWord token.lexeme, token.span⟩ c)
    (other : demands.Fault ⟨.missing .construct .anywhere, token.span⟩ c) :
    demands.Allows (Parser.operand inner token c) := by
  have name {form : Form Node} (loose : form.hasOperands = false) (leaf : form.parts = []) :
      Meets demands (Parser.node token.span form) :=
    .node loose (leaf ▸ List.forall_mem_nil _)
  unfold Parser.operand
  change (fun p : Parser Node => demands.Allows (p c)) _
  split
  case h_1 | h_2 | h_3 | h_4 | h_5 | h_6 => exact name rfl rfl c
  case h_7 =>
    have wrapped : Meets demands (Parser.wrapped inner token.span) :=
      .bind (expression within) fun content good => .bind (expect _ _) fun _ _ =>
        .spanned rfl (List.forall_mem_singleton.2 good)
    exact wrapped c
  case h_8 =>
    have array : Meets demands (Parser.array inner token.span) :=
      .bind (arguments within _) fun elements all => .spanned rfl all
    exact array c
  case h_9 kind => exact signs (.inl kind)
  case h_10 kind => exact signs (.inr kind)
  case h_11 =>
    have made : Meets demands (Parser.newObject inner token.span) :=
      .bind typeRef fun type good => .bind (optionalList (arguments within _) _) fun args all =>
        .spanned rfl (List.forall_mem_cons.2 ⟨good, all⟩)
    exact made c
  case h_12 => exact async
  case h_13 => exact conditional within .value _ c
  case h_14 kind => exact reserved kind
  case h_15 => exact other

/-! ### Declarations and statements -/

theorem variableDecl (start : Span) : Meets demands (Parser.variableDecl inner start) := by
  refine .bind (typedName _) ?_
  rintro ⟨name, type⟩ ⟨-, annotated⟩
  refine .bind (optional (expression within) _) fun value given => .statement rfl ?_
  exact List.forall_mem_append.2 ⟨forall_mem_toList annotated, forall_mem_toList given⟩

theorem functionDecl (start : Span) : Meets demands (Parser.functionDecl inner start) := by
  refine .bind (expectName _) fun name _ => .bind genericParameters fun generics bounds =>
    .bind (expect _ _) fun _ _ => .bind parameters fun params types =>
      .bind (optional typeRef _) fun result annotated => .bind get fun c _ => ?_
  have signature : ∀ part ∈ generics ++ params ++ result.toList, demands.Good part :=
    List.forall_mem_append.2 ⟨List.forall_mem_append.2 ⟨bounds, types⟩, forall_mem_toList annotated⟩
  refine .ite ?_ ?_
  · refine .bind (indented within _) fun body all => .spanned rfl ?_
    exact List.forall_mem_append.2 ⟨signature, all⟩
  · exact .statement rfl (List.forall_mem_append.2 ⟨signature, List.forall_mem_nil _⟩)

theorem constructor (start : Span) : Meets demands (Parser.constructor inner start) := by
  refine .bind (expect _ _) fun _ _ => .bind parameters fun params types =>
    .bind get fun c _ => .ite ?_ ?_
  · refine .bind (indented within _) fun body all => .spanned rfl ?_
    exact List.forall_mem_append.2 ⟨types, all⟩
  · refine .bind (endStatement _) fun _ _ => .bind (.pure (List.forall_mem_nil _))
      fun body all => .spanned rfl ?_
    exact List.forall_mem_append.2 ⟨types, all⟩

theorem classMember : Meets demands (Parser.classMember inner) := by
  refine .bind get fun c _ => .ite ?_ ?_
  · exact .bind advance fun new _ => constructor within new.span
  · refine .bind upcoming fun first _ => .bind (accept _) fun isStatic _ =>
      .bind (declaration within) fun value good => .node rfl ?_
    exact List.forall_mem_singleton.2 good

theorem classDecl (start : Span) : Meets demands (Parser.classDecl inner start) := by
  have made (name : Token) {generics bases members : List Node}
      (bounds : ∀ n ∈ generics, demands.Good n) (derived : ∀ n ∈ bases, demands.Good n)
      (all : ∀ n ∈ members, demands.Good n) :
      Meets demands (do
        Parser.node (← Parser.spanFrom start) (.classDecl name generics bases
          (members.filter (Parser.Section.ofMember · = .constructors))
          (members.filter (Parser.Section.ofMember · = .statics))
          (members.filter (Parser.Section.ofMember · = .instances)))) := by
    have part (s : Parser.Section) :
        ∀ n ∈ members.filter (Parser.Section.ofMember · = s), demands.Good n :=
      fun n there => all n ((List.mem_filter.1 there).1)
    refine .spanned rfl (List.forall_mem_append.2 ⟨List.forall_mem_append.2 ⟨bounds, derived⟩, ?_⟩)
    exact List.forall_mem_append.2 ⟨List.forall_mem_append.2 ⟨part _, part _⟩, part _⟩
  refine .bind (expectName _) fun name _ => .bind genericParameters fun generics bounds =>
    .bind ?_ fun bases derived => .bind get fun c _ => .ite ?_ ?_
  · refine optionalList (.bind typeRef fun first good => .bind (eachAfter typeRef _)
      fun others all => .pure ?_) _
    exact List.forall_mem_cons.2 ⟨good, all⟩
  · exact .bind (openBlock _) fun _ _ =>
      .bind (sequence (unlessAtEnd (classMember within) .endOfClass nofun) _) fun members all =>
        made name bounds derived all
  · exact .bind (endStatement _) fun _ _ => .bind (.pure (List.forall_mem_nil _)) fun members all =>
      made name bounds derived all

theorem forEach (start : Span) : Meets demands (Parser.forEach inner start) := by
  refine .bind (typedName _) ?_
  rintro ⟨name, type⟩ ⟨-, annotated⟩
  refine .bind (expect _ _) fun _ _ => .bind (expression within) fun iterable good =>
    .bind (indented within _) fun body all => .spanned rfl ?_
  exact List.forall_mem_append.2
    ⟨forall_mem_toList annotated, List.forall_mem_cons.2 ⟨good, all⟩⟩

theorem whileLoop (start : Span) : Meets demands (Parser.whileLoop inner start) := by
  refine .bind (expression within) fun condition good =>
    .bind (indented within _) fun body all => ?_
  exact .spanned rfl (List.forall_mem_cons.2 ⟨good, all⟩)

theorem repeatTimes (start : Span) : Meets demands (Parser.repeatTimes inner start) := by
  refine .bind (expression within) fun amount good => .bind (expect _ _) fun _ _ =>
    .bind (indented within _) fun body all => ?_
  exact .spanned rfl (List.forall_mem_cons.2 ⟨good, all⟩)

theorem switchCase : Meets demands (Parser.switchCase inner) := by
  refine .bind (expect _ _) fun start _ => .bind (expression within) fun first good =>
    .bind (eachAfter (expression within) _) fun others more =>
      .bind (indented within _) fun body all => ?_
  refine .spanned rfl (List.forall_mem_append.2 ⟨?_, all⟩)
  exact List.forall_mem_cons.2 ⟨good, more⟩

theorem switch (start : Span) : Meets demands (Parser.switch inner start) := by
  refine .bind (expression within) fun subject good => .bind (openBlock _) fun _ _ =>
    .bind (sequence (switchCase within) _) fun cases all => ?_
  exact .spanned rfl (List.forall_mem_cons.2 ⟨good, all⟩)

theorem catchClause : Meets demands (Parser.catchClause inner) := by
  refine .bind (expect _ _) fun start _ => .bind (typedName _) ?_
  rintro ⟨name, type⟩ ⟨-, annotated⟩
  refine .bind (indented within _) fun body all => .spanned rfl ?_
  exact List.forall_mem_append.2 ⟨forall_mem_toList annotated, all⟩

theorem tryCatch (start : Span) : Meets demands (Parser.tryCatch inner start) := by
  refine .bind (indented within _) fun body all => .bind (catchClause within) fun handler good => ?_
  exact .spanned rfl (List.forall_mem_append.2 ⟨all, List.forall_mem_singleton.2 good⟩)

theorem returnStmt (start : Span) : Meets demands (Parser.returnStmt inner start) := by
  refine .bind get fun c _ => .ite ?_ ?_
  · refine .bind (.pure ?_) fun value good => .statement rfl (forall_mem_toList good)
    rintro _ ⟨⟩
  · refine .bind (expression within) fun value good => .bind (.pure ?_) fun value? all =>
      .statement rfl (forall_mem_toList all)
    rintro _ ⟨⟩
    exact good

theorem valueStmt (word : TokenKind) {form : Node → Form Node}
    (loose : ∀ n, (form n).hasOperands = false) (only : ∀ n, (form n).parts = [n]) (start : Span) :
    Meets demands (Parser.valueStmt inner start word form) := by
  refine .bind (expression within) fun value good => .statement (loose value) ?_
  rw [only]
  exact List.forall_mem_singleton.2 good

/-- A declaration meets the demands if expressions do. -/
theorem declarationWith (value : Meets demands (Parser.expressionWith inner .assignment)) :
    Meets demands (Parser.declarationWith inner) := by
  have announced {construct : Span → Parser Node}
      (each : ∀ start, Meets demands (construct start)) :
      Meets demands (do construct (← Parser.advance).span) :=
    .bind advance fun word _ => each word.span
  refine .bind nextKind fun kind _ => ?_
  split
  case h_1 => exact announced (classDecl within)
  case h_2 => exact announced (functionDecl within)
  case h_3 => exact announced (variableDecl within)
  case h_4 => exact announced importDecl
  case h_5 => exact announced (conditional within .effect)
  case h_6 => exact announced (forEach within)
  case h_7 => exact announced (whileLoop within)
  case h_8 => exact announced (repeatTimes within)
  case h_9 => exact announced (switch within)
  case h_10 => exact announced (tryCatch within)
  case h_11 => exact announced (returnStmt within)
  case h_12 => exact announced (valueStmt within .kwThrow (fun _ => rfl) fun _ => rfl)
  case h_13 => exact announced (valueStmt within .kwYield (fun _ => rfl) fun _ => rfl)
  case h_14 => exact announced (jumpStmt .kwBreak .breakLoop)
  case h_15 => exact announced (jumpStmt .kwContinue .continueLoop)
  case h_16 => exact announced (jumpStmt .kwFallthrough .fallthrough)
  case h_17 =>
    refine .bind value fun n good => .bind (endStatement _) fun _ _ => .node rfl ?_
    exact List.forall_mem_singleton.2 good

end Constructs

end Meets

end TekLang
