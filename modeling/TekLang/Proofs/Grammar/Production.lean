import TekLang.Proofs.Grammar.Grouping
import TekLang.Proofs.Grammar.Run

/-!
# The grammar

What the constructs of the language consist of. A phrase is made of items: words, which are tokens
that the phrase takes itself, and parts, which are phrases again. `Production` lists for every form
of node the items that such a node is made of and the span it covers, and `Reads` says that items
lead from one cursor to another. Every statement about all trees that can be read is an induction
on `Reads` with one case for each production at most.
-/

namespace TekLang

/-- The sorts of phrase. A handler is the catch clause of a try, and `otherwise` the else branch of
    an if. -/
inductive Phrase
  | type | generic | parameter | importedName | expression | declaration | member | switchCase
  | handler | otherwise
deriving DecidableEq, Inhabited, Repr

/-- What a phrase is made of: a token of its own or a smaller phrase. -/
inductive Item
  | word (token : Token)
  | part (phrase : Phrase) (node : Node)

/-- The node that an item is. -/
def Item.node? : Item → Option Node
  | word _ => none
  | part _ n => some n

/-- Phrases of one sort, one after another. -/
def parts (phrase : Phrase) (nodes : List Node) : List Item := nodes.map (.part phrase)

/-- A token of the kind `kind`. -/
inductive IsWord (kind : TokenKind) : Token → List Item → Prop
  | mk {t} (same : t.kind = kind) : IsWord kind t [.word t]

/-- A phrase of the sort `phrase`. -/
inductive IsPart (phrase : Phrase) : Node → List Item → Prop
  | mk (n) : IsPart phrase n [.part phrase n]

/-- Things with one word of the kind `mark` in front of each. -/
inductive EachAfter (mark : TokenKind) {α : Type} (Means : α → List Item → Prop) :
    List α → List Item → Prop
  | nil : EachAfter mark Means [] []
  | cons {t a as items others} (marked : t.kind = mark) (first : Means a items)
    (more : EachAfter mark Means as others) :
    EachAfter mark Means (a :: as) (.word t :: (items ++ others))

/-- A thing with a word of the kind `mark` in front of it, or nothing. -/
inductive Optionally (mark : TokenKind) {α : Type} (Means : α → List Item → Prop) :
    Option α → List Item → Prop
  | none : Optionally mark Means none []
  | some {t a items} (marked : t.kind = mark) (thing : Means a items) :
    Optionally mark Means (some a) (.word t :: items)

/-- A list with a word of the kind `mark` in front of it; without the word the list is empty. -/
inductive ListAfter (mark : TokenKind) (Means : List Node → List Item → Prop) :
    List Node → List Item → Prop
  | none : ListAfter mark Means [] []
  | some {t nodes items} (marked : t.kind = mark) (list : Means nodes items) :
    ListAfter mark Means nodes (.word t :: items)

/-- Phrases with commas between them, and perhaps one behind the last, up to a closing word. -/
inductive Listed (phrase : Phrase) (close : TokenKind) : List Node → List Item → Prop
  | close {t} (closes : t.kind = close) : Listed phrase close [] [.word t]
  | last {n t} (closes : t.kind = close) : Listed phrase close [n] [.part phrase n, .word t]
  | cons {n ns items comma} (separates : comma.kind = .comma)
    (others : Listed phrase close ns items) :
    Listed phrase close (n :: ns) (.part phrase n :: .word comma :: items)

/-- An indented block of phrases. -/
inductive Block (phrase : Phrase) : List Node → List Item → Prop
  | mk {newline indent outdent : Token} {blank : List Token} (nodes : List Node)
    (line : newline.kind = .newline) (lines : ∀ t ∈ blank, t.kind = .newline)
    (opens : indent.kind = .indent) (closes : outdent.kind = .outdent) :
    Block phrase nodes
      (.word newline :: (blank.map .word ++ .word indent ::
        (parts phrase nodes ++ [.word outdent])))

/-- The end of a statement, which need not show. -/
inductive Ending : List Item → Prop
  | none : Ending []
  | newline {t} (line : t.kind = .newline) : Ending [.word t]

/-- Generic parameters or type arguments in angle brackets. -/
abbrev InAngles (phrase : Phrase) : List Node → List Item → Prop :=
  ListAfter .less (Listed phrase .greater)

/-- The type that a name is given. -/
abbrev Annotation : Option Node → List Item → Prop := Optionally .colon (IsPart .type)

/-- The types that a class extends. -/
inductive Bases : List Node → List Item → Prop
  | mk {first others items} (more : EachAfter .comma (IsPart .type) others items) :
    Bases (first :: others) (.part .type first :: items)

/-- A block or, in its place, the end of the statement. -/
inductive Body (phrase : Phrase) : List Node → List Item → Prop
  | block {nodes items} (block : Block phrase nodes items) : Body phrase nodes items
  | none {items} (ends : Ending items) : Body phrase [] items

/-- The sort of phrase that an if is. -/
def Use.phrase : Use → Phrase
  | .value => .expression
  | .effect => .declaration

/-- The sort of phrase that a construct is. -/
def Construct.phrase : Construct → Phrase
  | .declaration => .declaration
  | .expression _ => .expression

namespace Form

variable {α : Type}

/-- Whether the form is that of an if of the given use. -/
def IsIf (use : Use) (form : Form α) : Prop :=
  ∃ condition body otherwise, form = conditional use condition body otherwise

/-- Whether the form is that of an else branch of the given use. -/
def IsElse (use : Use) (form : Form α) : Prop := ∃ body, form = elseBranch use body

end Form

/-- The phrases of a sort, the items that each is made of, and the span that it covers between the
    token `first` that it begins with and the token `last` that was read last. -/
inductive Production : Phrase → List Item → (first last : Token) → Span → Form Node → Prop
  | typeRef {name others dots generics args pairs brackets first last}
    (named : name.kind = .identifier) (path : EachAfter .dot (IsWord .identifier) others dots)
    (arguments : InAngles .type generics args)
    (dimensions : EachAfter .leftBracket (IsWord .rightBracket) pairs brackets) :
    Production .type (.word name :: (dots ++ (args ++ brackets))) first last
      (name.span.through last.span) (.typeRef (name :: others) generics pairs.length)
  | generic {name bound items first last} (named : name.kind = .identifier)
    (bounded : Optionally .kwExtends (IsPart .type) bound items) :
    Production .generic (.word name :: items) first last (name.span.through last.span)
      (.generic name bound)
  | parameter {name colon type first last} (named : name.kind = .identifier)
    (announces : colon.kind = .colon) :
    Production .parameter [.word name, .word colon, .part .type type] first last
      (name.span.through last.span) (.parameter name type)
  | importedName {name rename items first last} (named : name.kind = .identifier)
    (renamed : Optionally .kwAs (IsWord .identifier) rename items) :
    Production .importedName (.word name :: items) first last (name.span.through last.span)
      (.importedName name rename)
  | identifier {t first last} (kind : t.kind = .identifier) :
    Production .expression [.word t] first last t.span (.identifier t)
  | literal {t first last} (sort : Literal) (kind : t.kind = sort.tokenKind) :
    Production .expression [.word t] first last t.span (.literal sort t)
  | this {t first last} (kind : t.kind = .kwThis) :
    Production .expression [.word t] first last t.span .this
  | super {t first last} (kind : t.kind = .kwSuper) :
    Production .expression [.word t] first last t.span .super
  | wrapped {left inner right first last} (opens : left.kind = .leftParen)
    (closes : right.kind = .rightParen) :
    Production .expression [.word left, .part .expression inner, .word right] first last
      (left.span.through last.span) (.wrapped inner)
  | array {left elements items first last} (opens : left.kind = .leftBracket)
    (content : Listed .expression .rightBracket elements items) :
    Production .expression (.word left :: items) first last (left.span.through last.span)
      (.array elements)
  | unary {operator operand first last} (kind : operator.kind = .minus ∨ operator.kind = .kwNot) :
    Production .expression [.word operator, .part .expression operand] first last
      (operator.span.through operand.span) (.unary operator operand)
  | async {word operand first last} (kind : word.kind = .kwAsync) :
    Production .expression [.word word, .part .expression operand] first last
      (word.span.through operand.span) (.async operand)
  | new {word type args items first last} (kind : word.kind = .kwNew)
    (content : ListAfter .leftParen (Listed .expression .rightParen) args items) :
    Production .expression (.word word :: .part .type type :: items) first last
      (word.span.through last.span) (.new type args)
  | conditional {word condition body block first last} (use : Use) (kind : word.kind = .kwIf)
    (indented : Block .declaration body block) (otherwise : Option Node)
    (matched : ∀ branch ∈ otherwise.toList, branch.form.IsElse use) :
    Production use.phrase
      (.word word :: .part .expression condition :: (block ++ parts .otherwise otherwise.toList))
      first last (word.span.through last.span) (.conditional use condition body otherwise)
  | elseBranch {word body block first last} (use : Use) (kind : word.kind = .kwElse)
    (indented : Block .declaration body block) :
    Production .otherwise (.word word :: block) first last (word.span.through last.span)
      (.elseBranch use body)
  | elseIf {word nested first last} (use : Use) (kind : word.kind = .kwElse)
    (chained : nested.form.IsIf use) :
    Production .otherwise [.word word, .part use.phrase nested] first last
      (word.span.through last.span) (.elseBranch use [nested])
  | binary {left operator right first last}
    (kind : operator.kind ∈ TokenKind.binaryOperators ∨ operator.kind = .less) :
    Production .expression [.part .expression left, .word operator, .part .expression right] first
      last (left.span.through right.span) (.binary left operator right)
  | call {callee generics angles left args items first last}
    (arguments : InAngles .type generics angles) (opens : left.kind = .leftParen)
    (content : Listed .expression .rightParen args items)
    (callable : generics = [] ∨ Parser.isGenericCallee callee.form = true) :
    Production .expression (.part .expression callee :: (angles ++ .word left :: items)) first last
      (callee.span.through last.span) (.call callee generics args)
  | index {object left subscript right first last} (opens : left.kind = .leftBracket)
    (closes : right.kind = .rightBracket) :
    Production .expression
      [.part .expression object, .word left, .part .expression subscript, .word right] first last
      (object.span.through last.span) (.index object subscript)
  | member {object dot property first last} (joins : dot.kind = .dot)
    (named : property.kind = .identifier ∨ property.kind = .kwSuper) :
    Production .expression [.part .expression object, .word dot, .word property] first last
      (object.span.through property.span) (.member object property)
  | instanceOf {value word type first last} (kind : word.kind = .kwInstanceof) :
    Production .expression [.part .expression value, .word word, .part .type type] first last
      (value.span.through type.span) (.instanceOf value type)
  | assignment {target sign value first last} (kind : sign.kind = .equal)
    (assignable : Parser.isAssignable target.form = true) :
    Production .expression [.part .expression target, .word sign, .part .expression value] first
      last (target.span.through value.span) (.assignment target value)
  | variableDecl {word name type value items values first last} (kind : word.kind = .kwVar)
    (named : name.kind = .identifier) (annotated : Annotation type items)
    (given : Optionally .equal (IsPart .expression) value values) :
    Production .declaration (.word word :: .word name :: (items ++ values)) first last
      (word.span.through last.span) (.variableDecl name type value)
  | functionDecl {word name generics angles left params items result results block first last}
    (body : Option (List Node)) (kind : word.kind = .kwFunction)
    (named : name.kind = .identifier) (arguments : InAngles .generic generics angles)
    (opens : left.kind = .leftParen) (content : Listed .parameter .rightParen params items)
    (annotated : Annotation result results)
    (indented : body.elim (block = []) (Block .declaration · block)) :
    Production .declaration
      (.word word :: .word name :: (angles ++ .word left :: (items ++ (results ++ block)))) first
      last (word.span.through last.span) (.functionDecl name generics params result body)
  | constructor {word left params items body block first last} (kind : word.kind = .kwNew)
    (opens : left.kind = .leftParen) (content : Listed .parameter .rightParen params items)
    (indented : Body .declaration body block) :
    Production .member (.word word :: .word left :: (items ++ block)) first last
      (word.span.through last.span) (.constructor params body)
  | instanceMember {value first last} :
    Production .member [.part .declaration value] first last (first.span.through value.span)
      (.classMember false value)
  | staticMember {word value first last} (kind : word.kind = .kwStatic) :
    Production .member [.word word, .part .declaration value] first last
      (first.span.through value.span) (.classMember true value)
  | classDecl {word name generics angles bases types members block first last}
    (kind : word.kind = .kwClass) (named : name.kind = .identifier)
    (arguments : InAngles .generic generics angles)
    (extended : ListAfter .kwExtends Bases bases types) (indented : Body .member members block) :
    Production .declaration (.word word :: .word name :: (angles ++ (types ++ block))) first last
      (word.span.through last.span)
      (.classDecl name generics bases
        (members.filter fun m => decide (Parser.Section.ofMember m = .constructors))
        (members.filter fun m => decide (Parser.Section.ofMember m = .statics))
        (members.filter fun m => decide (Parser.Section.ofMember m = .instances)))
  | importDecl {word name others dots rename renames exposed items first last}
    (kind : word.kind = .kwImport) (named : name.kind = .identifier)
    (path : EachAfter .dot (IsWord .identifier) others dots)
    (renamed : Optionally .kwAs (IsWord .identifier) rename renames)
    (listed : ListAfter .leftParen (Listed .importedName .rightParen) exposed items)
    (either : rename = none ∨ items = []) :
    Production .declaration (.word word :: .word name :: (dots ++ (renames ++ items))) first last
      (word.span.through last.span) (.importDecl (name :: others) rename exposed)
  | forEach {word name type items within iterable body block first last}
    (kind : word.kind = .kwFor) (named : name.kind = .identifier)
    (annotated : Annotation type items) (runs : within.kind = .kwIn)
    (indented : Block .declaration body block) :
    Production .declaration
      (.word word :: .word name :: (items ++ .word within :: .part .expression iterable :: block))
      first last (word.span.through last.span) (.forEach name type iterable body)
  | whileLoop {word condition body block first last} (kind : word.kind = .kwWhile)
    (indented : Block .declaration body block) :
    Production .declaration (.word word :: .part .expression condition :: block) first last
      (word.span.through last.span) (.whileLoop condition body)
  | repeatTimes {word amount times body block first last} (kind : word.kind = .kwRepeat)
    (counts : times.kind = .kwTimes) (indented : Block .declaration body block) :
    Production .declaration (.word word :: .part .expression amount :: .word times :: block) first
      last (word.span.through last.span) (.repeatTimes amount body)
  | switchCase {word condition others commas body block first last} (kind : word.kind = .kwCase)
    (more : EachAfter .comma (IsPart .expression) others commas)
    (indented : Block .declaration body block) :
    Production .switchCase (.word word :: .part .expression condition :: (commas ++ block)) first
      last (word.span.through last.span) (.switchCase (condition :: others) body)
  | switch {word subject cases block first last} (kind : word.kind = .kwSwitch)
    (indented : Block .switchCase cases block) :
    Production .declaration (.word word :: .part .expression subject :: block) first last
      (word.span.through last.span) (.switch subject cases)
  | catchClause {word name type items body block first last} (kind : word.kind = .kwCatch)
    (named : name.kind = .identifier) (annotated : Annotation type items)
    (indented : Block .declaration body block) :
    Production .handler (.word word :: .word name :: (items ++ block)) first last
      (word.span.through last.span) (.catchClause name type body)
  | tryCatch {word body block handler first last} (kind : word.kind = .kwTry)
    (indented : Block .declaration body block) :
    Production .declaration (.word word :: (block ++ [.part .handler handler])) first last
      (word.span.through last.span) (.tryCatch body handler)
  | returnStmt {word first last} (kind : word.kind = .kwReturn) (value : Option Node) :
    Production .declaration (.word word :: parts .expression value.toList) first last
      (word.span.through last.span) (.returnStmt value)
  | throwStmt {word value first last} (kind : word.kind = .kwThrow) :
    Production .declaration [.word word, .part .expression value] first last
      (word.span.through last.span) (.throwStmt value)
  | yieldStmt {word value first last} (kind : word.kind = .kwYield) :
    Production .declaration [.word word, .part .expression value] first last
      (word.span.through last.span) (.yieldStmt value)
  | jumpStmt {word first last} (jump : Jump)
    (kind : word.kind = .kwBreak ∨ word.kind = .kwContinue ∨ word.kind = .kwFallthrough) :
    Production .declaration [.word word] first last word.span (.jumpStmt jump)
  | expressionStmt {value first last} :
    Production .declaration [.part .expression value] first last value.span (.expressionStmt value)

/-- The items lead from one cursor to another. A phrase may have the end of a line behind its items
    before its node is made. -/
inductive Reads : List Item → Cursor → Cursor → Prop
  | nil (c : Cursor) : Reads [] c c
  | word {t rest items c c'} (ahead : c.rest = t :: rest)
    (others : Reads items (c.behind t rest) c') : Reads (.word t :: items) c c'
  | part {phrase inner closing first span form items c c₁ c₂ c'}
    (begins : first = c.upcoming) (made : Production phrase inner first c₁.last span form)
    (within : Reads inner c c₁) (closed : Reads closing c₁ c₂) (ends : Ending closing)
    (others : Reads items c₂.numbered c') :
    Reads (.part phrase ⟨c₂.nextId, span, form⟩ :: items) c c'

namespace Reads

theorem append {xs ys : List Item} {c c' c'' : Cursor} (first : Reads xs c c')
    (second : Reads ys c' c'') : Reads (xs ++ ys) c c'' := by
  induction first with
  | nil => exact second
  | word ahead _ ih => exact .word ahead (ih second)
  | part begins made within closed ends _ _ _ ih =>
    exact .part begins made within closed ends (ih second)

end Reads

end TekLang
