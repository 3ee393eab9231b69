import TekLang.Proofs.Grammar.Production

/-!
# Writing a program

The tokens that a tree is written with. `WrittenAs` lists for every form but those of expressions
the items that it is written as, and `Writes` puts tokens in the place of the items. What a form
leaves open stays open: whether a comma stands behind the last item of a list, whether blank lines
stand in front of a block, and in which order the members of a class come.
-/

namespace TekLang

/-- The word that a jump consists of. -/
def Jump.tokenKind : Jump → TokenKind
  | breakLoop => .kwBreak
  | continueLoop => .kwContinue
  | fallthrough => .kwFallthrough

/-- A block or, where there is nothing to stand in it, the end of the line. -/
inductive BlockOrLine (phrase : Phrase) : List Node → List Item → Prop
  | block {nodes items} (block : Block phrase nodes items) : BlockOrLine phrase nodes items
  | line {newline : Token} (ends : newline.kind = .newline) :
    BlockOrLine phrase [] [.word newline]

/-- The items that the forms are written as, apart from those of expressions. -/
inductive WrittenAs : Phrase → Form Node → List Item → Prop
  | typeRef {name others dots generics args pairs brackets} (named : name.kind = .identifier)
    (path : EachAfter .dot (IsWord .identifier) others dots)
    (arguments : InAngles .type generics args)
    (dimensions : EachAfter .leftBracket (IsWord .rightBracket) pairs brackets) :
    WrittenAs .type (.typeRef (name :: others) generics pairs.length)
      (.word name :: (dots ++ (args ++ brackets)))
  | generic {name bound items} (named : name.kind = .identifier)
    (bounded : Optionally .kwExtends (IsPart .type) bound items) :
    WrittenAs .generic (.generic name bound) (.word name :: items)
  | parameter {name colon type} (named : name.kind = .identifier)
    (announces : colon.kind = .colon) :
    WrittenAs .parameter (.parameter name type) [.word name, .word colon, .part .type type]
  | importedName {name rename items} (named : name.kind = .identifier)
    (renamed : Optionally .kwAs (IsWord .identifier) rename items) :
    WrittenAs .importedName (.importedName name rename) (.word name :: items)
  | variableDecl {word name newline type value items values} (kind : word.kind = .kwVar)
    (named : name.kind = .identifier) (annotated : Annotation type items)
    (given : Optionally .equal (IsPart .expression) value values)
    (ends : newline.kind = .newline) :
    WrittenAs .declaration (.variableDecl name type value)
      (.word word :: .word name :: (items ++ (values ++ [.word newline])))
  | signature {word name newline generics angles left params items result results}
    (kind : word.kind = .kwFunction) (named : name.kind = .identifier)
    (arguments : InAngles .generic generics angles) (opens : left.kind = .leftParen)
    (content : Listed .parameter .rightParen params items) (annotated : Annotation result results)
    (ends : newline.kind = .newline) :
    WrittenAs .declaration (.functionDecl name generics params result none)
      (.word word :: .word name ::
        (angles ++ .word left :: (items ++ (results ++ [.word newline]))))
  | functionDecl {word name generics angles left params items result results body block}
    (kind : word.kind = .kwFunction) (named : name.kind = .identifier)
    (arguments : InAngles .generic generics angles) (opens : left.kind = .leftParen)
    (content : Listed .parameter .rightParen params items) (annotated : Annotation result results)
    (indented : Block .declaration body block) :
    WrittenAs .declaration (.functionDecl name generics params result (some body))
      (.word word :: .word name :: (angles ++ .word left :: (items ++ (results ++ block))))
  | classDecl {word name generics angles bases types members block}
    (kind : word.kind = .kwClass) (named : name.kind = .identifier)
    (arguments : InAngles .generic generics angles)
    (extended : ListAfter .kwExtends Bases bases types)
    (indented : BlockOrLine .member members block) :
    WrittenAs .declaration
      (.classDecl name generics bases
        (members.filter fun m => decide (Parser.Section.ofMember m = .constructors))
        (members.filter fun m => decide (Parser.Section.ofMember m = .statics))
        (members.filter fun m => decide (Parser.Section.ofMember m = .instances)))
      (.word word :: .word name :: (angles ++ (types ++ block)))
  | constructor {word left params items body block} (kind : word.kind = .kwNew)
    (opens : left.kind = .leftParen) (content : Listed .parameter .rightParen params items)
    (indented : BlockOrLine .declaration body block) :
    WrittenAs .member (.constructor params body) (.word word :: .word left :: (items ++ block))
  | instanceMember {value} :
    WrittenAs .member (.classMember false value) [.part .declaration value]
  | staticMember {word value} (kind : word.kind = .kwStatic) :
    WrittenAs .member (.classMember true value) [.word word, .part .declaration value]
  | importDecl {word name newline others dots rename renames exposed items}
    (kind : word.kind = .kwImport) (named : name.kind = .identifier)
    (path : EachAfter .dot (IsWord .identifier) others dots)
    (renamed : Optionally .kwAs (IsWord .identifier) rename renames)
    (listed : ListAfter .leftParen (Listed .importedName .rightParen) exposed items)
    (either : rename = none ∨ items = []) (ends : newline.kind = .newline) :
    WrittenAs .declaration (.importDecl (name :: others) rename exposed)
      (.word word :: .word name :: (dots ++ (renames ++ (items ++ [.word newline]))))
  | conditional {word condition body block} (kind : word.kind = .kwIf)
    (indented : Block .declaration body block) (otherwise : Option Node) :
    WrittenAs .declaration (.conditional .effect condition body otherwise)
      (.word word :: .part .expression condition :: (block ++ parts .otherwise otherwise.toList))
  | elseBranch {word body block} (kind : word.kind = .kwElse)
    (indented : Block .declaration body block) :
    WrittenAs .otherwise (.elseBranch .effect body) (.word word :: block)
  | elseIf {word id span condition body otherwise} (kind : word.kind = .kwElse) :
    WrittenAs .otherwise
      (.elseBranch .effect [⟨id, span, .conditional .effect condition body otherwise⟩])
      [.word word, .part .declaration ⟨id, span, .conditional .effect condition body otherwise⟩]
  | forEach {word name type items within iterable body block} (kind : word.kind = .kwFor)
    (named : name.kind = .identifier) (annotated : Annotation type items)
    (runs : within.kind = .kwIn) (indented : Block .declaration body block) :
    WrittenAs .declaration (.forEach name type iterable body)
      (.word word :: .word name :: (items ++ .word within :: .part .expression iterable :: block))
  | whileLoop {word condition body block} (kind : word.kind = .kwWhile)
    (indented : Block .declaration body block) :
    WrittenAs .declaration (.whileLoop condition body)
      (.word word :: .part .expression condition :: block)
  | repeatTimes {word amount times body block} (kind : word.kind = .kwRepeat)
    (counts : times.kind = .kwTimes) (indented : Block .declaration body block) :
    WrittenAs .declaration (.repeatTimes amount body)
      (.word word :: .part .expression amount :: .word times :: block)
  | switch {word subject cases block} (kind : word.kind = .kwSwitch)
    (indented : Block .switchCase cases block) :
    WrittenAs .declaration (.switch subject cases)
      (.word word :: .part .expression subject :: block)
  | switchCase {word condition others commas body block} (kind : word.kind = .kwCase)
    (more : EachAfter .comma (IsPart .expression) others commas)
    (indented : Block .declaration body block) :
    WrittenAs .switchCase (.switchCase (condition :: others) body)
      (.word word :: .part .expression condition :: (commas ++ block))
  | tryCatch {word body block handler} (kind : word.kind = .kwTry)
    (indented : Block .declaration body block) :
    WrittenAs .declaration (.tryCatch body handler)
      (.word word :: (block ++ [.part .handler handler]))
  | catchClause {word name type items body block} (kind : word.kind = .kwCatch)
    (named : name.kind = .identifier) (annotated : Annotation type items)
    (indented : Block .declaration body block) :
    WrittenAs .handler (.catchClause name type body) (.word word :: .word name :: (items ++ block))
  | returnStmt {word newline} (kind : word.kind = .kwReturn) (value : Option Node)
    (ends : newline.kind = .newline) :
    WrittenAs .declaration (.returnStmt value)
      (.word word :: (parts .expression value.toList ++ [.word newline]))
  | throwStmt {word value newline} (kind : word.kind = .kwThrow)
    (ends : newline.kind = .newline) :
    WrittenAs .declaration (.throwStmt value)
      [.word word, .part .expression value, .word newline]
  | yieldStmt {word value newline} (kind : word.kind = .kwYield)
    (ends : newline.kind = .newline) :
    WrittenAs .declaration (.yieldStmt value)
      [.word word, .part .expression value, .word newline]
  | jumpStmt {word newline} (jump : Jump) (kind : word.kind = jump.tokenKind)
    (ends : newline.kind = .newline) :
    WrittenAs .declaration (.jumpStmt jump) [.word word, .word newline]
  | expressionStmt {value newline} (ends : newline.kind = .newline) :
    WrittenAs .declaration (.expressionStmt value) [.part .expression value, .word newline]

mutual

/-- The tokens that a phrase is written with. -/
inductive Writes : Phrase → Node → List Token → Prop
  | expression {e ts} (spelled : Spells e ts) (grouped : e.Grouped) : Writes .expression e ts
  | phrase {phrase id span form items ts} (layout : WrittenAs phrase form items)
    (words : WritesAll items ts) : Writes phrase ⟨id, span, form⟩ ts

/-- The tokens that items are written with. The end of input is no word. -/
inductive WritesAll : List Item → List Token → Prop
  | nil : WritesAll [] []
  | word {t items ts} (word : t.kind ≠ .eof) (others : WritesAll items ts) :
    WritesAll (.word t :: items) (t :: ts)
  | part {phrase n items ts us} (first : Writes phrase n ts) (others : WritesAll items us) :
    WritesAll (.part phrase n :: items) (ts ++ us)

end

mutual

theorem Writes.no_eof {phrase : Phrase} {n : Node} {ts : List Token} :
    Writes phrase n ts → ∀ t ∈ ts, t.kind ≠ .eof
  | .expression spelled _ => spelled.no_eof
  | .phrase _ words => words.no_eof

theorem WritesAll.no_eof {items : List Item} {ts : List Token} :
    WritesAll items ts → ∀ t ∈ ts, t.kind ≠ .eof
  | .nil => List.forall_mem_nil _
  | .word word others => List.forall_mem_cons.2 ⟨word, others.no_eof⟩
  | .part first others => List.forall_mem_append.2 ⟨first.no_eof, others.no_eof⟩

end

namespace WritesAll

variable {items : List Item} {ts : List Token}

theorem word_inv {t : Token} (written : WritesAll (.word t :: items) ts) :
    ∃ us, ts = t :: us ∧ WritesAll items us := by
  cases written with
  | word _ others => exact ⟨_, rfl, others⟩

theorem part_inv {phrase : Phrase} {n : Node} (written : WritesAll (.part phrase n :: items) ts) :
    ∃ us vs, ts = us ++ vs ∧ Writes phrase n us ∧ WritesAll items vs := by
  cases written with
  | part first others => exact ⟨_, _, rfl, first, others⟩

theorem append_inv {xs ys : List Item} (written : WritesAll (xs ++ ys) ts) :
    ∃ us vs, ts = us ++ vs ∧ WritesAll xs us ∧ WritesAll ys vs := by
  induction xs generalizing ts with
  | nil => exact ⟨[], ts, rfl, .nil, written⟩
  | cons x xs ih =>
    cases written with
    | word word others =>
      obtain ⟨us, vs, rfl, first, second⟩ := ih others
      exact ⟨_ :: us, vs, rfl, .word word first, second⟩
    | @part _ _ _ ts _ part others =>
      obtain ⟨us, vs, rfl, first, second⟩ := ih others
      exact ⟨ts ++ us, vs, (List.append_assoc ..).symm, .part part first, second⟩

theorem of_words {us : List Token} (written : WritesAll (us.map .word) ts) : ts = us := by
  induction us generalizing ts with
  | nil =>
    cases written
    rfl
  | cons u us ih =>
    obtain ⟨vs, rfl, others⟩ := written.word_inv
    rw [ih others]

theorem single {phrase : Phrase} {n : Node} (written : Writes phrase n ts) :
    WritesAll [.part phrase n] ts := by
  rw [← List.append_nil ts]
  exact .part written .nil

end WritesAll

/-- The words that statements begin with, apart from those that only expressions begin with. -/
def TokenKind.statementWords : List TokenKind :=
  [kwClass, kwFunction, kwVar, kwImport, kwIf, kwFor, kwWhile, kwRepeat, kwSwitch, kwTry, kwReturn,
    kwThrow, kwYield, kwBreak, kwContinue, kwFallthrough]

/-- The tokens that phrases begin with. -/
def Phrase.starts : Phrase → List TokenKind
  | type | generic | parameter | importedName => [.identifier]
  | expression => TokenKind.operandStarts
  | declaration => TokenKind.statementWords ++ TokenKind.operandStarts
  | member => .kwNew :: .kwStatic :: (TokenKind.statementWords ++ TokenKind.operandStarts)
  | switchCase => [.kwCase]
  | handler => [.kwCatch]
  | otherwise => [.kwElse]

/-- A phrase begins with a word or with another phrase, which is no looser. -/
theorem WrittenAs.begins {phrase : Phrase} {form : Form Node} {items : List Item}
    (layout : WrittenAs phrase form items) :
    (∃ t others, items = .word t :: others ∧ t.kind ∈ phrase.starts) ∨
      ∃ inner n others, items = .part inner n :: others ∧
        ∀ kind ∈ inner.starts, kind ∈ phrase.starts := by
  cases layout with
  | typeRef named | generic named | parameter named | importedName named =>
    exact .inl ⟨_, _, rfl, by rw [named]; decide⟩
  | instanceMember | expressionStmt => exact .inr ⟨_, _, _, rfl, by decide⟩
  | jumpStmt jump kind =>
    refine .inl ⟨_, _, rfl, ?_⟩
    rw [kind]
    cases jump <;> decide
  | variableDecl kind | signature kind | functionDecl kind | classDecl kind | constructor kind
  | staticMember kind | importDecl kind | conditional kind | elseBranch kind | elseIf kind
  | forEach kind | whileLoop kind | repeatTimes kind | switch kind | switchCase kind
  | tryCatch kind | catchClause kind | returnStmt kind | throwStmt kind | yieldStmt kind =>
    exact .inl ⟨_, _, rfl, by rw [kind]; decide⟩

mutual

theorem Writes.starts {phrase : Phrase} {n : Node} {ts : List Token} :
    Writes phrase n ts → ∃ t us, ts = t :: us ∧ t.kind ∈ phrase.starts
  | .expression spelled _ => spelled.starts
  | .phrase layout words => by
    rcases layout.begins with ⟨t, others, begins, starts⟩ | ⟨inner, m, others, begins, within⟩
    · obtain ⟨us, rfl, -⟩ := (begins ▸ words).word_inv
      exact ⟨t, us, rfl, starts⟩
    · obtain ⟨t, us, rfl, starts⟩ := words.starts inner m others begins
      exact ⟨t, us, rfl, within _ starts⟩

/-- Items begin as the phrase does that is the first of them. -/
theorem WritesAll.starts {items : List Item} {ts : List Token} : WritesAll items ts →
    ∀ phrase n others, items = .part phrase n :: others →
      ∃ t us, ts = t :: us ∧ t.kind ∈ phrase.starts
  | .nil, _, _, _, begins => nomatch begins
  | .word _ _, _, _, _, begins => nomatch begins
  | .part first _, _, _, _, begins => by
    obtain ⟨t, us, rfl, starts⟩ := first.starts
    cases begins
    exact ⟨t, _, rfl, starts⟩

end

end TekLang
