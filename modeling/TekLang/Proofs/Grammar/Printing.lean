import TekLang.Proofs.Grammar.ProgramRoundTrip

/-!
# Printing and parsing

Every tree that puts phrases of the right sort in the right places, with names where names belong,
can be written, and whatever it is written with is read back as that tree. Expressions are single
names here; which other ones can be written is a matter of their own.
-/

namespace TekLang

/-- A phrase of some sort in which every expression is a single name. -/
inductive Plain : Phrase → Node → Prop
  | typeRef {id span path generics depth} (some : path ≠ [])
    (named : ∀ t ∈ path, t.kind = .identifier) (arguments : ∀ n ∈ generics, Plain .type n) :
    Plain .type ⟨id, span, .typeRef path generics depth⟩
  | generic {id span name bound} (named : name.kind = .identifier)
    (bounded : ∀ n ∈ bound, Plain .type n) : Plain .generic ⟨id, span, .generic name bound⟩
  | parameter {id span name type} (named : name.kind = .identifier) (typed : Plain .type type) :
    Plain .parameter ⟨id, span, .parameter name type⟩
  | importedName {id span name rename} (named : name.kind = .identifier)
    (renamed : ∀ t ∈ rename, t.kind = .identifier) :
    Plain .importedName ⟨id, span, .importedName name rename⟩
  | identifier {id span name} (named : name.kind = .identifier) :
    Plain .expression ⟨id, span, .identifier name⟩
  | variableDecl {id span name type value} (named : name.kind = .identifier)
    (typed : ∀ n ∈ type, Plain .type n) (given : ∀ n ∈ value, Plain .expression n) :
    Plain .declaration ⟨id, span, .variableDecl name type value⟩
  | functionDecl {id span name generics params result body} (named : name.kind = .identifier)
    (arguments : ∀ n ∈ generics, Plain .generic n) (content : ∀ n ∈ params, Plain .parameter n)
    (typed : ∀ n ∈ result, Plain .type n) (within : ∀ ns ∈ body, ∀ n ∈ ns, Plain .declaration n) :
    Plain .declaration ⟨id, span, .functionDecl name generics params result body⟩
  | classDecl {id span name generics bases constructors statics instances}
    (named : name.kind = .identifier) (arguments : ∀ n ∈ generics, Plain .generic n)
    (extended : ∀ n ∈ bases, Plain .type n)
    (members : ∀ m ∈ constructors ++ statics ++ instances, Plain .member m)
    (first : ∀ m ∈ constructors, Parser.Section.ofMember m = .constructors)
    (second : ∀ m ∈ statics, Parser.Section.ofMember m = .statics)
    (third : ∀ m ∈ instances, Parser.Section.ofMember m = .instances) :
    Plain .declaration
      ⟨id, span, .classDecl name generics bases constructors statics instances⟩
  | constructor {id span params body} (content : ∀ n ∈ params, Plain .parameter n)
    (within : ∀ n ∈ body, Plain .declaration n) : Plain .member ⟨id, span, .constructor params body⟩
  | classMember {id span value} (isStatic : Bool) (within : Plain .declaration value) :
    Plain .member ⟨id, span, .classMember isStatic value⟩
  | importDecl {id span path rename exposed} (some : path ≠ [])
    (named : ∀ t ∈ path, t.kind = .identifier) (renamed : ∀ t ∈ rename, t.kind = .identifier)
    (listed : ∀ n ∈ exposed, Plain .importedName n) (either : rename = none ∨ exposed = []) :
    Plain .declaration ⟨id, span, .importDecl path rename exposed⟩
  | conditional {id span condition body otherwise} (asked : Plain .expression condition)
    (within : ∀ n ∈ body, Plain .declaration n) (other : ∀ n ∈ otherwise, Plain .otherwise n) :
    Plain .declaration ⟨id, span, .conditional .effect condition body otherwise⟩
  | elseBranch {id span body} (within : ∀ n ∈ body, Plain .declaration n) :
    Plain .otherwise ⟨id, span, .elseBranch .effect body⟩
  | forEach {id span name type iterable body} (named : name.kind = .identifier)
    (typed : ∀ n ∈ type, Plain .type n) (given : Plain .expression iterable)
    (within : ∀ n ∈ body, Plain .declaration n) :
    Plain .declaration ⟨id, span, .forEach name type iterable body⟩
  | whileLoop {id span condition body} (asked : Plain .expression condition)
    (within : ∀ n ∈ body, Plain .declaration n) :
    Plain .declaration ⟨id, span, .whileLoop condition body⟩
  | repeatTimes {id span amount body} (asked : Plain .expression amount)
    (within : ∀ n ∈ body, Plain .declaration n) :
    Plain .declaration ⟨id, span, .repeatTimes amount body⟩
  | switch {id span subject cases} (asked : Plain .expression subject)
    (within : ∀ n ∈ cases, Plain .switchCase n) :
    Plain .declaration ⟨id, span, .switch subject cases⟩
  | switchCase {id span conditions body} (some : conditions ≠ [])
    (asked : ∀ n ∈ conditions, Plain .expression n) (within : ∀ n ∈ body, Plain .declaration n) :
    Plain .switchCase ⟨id, span, .switchCase conditions body⟩
  | tryCatch {id span body handler} (within : ∀ n ∈ body, Plain .declaration n)
    (handled : Plain .handler handler) : Plain .declaration ⟨id, span, .tryCatch body handler⟩
  | catchClause {id span name type body} (named : name.kind = .identifier)
    (typed : ∀ n ∈ type, Plain .type n) (within : ∀ n ∈ body, Plain .declaration n) :
    Plain .handler ⟨id, span, .catchClause name type body⟩
  | returnStmt {id span value} (given : ∀ n ∈ value, Plain .expression n) :
    Plain .declaration ⟨id, span, .returnStmt value⟩
  | throwStmt {id span value} (given : Plain .expression value) :
    Plain .declaration ⟨id, span, .throwStmt value⟩
  | yieldStmt {id span value} (given : Plain .expression value) :
    Plain .declaration ⟨id, span, .yieldStmt value⟩
  | jumpStmt {id span} (jump : Jump) : Plain .declaration ⟨id, span, .jumpStmt jump⟩
  | expressionStmt {id span value} (given : Plain .expression value) :
    Plain .declaration ⟨id, span, .expressionStmt value⟩

/-- A word of a kind that is spelt in one way. -/
def wordOf (kind : TokenKind) : Token := .silent kind default

theorem wordOf_kind (kind : TokenKind) : (wordOf kind).kind = kind := rfl

/-- Some items of that shape can be written. -/
def CanWrite (Shape : List Item → Prop) : Prop := ∃ items ts, Shape items ∧ WritesAll items ts

theorem WritesAll.append {xs ys : List Item} {ts us : List Token} (first : WritesAll xs ts)
    (second : WritesAll ys us) : WritesAll (xs ++ ys) (ts ++ us) := by
  induction xs generalizing ts with
  | nil =>
    cases first
    exact second
  | cons x xs ih =>
    cases first with
    | word word others => exact .word word (ih others)
    | part part others =>
      rw [List.append_assoc]
      exact .part part (ih others)

theorem WritesAll.name {name : Token} {items : List Item} {ts : List Token}
    (named : name.kind = .identifier) (others : WritesAll items ts) :
    WritesAll (.word name :: items) (name :: ts) :=
  .word (by rw [named]; decide) others

/-- Words that are spelt in one way stand for themselves. -/
theorem WritesAll.mark {kind : TokenKind} {items : List Item} {ts : List Token} (word : kind ≠ .eof)
    (others : WritesAll items ts) : WritesAll (.word (wordOf kind) :: items) (wordOf kind :: ts) :=
  .word word others

/-- Phrases that can each be written can be written one after another. -/
theorem exists_writesAll {phrase : Phrase} {ns : List Node}
    (each : ∀ n ∈ ns, ∃ ts, Writes phrase n ts) : ∃ ts, WritesAll (parts phrase ns) ts := by
  induction ns with
  | nil => exact ⟨[], .nil⟩
  | cons n ns ih =>
    obtain ⟨⟨ts, first⟩, more⟩ := List.forall_mem_cons.1 each
    obtain ⟨us, others⟩ := ih more
    exact ⟨ts ++ us, .part first others⟩

namespace CanWrite

variable {phrase : Phrase} {ns : List Node}

theorem ofPart {n : Node} (written : ∃ ts, Writes phrase n ts) : CanWrite (IsPart phrase n) := by
  obtain ⟨ts, written⟩ := written
  exact ⟨_, ts, .mk n, .single written⟩

theorem ofName {name : Token} (named : name.kind = .identifier) :
    CanWrite (IsWord .identifier name) :=
  ⟨_, _, .mk named, .name named .nil⟩

theorem eachAfter (mark : TokenKind) {α : Type} {Means : α → List Item → Prop} {as : List α}
    (word : mark ≠ .eof) (each : ∀ a ∈ as, CanWrite (Means a)) :
    CanWrite (EachAfter mark Means as) := by
  induction as with
  | nil => exact ⟨[], [], .nil, .nil⟩
  | cons a as ih =>
    obtain ⟨⟨_, _, first, writtenFirst⟩, more⟩ := List.forall_mem_cons.1 each
    obtain ⟨_, _, others, writtenOthers⟩ := ih more
    exact ⟨_, _, .cons (wordOf_kind mark) first others,
      .mark word (writtenFirst.append writtenOthers)⟩

theorem optionally (mark : TokenKind) {α : Type} {Means : α → List Item → Prop} {a : Option α}
    (word : mark ≠ .eof) (thing : ∀ x ∈ a, CanWrite (Means x)) :
    CanWrite (Optionally mark Means a) := by
  cases a with
  | none => exact ⟨[], [], .none, .nil⟩
  | some x =>
    obtain ⟨_, _, means, written⟩ := thing x rfl
    exact ⟨_, _, .some (wordOf_kind mark) means, .mark word written⟩

theorem annotated {type : Option Node} (typed : ∀ n ∈ type, ∃ ts, Writes .type n ts) :
    CanWrite <| Annotation type :=
  optionally .colon (by decide) fun n h => ofPart (typed n h)

theorem listed (mark : TokenKind) (word : mark ≠ .eof) (each : ∀ n ∈ ns, ∃ ts, Writes phrase n ts) :
    CanWrite (Listed phrase mark ns) := by
  induction ns with
  | nil => exact ⟨_, _, .close (wordOf_kind mark), .mark word .nil⟩
  | cons n ns ih =>
    obtain ⟨⟨_, first⟩, more⟩ := List.forall_mem_cons.1 each
    cases ns with
    | nil => exact ⟨_, _, .last (wordOf_kind mark), .part first (.mark word .nil)⟩
    | cons =>
      obtain ⟨_, _, others, written⟩ := ih more
      exact ⟨_, _, .cons (wordOf_kind .comma) others,
        .part first (.mark (by decide) written)⟩

/-- A list that would be empty is left out together with the word in front of it. -/
theorem listAfter (mark : TokenKind) {Means : List Node → List Item → Prop} (word : mark ≠ .eof)
    (list : ns ≠ [] → CanWrite (Means ns)) : CanWrite (ListAfter mark Means ns) := by
  cases ns with
  | nil => exact ⟨[], [], .none, .nil⟩
  | cons =>
    obtain ⟨_, _, means, written⟩ := list (List.cons_ne_nil _ _)
    exact ⟨_, _, .some (wordOf_kind mark) means, .mark word written⟩

theorem inAngles (each : ∀ n ∈ ns, ∃ ts, Writes phrase n ts) : CanWrite (InAngles phrase ns) :=
  listAfter .less (by decide) fun _ => listed .greater (by decide) each

theorem bases (each : ∀ n ∈ ns, ∃ ts, Writes .type n ts) :
    CanWrite (ListAfter .kwExtends Bases ns) := by
  refine listAfter .kwExtends (by decide) fun some => ?_
  obtain ⟨n, ns, rfl⟩ := List.exists_cons_of_ne_nil some
  obtain ⟨⟨_, first⟩, more⟩ := List.forall_mem_cons.1 each
  obtain ⟨_, _, others, written⟩ := eachAfter .comma (by decide) fun n h => ofPart (more n h)
  exact ⟨_, _, .mk others, .part first written⟩

theorem block (each : ∀ n ∈ ns, ∃ ts, Writes phrase n ts) : CanWrite (Block phrase ns) := by
  obtain ⟨_, within⟩ := exists_writesAll each
  exact ⟨_, _, .mk ns (wordOf_kind .newline) (List.forall_mem_nil _) (wordOf_kind .indent)
      (wordOf_kind .outdent),
    .mark (by decide) (.mark (by decide) (within.append (.mark (by decide) .nil)))⟩

/-- The end of the line stands in the place of an empty block. -/
theorem blockOrLine (each : ∀ n ∈ ns, ∃ ts, Writes phrase n ts) :
    CanWrite (BlockOrLine phrase ns) := by
  cases ns with
  | nil => exact ⟨_, _, .line (wordOf_kind .newline), .mark (by decide) .nil⟩
  | cons =>
    obtain ⟨_, _, indented, written⟩ := block each
    exact ⟨_, _, .block indented, written⟩

end CanWrite

/-- A single name groups nothing. -/
theorem Node.Grouped.identifier (id : NodeId) (span : Span) (name : Token) :
    (⟨id, span, .identifier name⟩ : Node).Grouped := by
  intro m below
  rw [Node.descendants_eq, List.mem_cons] at below
  rcases below with rfl | below
  · exact trivial
  · exact absurd below List.not_mem_nil

/-- The members of a class fall apart into the lists that they were put together from. -/
theorem Parser.Section.filter_append {constructors statics instances : List Node}
    (first : ∀ m ∈ constructors, Parser.Section.ofMember m = .constructors)
    (second : ∀ m ∈ statics, Parser.Section.ofMember m = .statics)
    (third : ∀ m ∈ instances, Parser.Section.ofMember m = .instances) :
    let members := constructors ++ statics ++ instances
    (members.filter fun m => decide (Parser.Section.ofMember m = .constructors)) = constructors ∧
      (members.filter fun m => decide (Parser.Section.ofMember m = .statics)) = statics ∧
      (members.filter fun m => decide (Parser.Section.ofMember m = .instances)) = instances := by
  simp +contextual [List.filter_eq_self.2, List.filter_eq_nil_iff.2, first, second, third]

/-! ## The forms with many parts -/

section Forms

variable {id : NodeId} {span : Span} {name : Token}

theorem exists_writes_typeRef {path : List Token} {generics : List Node} (depth : Nat)
    (some : path ≠ []) (named : ∀ t ∈ path, t.kind = .identifier)
    (arguments : ∀ n ∈ generics, ∃ ts, Writes .type n ts) :
    ∃ ts, Writes .type ⟨id, span, .typeRef path generics depth⟩ ts := by
  obtain ⟨name, others, rfl⟩ := List.exists_cons_of_ne_nil some
  obtain ⟨named, rest⟩ := List.forall_mem_cons.1 named
  obtain ⟨_, _, path, writtenPath⟩ :=
    CanWrite.eachAfter .dot (by decide) fun t h => .ofName (rest t h)
  obtain ⟨_, _, arguments, writtenArguments⟩ := CanWrite.inAngles arguments
  have pairs : ∀ t ∈ List.replicate depth (wordOf .rightBracket),
      CanWrite (IsWord .rightBracket t) := fun t h => by
    rw [List.eq_of_mem_replicate h]
    exact ⟨_, _, .mk rfl, .mark (by decide) .nil⟩
  obtain ⟨_, _, brackets, writtenBrackets⟩ :=
    CanWrite.eachAfter .leftBracket (by decide) pairs
  have layout := WrittenAs.typeRef named path arguments brackets
  rw [List.length_replicate] at layout
  exact ⟨_, .phrase layout
    (.name named (writtenPath.append (writtenArguments.append writtenBrackets)))⟩

theorem exists_writes_functionDecl {generics params : List Node} {result : Option Node}
    {body : Option (List Node)} (named : name.kind = .identifier)
    (arguments : ∀ n ∈ generics, ∃ ts, Writes .generic n ts)
    (content : ∀ n ∈ params, ∃ ts, Writes .parameter n ts)
    (typed : ∀ n ∈ result, ∃ ts, Writes .type n ts)
    (within : ∀ ns ∈ body, ∀ n ∈ ns, ∃ ts, Writes .declaration n ts) :
    ∃ ts, Writes .declaration
      ⟨id, span, .functionDecl name generics params result body⟩ ts := by
  obtain ⟨_, _, arguments, writtenArguments⟩ := CanWrite.inAngles arguments
  obtain ⟨_, _, content, writtenContent⟩ :=
    CanWrite.listed .rightParen (by decide) content
  obtain ⟨_, _, typed, writtenType⟩ := CanWrite.annotated typed
  cases body with
  | none =>
    exact ⟨_, .phrase
      (.signature (wordOf_kind .kwFunction) named arguments (wordOf_kind .leftParen) content typed
        (wordOf_kind .newline))
      (.mark (by decide) (.name named (writtenArguments.append (.mark (by decide)
        (writtenContent.append (writtenType.append (.mark (by decide) .nil)))))))⟩
  | some body =>
    obtain ⟨_, _, indented, writtenBody⟩ := CanWrite.block (within body rfl)
    exact ⟨_, .phrase
      (.functionDecl (wordOf_kind .kwFunction) named arguments (wordOf_kind .leftParen) content
        typed indented)
      (.mark (by decide) (.name named (writtenArguments.append (.mark (by decide)
        (writtenContent.append (writtenType.append writtenBody))))))⟩

theorem exists_writes_classDecl {generics bases constructors statics instances : List Node}
    (named : name.kind = .identifier)
    (arguments : ∀ n ∈ generics, ∃ ts, Writes .generic n ts)
    (extended : ∀ n ∈ bases, ∃ ts, Writes .type n ts)
    (members : ∀ m ∈ constructors ++ statics ++ instances, ∃ ts, Writes .member m ts)
    (first : ∀ m ∈ constructors, Parser.Section.ofMember m = .constructors)
    (second : ∀ m ∈ statics, Parser.Section.ofMember m = .statics)
    (third : ∀ m ∈ instances, Parser.Section.ofMember m = .instances) :
    ∃ ts, Writes .declaration
      ⟨id, span, .classDecl name generics bases constructors statics instances⟩ ts := by
  obtain ⟨_, _, arguments, writtenArguments⟩ := CanWrite.inAngles arguments
  obtain ⟨_, _, extended, writtenBases⟩ := CanWrite.bases extended
  obtain ⟨_, _, indented, writtenMembers⟩ := CanWrite.blockOrLine members
  have layout := WrittenAs.classDecl (wordOf_kind .kwClass) named arguments extended indented
  obtain ⟨constructors, statics, instances⟩ := Parser.Section.filter_append first second third
  rw [constructors, statics, instances] at layout
  exact ⟨_, .phrase layout (.mark (by decide) (.name named
    (writtenArguments.append (writtenBases.append writtenMembers))))⟩

theorem exists_writes_importDecl {path : List Token} {rename : Option Token} {exposed : List Node}
    (some : path ≠ []) (named : ∀ t ∈ path, t.kind = .identifier)
    (renamed : ∀ t ∈ rename, t.kind = .identifier)
    (listed : ∀ n ∈ exposed, ∃ ts, Writes .importedName n ts)
    (either : rename = none ∨ exposed = []) :
    ∃ ts, Writes .declaration ⟨id, span, .importDecl path rename exposed⟩ ts := by
  obtain ⟨name, others, rfl⟩ := List.exists_cons_of_ne_nil some
  obtain ⟨named, rest⟩ := List.forall_mem_cons.1 named
  obtain ⟨_, _, path, writtenPath⟩ :=
    CanWrite.eachAfter .dot (by decide) fun t h => .ofName (rest t h)
  obtain ⟨_, _, renamed, writtenRename⟩ :=
    CanWrite.optionally .kwAs (by decide) fun t h => .ofName (renamed t h)
  obtain rfl | rfl := either
  · obtain ⟨_, _, listed, writtenNames⟩ := CanWrite.listAfter .leftParen (by decide)
      fun _ => CanWrite.listed .rightParen (by decide) listed
    exact ⟨_, .phrase
      (.importDecl (wordOf_kind .kwImport) named path renamed listed (.inl rfl)
        (wordOf_kind .newline))
      (.mark (by decide) (.name named (writtenPath.append (writtenRename.append
        (writtenNames.append (.mark (by decide) .nil))))))⟩
  · exact ⟨_, .phrase
      (.importDecl (wordOf_kind .kwImport) named path renamed .none (.inr rfl)
        (wordOf_kind .newline))
      (.mark (by decide) (.name named (writtenPath.append
        (writtenRename.append (.mark (by decide) .nil)))))⟩

end Forms

/-- Every plain tree can be written. -/
theorem Plain.exists_writes {phrase : Phrase} {n : Node} (plain : Plain phrase n) :
    ∃ ts, Writes phrase n ts := by
  induction plain with
  | typeRef some named _ arguments => exact exists_writes_typeRef _ some named arguments
  | generic named _ bounded =>
    obtain ⟨_, _, bounded, written⟩ :=
      CanWrite.optionally .kwExtends (by decide) fun n h => .ofPart (bounded n h)
    exact ⟨_, .phrase (.generic named bounded) (.name named written)⟩
  | parameter named _ typed =>
    obtain ⟨_, typed⟩ := typed
    exact ⟨_, .phrase (.parameter named (wordOf_kind .colon))
      (.name named (.mark (by decide) (.single typed)))⟩
  | importedName named renamed =>
    obtain ⟨_, _, renamed, written⟩ :=
      CanWrite.optionally .kwAs (by decide) fun t h => .ofName (renamed t h)
    exact ⟨_, .phrase (.importedName named renamed) (.name named written)⟩
  | identifier named => exact ⟨_, .expression (.identifier named) (.identifier _ _ _)⟩
  | variableDecl named _ _ typed given =>
    obtain ⟨_, _, typed, writtenType⟩ := CanWrite.annotated typed
    obtain ⟨_, _, given, writtenValue⟩ :=
      CanWrite.optionally .equal (by decide) fun n h => .ofPart (given n h)
    exact ⟨_, .phrase
      (.variableDecl (wordOf_kind .kwVar) named typed given (wordOf_kind .newline))
      (.mark (by decide) (.name named
        (writtenType.append (writtenValue.append (.mark (by decide) .nil)))))⟩
  | functionDecl named _ _ _ _ arguments content typed within =>
    exact exists_writes_functionDecl named arguments content typed within
  | classDecl named _ _ _ first second third arguments extended members =>
    exact exists_writes_classDecl named arguments extended members first second third
  | constructor _ _ content within =>
    obtain ⟨_, _, content, writtenContent⟩ :=
      CanWrite.listed .rightParen (by decide) content
    obtain ⟨_, _, indented, writtenBody⟩ := CanWrite.blockOrLine within
    exact ⟨_, .phrase
      (.constructor (wordOf_kind .kwNew) (wordOf_kind .leftParen) content indented)
      (.mark (by decide) (.mark (by decide) (writtenContent.append writtenBody)))⟩
  | classMember isStatic _ within =>
    obtain ⟨_, within⟩ := within
    cases isStatic with
    | false => exact ⟨_, .phrase .instanceMember (.single within)⟩
    | true =>
      exact ⟨_, .phrase (.staticMember (wordOf_kind .kwStatic))
        (.mark (by decide) (.single within))⟩
  | importDecl some named renamed _ either listed =>
    exact exists_writes_importDecl some named renamed listed either
  | conditional _ _ _ asked within other =>
    obtain ⟨_, asked⟩ := asked
    obtain ⟨_, _, indented, writtenBody⟩ := CanWrite.block within
    obtain ⟨_, other⟩ := exists_writesAll fun n h => other n (Option.mem_toList.1 h)
    exact ⟨_, .phrase (.conditional (wordOf_kind .kwIf) indented _)
      (.mark (by decide) (.part asked (writtenBody.append other)))⟩
  | elseBranch _ within =>
    obtain ⟨_, _, indented, written⟩ := CanWrite.block within
    exact ⟨_, .phrase (.elseBranch (wordOf_kind .kwElse) indented) (.mark (by decide) written)⟩
  | forEach named _ _ _ typed given within =>
    obtain ⟨_, _, typed, writtenType⟩ := CanWrite.annotated typed
    obtain ⟨_, given⟩ := given
    obtain ⟨_, _, indented, written⟩ := CanWrite.block within
    exact ⟨_, .phrase
      (.forEach (wordOf_kind .kwFor) named typed (wordOf_kind .kwIn) indented)
      (.mark (by decide) (.name named
        (writtenType.append (.mark (by decide) (.part given written)))))⟩
  | whileLoop _ _ asked within =>
    obtain ⟨_, asked⟩ := asked
    obtain ⟨_, _, indented, written⟩ := CanWrite.block within
    exact ⟨_, .phrase (.whileLoop (wordOf_kind .kwWhile) indented)
      (.mark (by decide) (.part asked written))⟩
  | repeatTimes _ _ asked within =>
    obtain ⟨_, asked⟩ := asked
    obtain ⟨_, _, indented, written⟩ := CanWrite.block within
    exact ⟨_, .phrase (.repeatTimes (wordOf_kind .kwRepeat) (wordOf_kind .kwTimes) indented)
      (.mark (by decide) (.part asked (.mark (by decide) written)))⟩
  | switch _ _ asked within =>
    obtain ⟨_, asked⟩ := asked
    obtain ⟨_, _, indented, written⟩ := CanWrite.block within
    exact ⟨_, .phrase (.switch (wordOf_kind .kwSwitch) indented)
      (.mark (by decide) (.part asked written))⟩
  | switchCase some _ _ asked within =>
    obtain ⟨condition, others, rfl⟩ := List.exists_cons_of_ne_nil some
    obtain ⟨⟨_, asked⟩, rest⟩ := List.forall_mem_cons.1 asked
    obtain ⟨_, _, more, writtenMore⟩ :=
      CanWrite.eachAfter .comma (by decide) fun n h => .ofPart (rest n h)
    obtain ⟨_, _, indented, written⟩ := CanWrite.block within
    exact ⟨_, .phrase (.switchCase (wordOf_kind .kwCase) more indented)
      (.mark (by decide) (.part asked (writtenMore.append written)))⟩
  | tryCatch _ _ within handled =>
    obtain ⟨_, handled⟩ := handled
    obtain ⟨_, _, indented, written⟩ := CanWrite.block within
    exact ⟨_, .phrase (.tryCatch (wordOf_kind .kwTry) indented)
      (.mark (by decide) (written.append (.single handled)))⟩
  | catchClause named _ _ typed within =>
    obtain ⟨_, _, typed, writtenType⟩ := CanWrite.annotated typed
    obtain ⟨_, _, indented, written⟩ := CanWrite.block within
    exact ⟨_, .phrase (.catchClause (wordOf_kind .kwCatch) named typed indented)
      (.mark (by decide) (.name named (writtenType.append written)))⟩
  | returnStmt _ given =>
    obtain ⟨_, given⟩ := exists_writesAll fun n h => given n (Option.mem_toList.1 h)
    exact ⟨_, .phrase (.returnStmt (wordOf_kind .kwReturn) _ (wordOf_kind .newline))
      (.mark (by decide) (given.append (.mark (by decide) .nil)))⟩
  | throwStmt _ given =>
    obtain ⟨_, given⟩ := given
    exact ⟨_, .phrase (.throwStmt (wordOf_kind .kwThrow) (wordOf_kind .newline))
      (.mark (by decide) (.part given (.mark (by decide) .nil)))⟩
  | yieldStmt _ given =>
    obtain ⟨_, given⟩ := given
    exact ⟨_, .phrase (.yieldStmt (wordOf_kind .kwYield) (wordOf_kind .newline))
      (.mark (by decide) (.part given (.mark (by decide) .nil)))⟩
  | jumpStmt jump =>
    exact ⟨_, .phrase (.jumpStmt jump (wordOf_kind jump.tokenKind) (wordOf_kind .newline))
      (.mark (by cases jump <;> decide) (.mark (by decide) .nil))⟩
  | expressionStmt _ given =>
    obtain ⟨_, given⟩ := given
    exact ⟨_, .phrase (.expressionStmt (wordOf_kind .newline))
      (.part given (.mark (by decide) .nil))⟩

/-- Plain programs can be written, and however one is written it is read back without a fault. -/
theorem parse_of_plain {body : List Node} (plain : ∀ n ∈ body, Plain .declaration n) :
    (∃ ts, WritesAll (parts .declaration body) ts) ∧
      ∀ ts eof, WritesAll (parts .declaration body) ts → eof.kind = .eof →
        (parse (ts ++ [eof])).diagnostics = [] ∧
          (parse (ts ++ [eof])).program.bare = (⟨0, default, .program body⟩ : Node).bare :=
  ⟨exists_writesAll fun n h => (plain n h).exists_writes,
    fun _ _ written ends => parse_of_writes written ends⟩

namespace Sample

/-- A name where it stands. -/
def name (lexeme : String) : Token := ⟨.identifier, lexeme, default⟩

theorem kind_name (lexeme : String) : (name lexeme).kind = .identifier := rfl

/-- A type that a single name and pairs of brackets stand for. -/
def typeNamed (lexeme : String) (depth : Nat) : Node :=
  ⟨0, default, .typeRef [name lexeme] [] depth⟩

theorem plain_typeNamed (lexeme : String) (depth : Nat) :
    Plain .type (typeNamed lexeme depth) :=
  .typeRef (List.cons_ne_nil _ _) (List.forall_mem_singleton.2 rfl) (List.forall_mem_nil _)

theorem plain_use (lexeme : String) : Plain .expression (use lexeme) := .identifier rfl

/-- A constructor that does nothing with what it is given. -/
def maker : Node :=
  ⟨0, default, .constructor [⟨0, default, .parameter (name "item") (typeNamed "T" 0)⟩] []⟩

/-- A static variable. -/
def size : Node :=
  ⟨0, default, .classMember true
    ⟨0, default, .variableDecl (name "size") none (some (use "limit"))⟩⟩

/-- The signature of a function. -/
def peek : Node :=
  ⟨0, default, .classMember false
    ⟨0, default, .functionDecl (name "peek") [] [] (some (typeNamed "T" 1)) none⟩⟩

/-- A class of these members. -/
def box : Node :=
  ⟨0, default, .classDecl (name "Box") [⟨0, default, .generic (name "T") none⟩] [typeNamed "Base" 0]
    [maker] [size] [peek]⟩

theorem plain_box : Plain .declaration box := by
  refine .classDecl rfl ?_ ?_ ?_ (by decide) (by decide) (by decide)
  · exact List.forall_mem_singleton.2 (.generic rfl (by simp))
  · exact List.forall_mem_singleton.2 (plain_typeNamed ..)
  · refine List.forall_mem_cons.2 ⟨?_, List.forall_mem_cons.2 ⟨?_, List.forall_mem_singleton.2 ?_⟩⟩
    · exact .constructor (List.forall_mem_singleton.2 (.parameter rfl (plain_typeNamed ..)))
        (List.forall_mem_nil _)
    · exact .classMember true (.variableDecl rfl (by simp) (by simp [plain_use]))
    · exact .classMember false (.functionDecl rfl (List.forall_mem_nil _) (List.forall_mem_nil _)
        (by simp [plain_typeNamed]) (by simp))

/-- The tokens of the constructor. -/
def makerTokens : List Token :=
  [wordOf .kwNew, wordOf .leftParen, name "item", wordOf .colon, name "T", wordOf .rightParen,
    wordOf .newline]

/-- The tokens of the static variable. -/
def sizeTokens : List Token :=
  [wordOf .kwStatic, wordOf .kwVar, name "size", wordOf .equal, name "limit", wordOf .newline]

/-- The tokens of the signature. -/
def peekTokens : List Token :=
  [wordOf .kwFunction, name "peek", wordOf .leftParen, wordOf .rightParen, wordOf .colon,
    name "T", wordOf .leftBracket, wordOf .rightBracket, wordOf .newline]

/-- The tokens of the class. -/
def boxTokens : List Token :=
  [wordOf .kwClass, name "Box", wordOf .less, name "T", wordOf .greater, wordOf .kwExtends,
    name "Base", wordOf .newline, wordOf .indent] ++ makerTokens ++ sizeTokens ++ peekTokens ++
    [wordOf .outdent]

theorem writes_typeNamed (lexeme : String) : Writes .type (typeNamed lexeme 0) [name lexeme] :=
  .phrase (.typeRef rfl .nil .none .nil) (.name rfl .nil)

theorem writes_maker : Writes .member maker makerTokens :=
  .phrase
    (.constructor (wordOf_kind .kwNew) (wordOf_kind .leftParen) (.last (wordOf_kind .rightParen))
      (.line (wordOf_kind .newline)))
    (.mark (by decide) (.mark (by decide) (.part
      (.phrase (.parameter rfl (wordOf_kind .colon))
        (.name rfl (.mark (by decide) (.single (writes_typeNamed "T")))))
      (.mark (by decide) (.mark (by decide) .nil)))))

theorem writes_size : Writes .member size sizeTokens :=
  .phrase (.staticMember (wordOf_kind .kwStatic)) (.mark (by decide) (.single
    (.phrase
      (.variableDecl (wordOf_kind .kwVar) rfl .none (.some (wordOf_kind .equal) (.mk _))
        (wordOf_kind .newline))
      (.mark (by decide) (.name rfl (.mark (by decide) (.part
        (.expression (.identifier (kind_name "limit")) (.identifier _ _ _))
        (.mark (by decide) .nil))))))))

theorem writes_peek : Writes .member peek peekTokens := by
  have result : Writes .type (typeNamed "T" 1)
      [name "T", wordOf .leftBracket, wordOf .rightBracket] :=
    .phrase
      (.typeRef rfl .nil .none
        (.cons (wordOf_kind .leftBracket) (.mk (wordOf_kind .rightBracket)) .nil))
      (.name rfl (.mark (by decide) (.mark (by decide) .nil)))
  exact .phrase .instanceMember (.single (.phrase
    (.signature (wordOf_kind .kwFunction) rfl .none (wordOf_kind .leftParen)
      (.close (wordOf_kind .rightParen)) (.some (wordOf_kind .colon) (.mk _))
      (wordOf_kind .newline))
    (.mark (by decide) (.name rfl (.mark (by decide) (.mark (by decide) (.mark (by decide)
      (.part result (.mark (by decide) .nil)))))))))

theorem writes_box : Writes .declaration box boxTokens := by
  have members : WritesAll (parts .member [maker, size, peek])
      (makerTokens ++ (sizeTokens ++ (peekTokens ++ []))) :=
    .part writes_maker (.part writes_size (.part writes_peek .nil))
  have block : Block .member [maker, size, peek] _ :=
    .mk _ (wordOf_kind .newline) (List.forall_mem_nil _) (wordOf_kind .indent)
      (wordOf_kind .outdent)
  have parameter : Writes .generic ⟨0, default, .generic (name "T") none⟩ [name "T"] :=
    .phrase (.generic rfl .none) (.name rfl .nil)
  have written : Writes .declaration box _ := .phrase
    (.classDecl (wordOf_kind .kwClass) rfl
      (.some (wordOf_kind .less) (.last (wordOf_kind .greater)))
      (.some (wordOf_kind .kwExtends) (.mk .nil)) (.block block))
    (.mark (by decide) (.name rfl (.mark (by decide) (.part parameter (.mark (by decide)
      (.mark (by decide) (.part (writes_typeNamed "Base") (.mark (by decide) (.mark (by decide)
        (members.append (.mark (by decide) .nil)))))))))))
  exact written

end Sample

open Sample in
/-- A class with a constructor, a static variable and a signature. -/
theorem parse_of_plain_class :
    (∀ n ∈ [box], Plain .declaration n) ∧ WritesAll (parts .declaration [box]) boxTokens ∧
      (wordOf .eof).kind = .eof ∧ (parse (boxTokens ++ [wordOf .eof])).diagnostics = [] ∧
      (parse (boxTokens ++ [wordOf .eof])).program.bare =
        (⟨0, default, .program [box]⟩ : Node).bare := by
  have plain : ∀ n ∈ [box], Plain .declaration n := List.forall_mem_singleton.2 plain_box
  exact ⟨plain, .single writes_box, rfl, (parse_of_plain plain).2 _ _ (.single writes_box) rfl⟩

end TekLang
