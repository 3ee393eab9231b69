import TekLang.Proofs.Grammar.Concatenation
import TekLang.Proofs.Grammar.Restoring

/-!
# Writing a program and reading it back

Every program is read back from the tokens that it is written with. A statement looks at one token
behind its own: an if could have an else branch, and a signature could have a block. What comes
behind a written statement is another one or the end of the block that it stands in, which is none
of these.
-/

namespace TekLang

namespace Parser

/-- The tokens that go on with a statement behind its last line. -/
def statementMarks : List TokenKind := [.kwElse, .newline, .indent]

/-- The tokens behind the expressions that are parts of statements. -/
def expressionEnds : List TokenKind := [.newline, .comma, .kwTimes]

/-- The reader restores expressions and statements. -/
structure RestoresGrammar (rounds : Nat) (inner : Construct → Parser Node) : Prop where
  expression (e : Node) (more : List Token) : firstKind more ∈ expressionEnds →
    Restores rounds Node.bare [.part .expression e] more (inner (.expression .assignment)) e
  statement (n : Node) (more : List Token) : firstKind more ∉ statementMarks →
    Restores rounds Node.bare [.part .declaration n] more (inner .declaration) n

/-! ## Blocks -/

section Blocks

variable {phrase : Phrase} {nodes : List Node} {items : List Item} {ts more : List Token}
  {c : Cursor}

theorem startsBlock_of_block (indented : Block phrase nodes items) (written : WritesAll items ts)
    (here : c.rest = ts ++ more) : c.startsBlock = true := by
  cases indented with
  | @mk newline indent outdent blank nodes line lines opens closes =>
    obtain ⟨us, rfl, behind⟩ := written.word_inv
    obtain ⟨vs, ws, rfl, front, back⟩ := behind.append_inv
    obtain ⟨others, rfl, -⟩ := back.word_inv
    obtain rfl := front.of_words
    have skipped : (vs ++ indent :: (others ++ more)).dropWhile (·.kind = .newline) =
        indent :: (others ++ more) := by
      rw [List.dropWhile_append_of_pos fun t member => by simpa using lines t member]
      simp [opens]
    unfold Cursor.startsBlock
    rw [Cursor.nextKind_of_rest_cons here, here]
    simp [line, skipped, opens]

theorem startsBlock_of_line {newline : Token} (ends : newline.kind = .newline)
    (apart : firstKind more ∉ statementMarks) (written : WritesAll [.word newline] ts)
    (here : c.rest = ts ++ more) : c.startsBlock = false := by
  obtain ⟨none, rfl, nothing⟩ := written.word_inv
  cases nothing
  unfold Cursor.startsBlock
  rw [here]
  cases more with
  | nil => simp [ends]
  | cons t more =>
    have apart : t.kind ∉ statementMarks := apart
    simp_all [statementMarks]

end Blocks

theorem Section.ofMember_bare (n : Node) : Section.ofMember n.bare = Section.ofMember n := by
  obtain ⟨id, span, form⟩ := n
  rw [Node.bare_mk]
  cases form with
  | classMember isStatic => cases isStatic <;> rfl
  | _ => rfl

section Statements

variable {rounds : Nat} {inner : Construct → Parser Node} (restores : RestoresGrammar rounds inner)
  {i : NodeId} {start span : Span} {more : List Token} {items : List Item}
include restores

/-- An expression is restored in front of what no expression goes on with. -/
theorem expression_restores {kinds : List TokenKind} {e : Node} {γ δ : Type} {g : γ → δ} {b : γ}
    {next : Node → Parser γ} (behind : Begin kinds items more)
    (ends : ∀ kind ∈ kinds, kind ∈ expressionEnds)
    (second : ∀ e', e'.bare = e.bare → Restores rounds g items more (next e') b) :
    Restores rounds g (.part .expression e :: items) more (expression inner >>= next) b := by
  change Restores rounds g ([.part .expression e] ++ items) more _ b
  exact .bind behind (fun rest next => restores.expression e rest (ends _ next)) second

theorem isPart_restores {kinds : List TokenKind} {e : Node} (part : IsPart .expression e items)
    (next : firstKind more ∈ kinds) (ends : ∀ kind ∈ kinds, kind ∈ expressionEnds) :
    Restores rounds Node.bare items more (expression inner) e := by
  cases part with
  | mk => exact restores.expression e more (ends _ next)

theorem block_restores {nodes : List Node} (indented : Block .declaration nodes items)
    (landmark : Landmark) :
    Restores rounds (List.map Node.bare) items more (block (inner .declaration) landmark)
      nodes := by
  have apart : ∀ kind ∈ .outdent :: Phrase.declaration.starts, kind ∉ statementMarks := by decide
  exact .indented indented landmark (by decide) fun n rest next =>
    .unlessAtEnd (restores.statement n rest (apart _ next)) _

theorem variableDecl_restores {name newline : Token} {type value : Option Node}
    {values : List Item} (named : name.kind = .identifier) (annotated : Annotation type items)
    (given : Optionally .equal (IsPart .expression) value values)
    (ends : newline.kind = .newline) :
    Restores rounds Node.bare (.word name :: (items ++ (values ++ [.word newline]))) more
      (variableDecl inner start) ⟨i, span, .variableDecl name type value⟩ := by
  refine typedName_restores named annotated (.optionally given (.word ends)) (by decide) ?_
  intro type' sameType
  refine .bind (a := value) (f := Option.map Node.bare) (.word ends) ?_ ?_
  · intro rest next
    exact .optional given (ne_of_mem_of_not_mem next (by decide)) fun _ _ part =>
      isPart_restores restores part next (by decide)
  intro value' sameValue
  refine .spanFrom fun _ => .line ends (.node ?_)
  simp_all [Form.map]

omit restores in
/-- What signatures and functions with a body begin with. -/
theorem signature_restores {name left : Token} {generics params : List Node}
    {result : Option Node} {angles results tail : List Item} {kinds : List TokenKind}
    {γ δ : Type} {g : γ → δ} {b : γ}
    {next : Token → List Node → List Node → Option Node → Parser γ}
    (named : name.kind = .identifier) (arguments : InAngles .generic generics angles)
    (opens : left.kind = .leftParen) (content : Listed .parameter .rightParen params items)
    (annotated : Annotation result results) (behind : Begin kinds tail more)
    (apart : ∀ kind ∈ kinds, kind ∉ .colon :: typeMarks)
    (second : ∀ generics' params' result', generics'.map Node.bare = generics.map Node.bare →
      params'.map Node.bare = params.map Node.bare →
      result'.map Node.bare = result.map Node.bare →
      Restores rounds g tail more (next name generics' params' result') b) :
    Restores rounds g
      (.word name :: (angles ++ .word left :: (items ++ (results ++ tail)))) more
      (do
        let name ← expectName (.after (.word .kwFunction))
        let generics ← genericParameters
        let _ ← expect .leftParen (.after .functionName)
        let params ← parameters
        let result ← optional .colon typeRef
        next name generics params result) b := by
  refine .word named ?_
  refine .bind (a := generics) (f := List.map Node.bare) (.word opens) ?_ ?_
  · intro rest next
    exact genericParameters_restores arguments (ne_of_mem_of_not_mem next (by decide))
  intro generics' sameGenerics
  refine .word opens ?_
  refine .andThen (fun _ => parameters_restores content) ?_
  intro params' sameParams
  refine .bind (a := result) (f := Option.map Node.bare) behind ?_ ?_
  · intro rest next
    have other := apart _ next
    exact .optional annotated (List.ne_of_not_mem_cons other) fun _ _ part =>
      typeRef_restores_isPart part (List.not_mem_of_not_mem_cons other)
  intro result' sameResult
  exact second generics' params' result' sameGenerics sameParams sameResult

omit restores in
theorem functionDecl_restores_none {name left newline : Token} {generics params : List Node}
    {result : Option Node} {angles results : List Item}
    (named : name.kind = .identifier) (arguments : InAngles .generic generics angles)
    (opens : left.kind = .leftParen) (content : Listed .parameter .rightParen params items)
    (annotated : Annotation result results) (ends : newline.kind = .newline)
    (apart : firstKind more ∉ statementMarks) :
    Restores rounds Node.bare
      (.word name :: (angles ++ .word left :: (items ++ (results ++ [.word newline])))) more
      (functionDecl inner start) ⟨i, span, .functionDecl name generics params result none⟩ := by
  refine signature_restores named arguments opens content annotated (.word ends) (by decide) ?_
  intro generics' params' result' sameGenerics sameParams sameResult
  refine .get fun ts c written here => ?_
  rw [TokenStream.startsBlock_cursor, startsBlock_of_line ends apart written here,
    if_neg Bool.false_ne_true]
  refine .spanFrom fun _ => .line ends (.node ?_)
  simp_all [Form.map]

theorem functionDecl_restores_some {name left : Token} {generics params body : List Node}
    {result : Option Node} {angles results tail : List Item} (named : name.kind = .identifier)
    (arguments : InAngles .generic generics angles) (opens : left.kind = .leftParen)
    (content : Listed .parameter .rightParen params items) (annotated : Annotation result results)
    (indented : Block .declaration body tail) :
    Restores rounds Node.bare
      (.word name :: (angles ++ .word left :: (items ++ (results ++ tail)))) more
      (functionDecl inner start)
      ⟨i, span, .functionDecl name generics params result (some body)⟩ := by
  refine signature_restores named arguments opens content annotated (.lastBlock indented)
    (by decide) ?_
  intro generics' params' result' sameGenerics sameParams sameResult
  refine .get fun ts c written here => ?_
  rw [TokenStream.startsBlock_cursor, if_pos (startsBlock_of_block indented written here)]
  refine .last (block_restores restores indented _) ?_
  intro body' sameBody
  refine .spanned ?_
  simp_all [Form.map]

theorem constructor_restores {left : Token} {params body : List Node} {tail : List Item}
    (opens : left.kind = .leftParen) (content : Listed .parameter .rightParen params items)
    (indented : BlockOrLine .declaration body tail) (apart : firstKind more ∉ statementMarks) :
    Restores rounds Node.bare (.word left :: (items ++ tail)) more (constructor inner start)
      ⟨i, span, .constructor params body⟩ := by
  refine .word opens ?_
  refine .andThen (fun _ => parameters_restores content) ?_
  intro params' sameParams
  refine .get fun ts c written here => ?_
  cases indented with
  | block indented =>
    rw [TokenStream.startsBlock_cursor, if_pos (startsBlock_of_block indented written here)]
    refine .last (block_restores restores indented _) ?_
    intro body' sameBody
    refine .spanned ?_
    simp_all [Form.map]
  | line ends =>
    rw [TokenStream.startsBlock_cursor, startsBlock_of_line ends apart written here,
      if_neg Bool.false_ne_true]
    refine .line ends ?_
    rw [pure_bind]
    refine .spanned ?_
    simp_all [Form.map]

omit restores in
theorem startsConstructor_of_begin {kinds : List TokenKind} {ts : List Token} {c : Cursor}
    (begins : Begin kinds items more) (apart : .kwNew ∉ kinds) (written : WritesAll items ts)
    (here : c.rest = ts ++ more) : startsConstructor c.rest = false := by
  have other : firstKind c.rest ≠ .kwNew := by
    rw [here]
    exact ne_of_mem_of_not_mem (begins ts written) apart
  unfold startsConstructor
  split
  · next new paren _ ahead =>
    rw [ahead] at other
    have other : new.kind ≠ .kwNew := other
    simp [other]
  · rfl

/-- A member is read up to the next one or the end of the class. -/
theorem classMember_restores {n : Node} (apart : firstKind more ∉ statementMarks) :
    Restores rounds Node.bare [.part .member n] more (classMember inner) n := by
  refine .phrase (by decide) fun i span form items layout => ?_
  refine .get fun ts c written here => ?_
  rw [TokenStream.startsConstructor_cursor]
  cases layout with
  | @constructor word left params items body block kind opens content indented =>
    have begins : startsConstructor c.rest = true := by
      obtain ⟨us, rfl, behind⟩ := written.word_inv
      obtain ⟨vs, rfl, -⟩ := behind.word_inv
      rw [here]
      simp [startsConstructor, kind, opens]
    rw [if_pos begins]
    refine .mono (.advanced ?_) (Nat.le_succ _)
    exact constructor_restores restores opens content indented apart
  | @instanceMember value =>
    have begins : Begin Phrase.declaration.starts [.part .declaration value] more := .part
    rw [startsConstructor_of_begin begins (by decide) written here, if_neg Bool.false_ne_true]
    refine .upcoming fun _ => .refused begins (by decide) ?_
    refine .last (restores.statement value more apart) ?_
    intro value' sameValue
    refine .node ?_
    simp_all [Form.map]
  | @staticMember word value kind =>
    rw [startsConstructor_of_begin (.word kind) (by decide) written here,
      if_neg Bool.false_ne_true]
    refine .upcoming fun _ => .accepted kind ?_
    refine .last (restores.statement value more apart) ?_
    intro value' sameValue
    refine .node ?_
    simp_all [Form.map]

omit restores in
theorem bases_restores {bases : List Node} {kinds : List TokenKind} (extended : Bases bases items)
    (next : firstKind more ∈ kinds) (apart : ∀ kind ∈ kinds, kind ∉ .comma :: typeMarks) :
    Restores rounds (List.map Node.bare) items more
      (do
        let first ← typeRef
        let others ← eachAfter .comma typeRef
        return first :: others) bases := by
  have inner : ∀ kind ∈ .comma :: kinds, kind ∉ typeMarks :=
    List.forall_mem_cons.2 ⟨by decide, fun kind member => List.not_mem_of_not_mem_cons
      (apart kind member)⟩
  cases extended with
  | @mk first others items each =>
    change Restores rounds _ ([.part .type first] ++ items) more _ _
    refine .bind (a := first) (f := Node.bare) (.lastEach each next) ?_ ?_
    · intro rest next
      exact typeRef_restores (inner _ next)
    intro first' sameFirst
    refine .last (a := others) (f := List.map Node.bare) ?_ ?_
    · refine .eachAfter each next (fun member => apart _ member List.mem_cons_self) ?_
      exact fun _ _ _ part next => typeRef_restores_isPart part (inner _ next)
    intro others' sameOthers ts c written here _
    cases written
    exact ⟨_, c, rfl, by rw [List.map_cons, sameFirst, sameOthers, List.map_cons], here⟩

theorem classDecl_restores {name : Token} {generics bases members : List Node}
    {angles types tail : List Item} (named : name.kind = .identifier)
    (arguments : InAngles .generic generics angles)
    (extended : ListAfter .kwExtends Bases bases types)
    (indented : BlockOrLine .member members tail) (apart : firstKind more ∉ statementMarks) :
    Restores rounds Node.bare (.word name :: (angles ++ (types ++ tail))) more
      (classDecl inner start)
      ⟨i, span, .classDecl name generics bases
        (members.filter (Section.ofMember · = .constructors))
        (members.filter (Section.ofMember · = .statics))
        (members.filter (Section.ofMember · = .instances))⟩ := by
  refine .word named ?_
  refine .bind (a := generics) (f := List.map Node.bare)
    (.listAfter extended (.blockOrLine indented)) ?_ ?_
  · intro rest next
    exact genericParameters_restores arguments (ne_of_mem_of_not_mem next (by decide))
  intro generics' sameGenerics
  refine .bind (a := bases) (f := List.map Node.bare) (.blockOrLine indented) ?_ ?_
  · intro rest next
    exact .optionalList extended (ne_of_mem_of_not_mem next (by decide)) fun _ bases =>
      bases_restores bases next (by decide)
  intro bases' sameBases
  have made {members' : List Node} (sameMembers : members'.map Node.bare = members.map Node.bare) :
      (Form.classDecl name generics' bases'
        (members'.filter (Section.ofMember · = .constructors))
        (members'.filter (Section.ofMember · = .statics))
        (members'.filter (Section.ofMember · = .instances))).map Node.bare =
      (Form.classDecl name generics bases (members.filter (Section.ofMember · = .constructors))
        (members.filter (Section.ofMember · = .statics))
        (members.filter (Section.ofMember · = .instances))).map Node.bare := by
    have sections := sections_map Section.ofMember_bare sameMembers
    simp_all [Form.map]
  refine .get fun ts c written here => ?_
  cases indented with
  | block indented =>
    rw [TokenStream.startsBlock_cursor, if_pos (startsBlock_of_block indented written here)]
    have inside : ∀ kind ∈ .outdent :: Phrase.member.starts, kind ∉ statementMarks := by decide
    refine .behindBlock (.indented indented _ (by decide) fun n rest next => ?_) ?_
    · exact .unlessAtEnd (classMember_restores restores (inside _ next)) _
    · exact fun members' sameMembers => .spanned (made sameMembers)
  | line ends =>
    rw [TokenStream.startsBlock_cursor, startsBlock_of_line ends apart written here,
      if_neg Bool.false_ne_true]
    refine .line ends ?_
    rw [pure_bind]
    exact .spanned (made rfl)

omit restores in
theorem rename_restores {newName : Option Token}
    (renamed : Optionally .kwAs (IsWord .identifier) newName items)
    (apart : firstKind more ≠ .kwAs) : Restores rounds (Option.map id) items more rename newName :=
  .optional renamed apart fun _ _ word => expectAs_restores word _ _

omit restores in
theorem importedName_restores {n : Node}
    (next : firstKind more = .comma ∨ firstKind more = .rightParen) :
    Restores rounds Node.bare [.part .importedName n] more importedName n := by
  refine .phrase (by decide) fun i span form items layout => ?_
  cases layout with
  | @importedName name newName items named renamed =>
    refine .word named ?_
    refine .last (a := newName) (f := Option.map id) (rename_restores renamed ?_) ?_
    · rcases next with next | next <;> (rw [next]; decide)
    intro newName' sameName
    refine .spanned ?_
    simp_all [Form.map]

omit restores in
theorem importDecl_restores {name newline : Token} {others : List Token} {newName : Option Token}
    {exposed : List Node} {dots renames : List Item} (named : name.kind = .identifier)
    (path : EachAfter .dot (IsWord .identifier) others dots)
    (renamed : Optionally .kwAs (IsWord .identifier) newName renames)
    (listed : ListAfter .leftParen (Listed .importedName .rightParen) exposed items)
    (either : newName = none ∨ items = []) (ends : newline.kind = .newline) :
    Restores rounds Node.bare
      (.word name :: (dots ++ (renames ++ (items ++ [.word newline])))) more (importDecl start)
      ⟨i, span, .importDecl (name :: others) newName exposed⟩ := by
  refine .word named ?_
  refine .bind (a := others) (f := List.map id)
    (.optionally renamed (.listAfter listed (.word ends))) ?_ ?_
  · intro rest next
    exact .eachAfter path next (by decide) fun _ _ _ word _ => expectAs_restores word _ _
  intro others' sameOthers
  refine .bind (a := newName) (f := Option.map id) (.listAfter listed (.word ends)) ?_ ?_
  · intro rest next
    exact rename_restores renamed (ne_of_mem_of_not_mem next (by decide))
  intro newName' sameName
  have made {exposed' : List Node} (sameExposed : exposed'.map Node.bare = exposed.map Node.bare) :
      Restores rounds Node.bare [.word newline] more
        (do
          let span ← spanFrom start
          endStatement .importDeclaration
          node span (.importDecl (name :: others') newName' exposed'))
        ⟨i, span, .importDecl (name :: others) newName exposed⟩ := by
    refine .spanFrom fun _ => .line ends (.node ?_)
    simp_all [Form.map]
  refine .ite (fun without => ?_) fun within => ?_
  · refine .bind (a := exposed) (f := List.map Node.bare) (.word ends) ?_ fun _ => made
    intro rest next
    exact .optionalList listed (ne_of_mem_of_not_mem next (by decide)) fun _ names =>
      .commaSequence names _ (by decide) (by decide) fun _ _ next => importedName_restores next
  · have renamed : newName ≠ none := by
      rintro rfl
      exact within (by simpa using sameName)
    obtain rfl := either.resolve_left renamed
    cases listed
    rw [pure_bind]
    exact made rfl

theorem forEach_restores {name within : Token} {type : Option Node} {iterable : Node}
    {body : List Node} {tail : List Item} (named : name.kind = .identifier)
    (annotated : Annotation type items) (runs : within.kind = .kwIn)
    (indented : Block .declaration body tail) :
    Restores rounds Node.bare
      (.word name :: (items ++ .word within :: .part .expression iterable :: tail)) more
      (forEach inner start) ⟨i, span, .forEach name type iterable body⟩ := by
  refine typedName_restores named annotated (.word runs) (by decide) ?_
  intro type' sameType
  refine .word runs ?_
  refine expression_restores restores (.lastBlock indented) (by decide) ?_
  intro iterable' sameIterable
  refine .last (block_restores restores indented _) ?_
  intro body' sameBody
  refine .spanned ?_
  simp_all [Form.map]

theorem whileLoop_restores {condition : Node} {body : List Node}
    (indented : Block .declaration body items) :
    Restores rounds Node.bare (.part .expression condition :: items) more (whileLoop inner start)
      ⟨i, span, .whileLoop condition body⟩ := by
  refine expression_restores restores (.lastBlock indented) (by decide) ?_
  intro condition' sameCondition
  refine .last (block_restores restores indented _) ?_
  intro body' sameBody
  refine .spanned ?_
  simp_all [Form.map]

theorem repeatTimes_restores {amount : Node} {times : Token} {body : List Node}
    (counts : times.kind = .kwTimes) (indented : Block .declaration body items) :
    Restores rounds Node.bare (.part .expression amount :: .word times :: items) more
      (repeatTimes inner start) ⟨i, span, .repeatTimes amount body⟩ := by
  refine expression_restores restores (.word counts) (by decide) ?_
  intro amount' sameAmount
  refine .word counts ?_
  refine .last (block_restores restores indented _) ?_
  intro body' sameBody
  refine .spanned ?_
  simp_all [Form.map]

theorem switchCase_restores {n : Node} :
    Restores rounds Node.bare [.part .switchCase n] more (switchCase inner) n := by
  refine .phrase (by decide) fun i span form items layout => ?_
  cases layout with
  | @switchCase word condition others commas body block kind each indented =>
    refine .word kind ?_
    refine expression_restores restores (.eachAfter each (.lastBlock indented)) (by decide) ?_
    intro condition' sameCondition
    refine .bind (a := others) (f := List.map Node.bare) (.lastBlock indented) ?_ ?_
    · intro rest next
      exact .eachAfter each next (by decide) fun _ _ _ part next =>
        isPart_restores restores part next (by decide)
    intro others' sameOthers
    refine .last (block_restores restores indented _) ?_
    intro body' sameBody
    refine .spanned ?_
    simp_all [Form.map]

theorem switch_restores {subject : Node} {cases : List Node}
    (indented : Block .switchCase cases items) :
    Restores rounds Node.bare (.part .expression subject :: items) more (switch inner start)
      ⟨i, span, .switch subject cases⟩ := by
  refine expression_restores restores (.lastBlock indented) (by decide) ?_
  intro subject' sameSubject
  refine .behindBlock (.indented indented _ (by decide) fun n rest _ =>
    switchCase_restores restores) ?_
  intro cases' sameCases
  refine .spanned ?_
  simp_all [Form.map]

theorem catchClause_restores {n : Node} :
    Restores rounds Node.bare [.part .handler n] more (catchClause inner) n := by
  refine .phrase (by decide) fun i span form items layout => ?_
  cases layout with
  | @catchClause word name type items body block kind named annotated indented =>
    refine .word kind ?_
    refine typedName_restores named annotated (.lastBlock indented) (by decide) ?_
    intro type' sameType
    refine .last (block_restores restores indented _) ?_
    intro body' sameBody
    refine .spanned ?_
    simp_all [Form.map]

theorem tryCatch_restores {body : List Node} {handler : Node}
    (indented : Block .declaration body items) :
    Restores rounds Node.bare (items ++ [.part .handler handler]) more (tryCatch inner start)
      ⟨i, span, .tryCatch body handler⟩ := by
  refine .andThen (fun _ => block_restores restores indented _) ?_
  intro body' sameBody
  refine .last (catchClause_restores restores) ?_
  intro handler' sameHandler
  refine .spanned ?_
  simp_all [Form.map]

/-- A return has a value if no line ends behind its word, which is the last that was read. -/
theorem returnStmt_restores {word newline : Token} {value : Option Node}
    (kind : word.kind = .kwReturn) (ends : newline.kind = .newline) :
    Restores (rounds + 1) Node.bare
      (.word word :: (parts .expression value.toList ++ [.word newline])) more
      (do returnStmt inner (← advance).span) ⟨i, span, .returnStmt value⟩ := by
  refine .announced fun ts c written here enough last => ?_
  unfold returnStmt
  rw [get_bind, TokenStream.endsStatement_cursor]
  cases value with
  | none =>
    obtain ⟨us, rfl, -⟩ := written.word_inv
    have next : c.nextKind = .newline := (Cursor.nextKind_of_rest_cons here).trans ends
    have closes : c.endsStatement = true := by simp [Cursor.endsStatement, next]
    rw [if_pos closes, pure_bind]
    exact Restores.spanFrom (fun _ => .line ends (.node rfl)) _ c written here enough
  | some value =>
    have starts : c.nextKind ∈ TokenKind.operandStarts := by
      rw [Cursor.nextKind_eq, here]
      exact Begin.part ts written
    have noEnd : ∀ kind ∈ TokenKind.operandStarts,
        ¬(kind = .newline ∨ kind = .outdent ∨ kind = .eof) := by decide
    have goesOn : c.endsStatement = false := by
      have other := noEnd _ starts
      simp_all [Cursor.endsStatement]
    rw [goesOn, if_neg Bool.false_ne_true]
    refine expression_restores restores (.word ends) (by decide) ?_ ts c written here enough
    intro value' sameValue
    rw [pure_bind]
    refine .spanFrom fun _ => .line ends (.node ?_)
    simp_all [Form.map]

theorem valueStmt_restores {word : TokenKind} {newline : Token} {value : Node}
    {form : Node → Form Node} (ends : newline.kind = .newline)
    (same : ∀ value', value'.bare = value.bare →
      (form value').map Node.bare = (form value).map Node.bare) :
    Restores rounds Node.bare [.part .expression value, .word newline] more
      (valueStmt inner start word form) ⟨i, span, form value⟩ := by
  refine expression_restores restores (.word ends) (by decide) ?_
  intro value' sameValue
  exact .spanFrom fun _ => .line ends (.node (same value' sameValue))

omit restores in
theorem jumpStmt_restores {newline : Token} {word : TokenKind} {jump : Jump}
    (ends : newline.kind = .newline) :
    Restores rounds Node.bare [.word newline] more (jumpStmt start word jump)
      ⟨i, span, .jumpStmt jump⟩ :=
  .line ends (.node rfl)

/-- An else branch, or none where no else follows. -/
theorem otherwise_restores {otherwise : Option Node} (apart : firstKind more ∉ statementMarks) :
    Restores rounds (Option.map Node.bare) (parts .otherwise otherwise.toList) more
      (optional .kwElse (elseBranch inner .effect .declaration)) otherwise := by
  cases otherwise with
  | none => exact .unmarked (List.ne_of_not_mem_cons apart)
  | some n =>
    refine .phraseAs some (by decide) fun i span form items layout => ?_
    cases layout with
    | @elseBranch word body block kind indented =>
      refine .marked kind ?_
      refine .get fun _ _ _ _ => .nextKind (.lastBlock indented) ?_
      rw [if_neg (by decide)]
      refine .last (block_restores restores indented _) ?_
      intro body' sameBody
      refine .spanned ?_
      simp_all [Form.map]
    | @elseIf word id span condition body otherwise kind =>
      refine .marked kind ?_
      refine .get fun _ _ _ _ => .nextKind .conditional ?_
      rw [if_pos rfl]
      refine .last (restores.statement _ more apart) ?_
      intro nested' sameNested
      rw [pure_bind]
      refine .spanned ?_
      simp_all [Form.map]

theorem conditional_restores {condition : Node} {body : List Node} {otherwise : Option Node}
    (indented : Block .declaration body items) (apart : firstKind more ∉ statementMarks) :
    Restores rounds Node.bare
      (.part .expression condition :: (items ++ parts .otherwise otherwise.toList)) more
      (conditional inner .effect .declaration start)
      ⟨i, span, .conditional .effect condition body otherwise⟩ := by
  refine expression_restores restores (.block indented) (by decide) ?_
  intro condition' sameCondition
  refine .andThen (fun _ => block_restores restores indented _) ?_
  intro body' sameBody
  refine .last (otherwise_restores restores apart) ?_
  intro otherwise' sameOtherwise
  refine .spanned ?_
  simp_all [Form.map]

omit restores in
theorem expressionStmt_restores {value : Node} {newline : Token}
    (first : ∀ more, firstKind more ∈ expressionEnds → Restores rounds Node.bare
      [.part .expression value] more (expressionWith inner .assignment) value)
    (ends : newline.kind = .newline) :
    Restores rounds Node.bare [.part .expression value, .word newline] more
      (expressionStmt inner) ⟨i, span, .expressionStmt value⟩ := by
  have apart : ∀ kind ∈ [TokenKind.newline], kind ∈ expressionEnds := by decide
  change Restores rounds _ ([.part .expression value] ++ [.word newline]) more _ _
  refine .bind (.word ends) (fun rest next => first rest (apart _ next)) ?_
  intro value' sameValue
  refine .line ends (.node ?_)
  simp_all [Form.map]

/-- A statement is known by its first word; the reader for expressions is the one for those that are
    statements themselves. -/
theorem declarationWith_restores {n : Node} (apart : firstKind more ∉ statementMarks)
    (first : ∀ e more, firstKind more ∈ expressionEnds → Restores (rounds + 1) Node.bare
      [.part .expression e] more (expressionWith inner .assignment) e) :
    Restores (rounds + 1) Node.bare [.part .declaration n] more (declarationWith inner) n := by
  refine .phrase (by decide) fun i span form items layout => ?_
  cases layout with
  | expressionStmt ends =>
    intro ts c written here enough
    obtain ⟨t, us, rfl, starts⟩ := written.starts _ _ _ rfl
    rw [declarationWith_of_operandStarts here starts]
    exact expressionStmt_restores (first _) ends _ c written here enough
  | classDecl kind named arguments extended indented =>
    refine .nextKind (.word kind) (.advanced ?_)
    exact classDecl_restores restores named arguments extended indented apart
  | signature kind named arguments opens content annotated ends =>
    refine .nextKind (.word kind) (.advanced ?_)
    exact functionDecl_restores_none named arguments opens content annotated ends apart
  | functionDecl kind named arguments opens content annotated indented =>
    refine .nextKind (.word kind) (.advanced ?_)
    exact functionDecl_restores_some restores named arguments opens content annotated indented
  | variableDecl kind named annotated given ends =>
    refine .nextKind (.word kind) (.advanced ?_)
    exact variableDecl_restores restores named annotated given ends
  | importDecl kind named path renamed listed either ends =>
    refine .nextKind (.word kind) (.advanced ?_)
    exact importDecl_restores named path renamed listed either ends
  | conditional kind indented otherwise =>
    refine .nextKind (.word kind) (.advanced ?_)
    exact conditional_restores restores indented apart
  | forEach kind named annotated runs indented =>
    refine .nextKind (.word kind) (.advanced ?_)
    exact forEach_restores restores named annotated runs indented
  | whileLoop kind indented =>
    refine .nextKind (.word kind) (.advanced ?_)
    exact whileLoop_restores restores indented
  | repeatTimes kind counts indented =>
    refine .nextKind (.word kind) (.advanced ?_)
    exact repeatTimes_restores restores counts indented
  | switch kind indented =>
    refine .nextKind (.word kind) (.advanced ?_)
    exact switch_restores restores indented
  | tryCatch kind indented =>
    refine .nextKind (.word kind) (.advanced ?_)
    exact tryCatch_restores restores indented
  | returnStmt kind value ends =>
    refine .nextKind (.word kind) ?_
    exact returnStmt_restores restores kind ends
  | throwStmt kind ends =>
    refine .nextKind (.word kind) (.advanced ?_)
    refine valueStmt_restores restores ends fun value' sameValue => ?_
    simp_all [Form.map]
  | yieldStmt kind ends =>
    refine .nextKind (.word kind) (.advanced ?_)
    refine valueStmt_restores restores ends fun value' sameValue => ?_
    simp_all [Form.map]
  | jumpStmt jump kind ends =>
    cases jump <;>
      exact .nextKind (.word kind) (.advanced (jumpStmt_restores ends))

end Statements

/-! ## Whole programs -/

section Programs

variable {more : List Token}

/-- An expression on its own is restored in front of what ends it. -/
theorem expressionWith_restores {e : Node} (loop : List Token)
    (next : firstKind more ∈ expressionEnds) :
    Restores (loop.length + 1) Node.bare [.part .expression e] more
      (expressionWith (constructWithin loop) .assignment) e := by
  intro ts c written here enough
  obtain ⟨us, none, rfl, first, nothing⟩ := written.part_inv
  cases nothing
  rw [List.append_nil] at here
  cases more with
  | nil => exact absurd next (by decide)
  | cons t more =>
    have weak : ∀ kind ∈ expressionEnds, .ofOperator kind < Precedence.assignment := by decide
    cases first with
    | phrase layout => cases layout
    | expression spelled grouped =>
      have read : ∃ e' c', e'.bare = e.bare ∧ c'.rest = t :: more ∧
          constructWithin (t :: loop) (.expression .assignment) c = .ok e' c' :=
        (spelled.readsAs grouped).construct here enough spelled.assignment_le_level (weak _ next)
      obtain ⟨e', c', same, left, run⟩ := read
      exact ⟨e', c', run, same, left⟩

/-- Nothing is written with no tokens. -/
theorem Restores.of_zero {phrase : Phrase} {α β : Type} {f : α → β} {n : Node} {p : Parser α}
    {a : α} : Restores 0 f [.part phrase n] more p a := by
  intro ts c written here enough
  obtain ⟨t, us, rfl, -⟩ := written.starts phrase n [] rfl
  rw [here] at enough
  exact absurd enough (Nat.not_succ_le_zero _)

/-- A reader that goes so deep restores what is written with as many tokens. -/
theorem constructWithin_restores (loop : List Token) :
    RestoresGrammar loop.length (constructWithin loop) := by
  induction loop with
  | nil => exact ⟨fun _ _ _ => .of_zero, fun _ _ _ => .of_zero⟩
  | cons round loop ih =>
    exact ⟨fun e more next => expressionWith_restores loop next,
      fun n more apart => declarationWith_restores ih apart fun e more next =>
        expressionWith_restores loop next⟩

theorem construct_restores {n : Node} (apart : firstKind more ∉ statementMarks) {ts : List Token}
    {c : Cursor} (written : Writes .declaration n ts) (here : c.rest = ts ++ more) :
    ∃ n' c', construct .declaration c = .ok n' c' ∧ n'.bare = n.bare ∧ c'.rest = more :=
  (constructWithin_restores c.rest).statement n more apart ts c (.single written) here
    (Nat.le_refl _)

end Programs

end Parser

/-- Statements are read back one after another. -/
theorem topLevel_restores (loop : List Token) {body : List Node} {ts : List Token} {c : Cursor}
    (written : WritesAll (parts .declaration body) ts) (here : c.rest = ts)
    (enough : ts.length ≤ loop.length) : ∃ body' id, topLevel loop c = ⟨body', [], id⟩ ∧
      body'.map Node.bare = body.map Node.bare := by
  induction body generalizing ts c loop with
  | nil =>
    cases written
    exact ⟨[], c.nextId, topLevel_ended loop here, rfl⟩
  | cons n body ih =>
    obtain ⟨us, vs, rfl, first, others⟩ := written.part_inv
    obtain ⟨t, us', rfl, starts⟩ := first.starts
    have noLayout : ∀ kind ∈ Phrase.declaration.starts,
        ¬(kind = .newline ∨ kind = .outdent) := by decide
    have apart : firstKind vs ∉ Parser.statementMarks := by
      cases body with
      | nil =>
        cases others
        decide
      | cons m body =>
        have inside : ∀ kind ∈ Phrase.declaration.starts, kind ∉ Parser.statementMarks := by decide
        obtain ⟨u, vs, rfl, starts⟩ := others.starts .declaration m _ rfl
        exact inside _ starts
    obtain ⟨n', c', run, same, left⟩ := Parser.construct_restores apart first here
    cases loop with
    | nil => exact absurd enough (Nat.not_succ_le_zero _)
    | cons round loop =>
      have fewer : vs.length ≤ loop.length := by
        simp only [List.cons_append, List.length_cons, List.length_append] at enough
        omega
      obtain ⟨body', id, reads, sames⟩ := ih loop others left fewer
      refine ⟨n' :: body', id, ?_, by rw [List.map_cons, same, sames, List.map_cons]⟩
      rw [topLevel_construct here (noLayout _ starts), run]
      simp only [reads]

/-- Every program is read back without a fault from the tokens that it is written with. -/
theorem parse_of_writes {body : List Node} {ts : List Token} {eof : Token}
    (written : WritesAll (parts .declaration body) ts) (ends : eof.kind = .eof) :
    (parse (ts ++ [eof])).diagnostics = [] ∧
      (parse (ts ++ [eof])).program.bare = (⟨0, default, .program body⟩ : Node).bare := by
  obtain ⟨body', id, reads, same⟩ := topLevel_restores ts (c := ⟨ts, eof, eof, 0⟩) written rfl
    (Nat.le_refl _)
  rw [parse_eq, Cursor.ofTokens_append written.no_eof ends]
  dsimp only
  rw [reads]
  refine ⟨rfl, ?_⟩
  rw [Node.bare_mk, Node.bare_mk, Form.map, Form.map, same]

end TekLang
