import TekLang.Proofs.Grammar.FollowsExpression

/-!
# Reading follows the grammar

The same for declarations and statements, and from both, by induction on the rounds, for the
whole language: whatever is read successfully consists of items as `Production` lists them.
-/

namespace TekLang.Parser

variable {inner : Construct → Parser Node}

theorem rename_follows : Follows rename (Optionally .kwAs (IsWord .identifier)) :=
  optional_follows (by decide) (expectName_follows _)

theorem importedName_follows : Follows importedName (IsPart .importedName) := by
  apply Completes.follows
  refine .bind (expectName_follows _) ?_
  rintro name _ ⟨named⟩
  refine .bind rename_follows ?_
  intro newName items renamed
  exact .spanned fun _ _ => .importedName named renamed

theorem variableDecl_completes (grammar : FollowsGrammar inner) {word : Token}
    (kind : word.kind = .kwVar) :
    Completes [.word word] .declaration (variableDecl inner word.span) := by
  refine .bind (typedName_follows _) ?_
  rintro named items ⟨typed, rfl, isName, annotated⟩
  refine .bind (optional_follows (by decide) grammar.expression) ?_
  intro value values given
  exact .statement fun _ _ => .variableDecl kind isName annotated given

theorem functionDecl_completes (grammar : FollowsGrammar inner) {word : Token}
    (kind : word.kind = .kwFunction) :
    Completes [.word word] .declaration (functionDecl inner word.span) := by
  refine .bind (expectName_follows _) ?_
  rintro name _ ⟨named⟩
  refine .bind genericParameters_follows ?_
  intro generics angles arguments
  refine .bind (expect_follows (by decide) _) ?_
  rintro left _ ⟨opens⟩
  refine .bind parameters_follows ?_
  intro params items content
  refine .bind (optional_follows (by decide) typeRef_follows) ?_
  intro result results annotated
  refine .get ?_
  intro c
  refine .ite ?_ ?_
  · intro _
    refine .bind (grammar.block _) ?_
    intro body block indented
    refine .spanned ?_
    intro _ _
    simpa only [List.append_assoc, List.nil_append, List.cons_append] using
      .functionDecl (some body) kind named arguments opens content annotated indented
  · intro _
    refine .statement ?_
    intro _ _
    rw [← List.append_nil results]
    simpa only [List.append_assoc, List.nil_append, List.cons_append] using
      .functionDecl none kind named arguments opens content annotated rfl

theorem constructor_completes (grammar : FollowsGrammar inner) {word : Token}
    (kind : word.kind = .kwNew) :
    Completes [.word word] .member (constructor inner word.span) := by
  refine .bind (expect_follows (by decide) _) ?_
  rintro left _ ⟨opens⟩
  refine .bind parameters_follows ?_
  intro params items content
  refine .get ?_
  intro c
  refine .ite ?_ ?_
  · intro _
    refine .bind (grammar.block _) ?_
    intro body block indented
    refine .spanned ?_
    intro _ _
    exact .constructor kind opens content (.block indented)
  · intro _
    refine .bind (endStatement_follows _) ?_
    intro _ block ends
    rw [pure_bind]
    exact .spanned fun _ _ => .constructor kind opens content (.none ends)

theorem classMember_follows (grammar : FollowsGrammar inner) :
    Follows (classMember inner) (IsPart .member) := by
  intro c n c' run
  refine ⟨_, .mk n, ?_⟩
  unfold classMember at run
  rw [get_bind, TokenStream.startsConstructor_cursor] at run
  split at run
  · rename_i starts
    obtain ⟨new, c₁, taken, run₁⟩ := bind_eq_ok.1 run
    have next : c.nextKind = .kwNew := by
      unfold Cursor.nextKind
      unfold startsConstructor at starts
      split at starts
      · rename_i ahead
        rw [ahead]
        exact (of_decide_eq_true starts).1
      · cases starts
    obtain ⟨kind, first⟩ := advance_reads taken next (by decide)
    exact constructor_completes grammar kind _ _ _ _ first run₁
  · rw [bind_of_ok (upcoming_apply c)] at run
    obtain ⟨isStatic, c₁, taken, run₁⟩ := bind_eq_ok.1 run
    obtain ⟨value, c₂, found, done⟩ := bind_eq_ok.1 run₁
    cases done
    have declared := grammar.declaration.reads found
    rcases accept_ok taken (by decide) with ⟨rfl, word, kind, first⟩ | ⟨rfl, rfl, -⟩
    · exact (first.append declared).node (.staticMember kind)
    · exact declared.node .instanceMember

theorem classDecl_completes (grammar : FollowsGrammar inner) {word : Token}
    (kind : word.kind = .kwClass) :
    Completes [.word word] .declaration (classDecl inner word.span) := by
  have extended : Follows (optionalList .kwExtends do
      let first ← typeRef
      let others ← eachAfter .comma typeRef
      return first :: others) (ListAfter .kwExtends Bases) := by
    apply optionalList_follows (by decide)
    intro c ns c' run
    obtain ⟨first, c₁, found, run₁⟩ := bind_eq_ok.1 run
    obtain ⟨others, c₂, listed, done⟩ := bind_eq_ok.1 run₁
    cases done
    obtain ⟨items, more, reads⟩ :=
      eachAfter_follows (by decide) typeRef_follows _ _ _ listed
    exact ⟨_, .mk more, (typeRef_follows.reads found).append reads⟩
  refine .bind (expectName_follows _) ?_
  rintro name _ ⟨named⟩
  refine .bind genericParameters_follows ?_
  intro generics angles arguments
  refine .bind extended ?_
  intro bases types derives
  refine .get ?_
  intro c
  refine .ite ?_ ?_
  · intro _
    refine .indented (unlessAtEnd_follows (classMember_follows grammar) _) ?_
    intro members block indented
    refine .spanned ?_
    intro _ _
    simpa only [List.append_assoc, List.nil_append, List.cons_append] using
      .classDecl kind named arguments derives (.block indented)
  · intro _
    refine .bind (endStatement_follows _) ?_
    intro _ block ends
    rw [pure_bind]
    refine .spanned ?_
    intro _ _
    simpa only [List.append_assoc, List.nil_append, List.cons_append] using
      .classDecl kind named arguments derives (.none ends)

theorem importDecl_completes {word : Token} (kind : word.kind = .kwImport) :
    Completes [.word word] .declaration (importDecl word.span) := by
  refine .bind (expectName_follows _) ?_
  rintro name _ ⟨named⟩
  refine .bind (eachAfter_follows (by decide) (expectName_follows _)) ?_
  intro others dots path
  refine .bind rename_follows ?_
  intro newName renames renamed
  split
  · rename_i unnamed
    refine .bind (optionalList_follows (by decide)
      (commaSequence_follows (by decide) importedName_follows _)) ?_
    intro exposed items listed
    refine .statement ?_
    intro _ _
    simpa only [List.append_assoc, List.nil_append, List.cons_append] using
      .importDecl kind named path renamed listed (.inl (Option.isNone_iff_eq_none.1 unnamed))
  · rw [pure_bind]
    refine .statement ?_
    intro _ _
    rw [← List.append_nil renames]
    simpa only [List.append_assoc, List.nil_append, List.cons_append] using
      .importDecl kind named path renamed .none (.inr rfl)

theorem forEach_completes (grammar : FollowsGrammar inner) {word : Token}
    (kind : word.kind = .kwFor) :
    Completes [.word word] .declaration (forEach inner word.span) := by
  refine .bind (typedName_follows _) ?_
  rintro named items ⟨typed, rfl, isName, annotated⟩
  refine .bind (expect_follows (by decide) _) ?_
  rintro within _ ⟨runs⟩
  refine .bind grammar.expression ?_
  rintro iterable _ ⟨_⟩
  refine .bind (grammar.block _) ?_
  intro body block indented
  refine .spanned ?_
  intro _ _
  simpa only [List.append_assoc, List.nil_append, List.cons_append] using
    .forEach kind isName annotated runs indented

theorem whileLoop_completes (grammar : FollowsGrammar inner) {word : Token}
    (kind : word.kind = .kwWhile) :
    Completes [.word word] .declaration (whileLoop inner word.span) := by
  refine .bind grammar.expression ?_
  rintro condition _ ⟨_⟩
  refine .bind (grammar.block _) ?_
  intro body block indented
  exact .spanned fun _ _ => .whileLoop kind indented

theorem repeatTimes_completes (grammar : FollowsGrammar inner) {word : Token}
    (kind : word.kind = .kwRepeat) :
    Completes [.word word] .declaration (repeatTimes inner word.span) := by
  refine .bind grammar.expression ?_
  rintro amount _ ⟨_⟩
  refine .bind (expect_follows (by decide) _) ?_
  rintro times _ ⟨counts⟩
  refine .bind (grammar.block _) ?_
  intro body block indented
  exact .spanned fun _ _ => .repeatTimes kind counts indented

theorem switchCase_follows (grammar : FollowsGrammar inner) :
    Follows (switchCase inner) (IsPart .switchCase) := by
  apply Completes.follows
  refine .bind (expect_follows (by decide) _) ?_
  rintro word _ ⟨kind⟩
  refine .bind grammar.expression ?_
  rintro condition _ ⟨_⟩
  refine .bind (eachAfter_follows (by decide) grammar.expression) ?_
  intro others commas more
  refine .bind (grammar.block _) ?_
  intro body block indented
  refine .spanned ?_
  intro _ _
  simpa only [List.append_assoc, List.nil_append, List.cons_append] using
    .switchCase kind more indented

theorem switch_completes (grammar : FollowsGrammar inner) {word : Token}
    (kind : word.kind = .kwSwitch) :
    Completes [.word word] .declaration (switch inner word.span) := by
  refine .bind grammar.expression ?_
  rintro subject _ ⟨_⟩
  refine .indented (switchCase_follows grammar) ?_
  intro cases block indented
  exact .spanned fun _ _ => .switch kind indented

theorem catchClause_follows (grammar : FollowsGrammar inner) :
    Follows (catchClause inner) (IsPart .handler) := by
  apply Completes.follows
  refine .bind (expect_follows (by decide) _) ?_
  rintro word _ ⟨kind⟩
  refine .bind (typedName_follows _) ?_
  rintro named items ⟨typed, rfl, isName, annotated⟩
  refine .bind (grammar.block _) ?_
  intro body block indented
  refine .spanned ?_
  intro _ _
  exact .catchClause kind isName annotated indented

theorem tryCatch_completes (grammar : FollowsGrammar inner) {word : Token}
    (kind : word.kind = .kwTry) :
    Completes [.word word] .declaration (tryCatch inner word.span) := by
  refine .bind (grammar.block _) ?_
  intro body block indented
  refine .bind (catchClause_follows grammar) ?_
  rintro handler _ ⟨_⟩
  refine .spanned ?_
  intro _ _
  exact .tryCatch kind indented

theorem returnStmt_completes (grammar : FollowsGrammar inner) {word : Token}
    (kind : word.kind = .kwReturn) :
    Completes [.word word] .declaration (returnStmt inner word.span) := by
  refine .get ?_
  intro c
  refine .ite ?_ ?_
  · intro _
    rw [pure_bind]
    exact .statement fun _ _ => .returnStmt kind none
  · intro _
    refine .bind grammar.expression ?_
    rintro value _ ⟨_⟩
    rw [pure_bind]
    exact .statement fun _ _ => .returnStmt kind (some value)

theorem valueStmt_completes (grammar : FollowsGrammar inner) {word : Token} {kind : TokenKind}
    {form : Node → Form Node}
    (made : ∀ value first last, Production .declaration [.word word, .part .expression value] first
      last (word.span.through last.span) (form value)) :
    Completes [.word word] .declaration (valueStmt inner word.span kind form) := by
  refine .bind grammar.expression ?_
  rintro value _ ⟨_⟩
  exact .statement (made value)

theorem jumpStmt_completes {word : Token} (jump : Jump)
    (kind : word.kind = .kwBreak ∨ word.kind = .kwContinue ∨ word.kind = .kwFallthrough)
    (announced : TokenKind) :
    Completes [.word word] .declaration (jumpStmt word.span announced jump) :=
  .closed fun _ _ => .jumpStmt jump kind

theorem expressionStmt_follows (grammar : FollowsGrammar inner) :
    Follows (expressionStmt inner) (IsPart .declaration) := by
  apply Completes.follows
  refine .bind (expressionWith_follows grammar (by decide)) ?_
  rintro value _ ⟨_⟩
  exact .closed fun _ _ => .expressionStmt

/-- In front of a token of the kind `kind` the parser reads a declaration. -/
def Begins (kind : TokenKind) (p : Parser Node) : Prop :=
  ∀ c n c', c.nextKind = kind → p c = .ok n c' → Reads [.part .declaration n] c c'

/-- A construct that its first word announces. -/
theorem begins_of_completes {kind : TokenKind} (construct : Span → Parser Node)
    (word : kind ≠ .eof)
    (completes : ∀ t : Token, t.kind = kind → Completes [.word t] .declaration (construct t.span)) :
    Begins kind (do construct (← advance).span) := by
  intro c n c' next run
  obtain ⟨t, c₁, taken, run₁⟩ := bind_eq_ok.1 run
  obtain ⟨same, found⟩ := advance_reads taken next word
  exact completes t same _ _ _ _ found run₁

theorem follows_of_begins {f : TokenKind → Parser Node} (chosen : ∀ kind, Begins kind (f kind)) :
    Follows (do f (← nextKind)) (IsPart .declaration) :=
  fun c n c' run => ⟨_, .mk n, chosen c.nextKind c n c' rfl run⟩

theorem declarationWith_follows (grammar : FollowsGrammar inner) :
    Follows (declarationWith inner) (IsPart .declaration) := by
  unfold declarationWith
  apply follows_of_begins
  intro kind
  split
  case h_1 => exact begins_of_completes _ (by decide) fun _ => classDecl_completes grammar
  case h_2 => exact begins_of_completes _ (by decide) fun _ => functionDecl_completes grammar
  case h_3 => exact begins_of_completes _ (by decide) fun _ => variableDecl_completes grammar
  case h_4 => exact begins_of_completes _ (by decide) fun _ => importDecl_completes
  case h_5 =>
    exact begins_of_completes _ (by decide) fun _ =>
      conditional_completes grammar .effect
  case h_6 => exact begins_of_completes _ (by decide) fun _ => forEach_completes grammar
  case h_7 => exact begins_of_completes _ (by decide) fun _ => whileLoop_completes grammar
  case h_8 => exact begins_of_completes _ (by decide) fun _ => repeatTimes_completes grammar
  case h_9 => exact begins_of_completes _ (by decide) fun _ => switch_completes grammar
  case h_10 => exact begins_of_completes _ (by decide) fun _ => tryCatch_completes grammar
  case h_11 => exact begins_of_completes _ (by decide) fun _ => returnStmt_completes grammar
  case h_12 =>
    exact begins_of_completes (valueStmt inner · .kwThrow .throwStmt) (by decide)
      fun _ kind => valueStmt_completes grammar fun _ _ _ => .throwStmt kind
  case h_13 =>
    exact begins_of_completes (valueStmt inner · .kwYield .yieldStmt) (by decide)
      fun _ kind => valueStmt_completes grammar fun _ _ _ => .yieldStmt kind
  case h_14 =>
    exact begins_of_completes (jumpStmt · .kwBreak .breakLoop) (by decide)
      fun _ kind => jumpStmt_completes _ (.inl kind) _
  case h_15 =>
    exact begins_of_completes (jumpStmt · .kwContinue .continueLoop) (by decide)
      fun _ kind => jumpStmt_completes _ (.inr (.inl kind)) _
  case h_16 =>
    exact begins_of_completes (jumpStmt · .kwFallthrough .fallthrough) (by decide)
      fun _ kind => jumpStmt_completes _ (.inr (.inr kind)) _
  case h_17 => exact fun c n c' _ run => (expressionStmt_follows grammar).reads run

/-- In front of an if a statement is that if. -/
theorem isIf_of_declarationWith {c c' : Cursor} {n : Node} (next : c.nextKind = .kwIf)
    (run : declarationWith inner c = .ok n c') : n.form.IsIf .effect := by
  unfold declarationWith at run
  rw [bind_of_ok (nextKind_apply c), next] at run
  obtain ⟨word, c₁, -, run₁⟩ := bind_eq_ok.1 run
  exact isIf_of_conditional run₁

/-- Whatever is read successfully consists of items as the grammar lists them. -/
theorem constructWithin_follows (loop : List Token) : FollowsGrammar (constructWithin loop) := by
  induction loop with
  | nil => exact ⟨fun k _ => Completes.failed.follows, fun _ _ _ _ _ run => absurd run not_fail_ok⟩
  | cons round loop ih =>
    constructor
    · intro k askable
      cases k with
      | declaration => exact declarationWith_follows ih
      | expression level => exact expressionWith_follows ih askable
    · intro use c n c' next run
      cases use with
      | value => exact isIf_of_expressionWith next run
      | effect => exact isIf_of_declarationWith next run

theorem construct_follows : FollowsGrammar construct where
  reads k askable c _ _ run := (constructWithin_follows c.rest).reads k askable _ _ _ run
  chained use c n c' next run := (constructWithin_follows c.rest).chained use c n c' next run

end TekLang.Parser
