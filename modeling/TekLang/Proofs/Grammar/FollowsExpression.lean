import TekLang.Proofs.Grammar.Follows

/-!
# Types and expressions follow the grammar

Each reader of a type or of an expression takes the items that `Production` lists for it, as long as
the constructs within are read that way.
-/

namespace TekLang.Parser

theorem typeWith_follows {argument : Parser Node} (follows : Follows argument (IsPart .type)) :
    Follows (typeWith argument) (IsPart .type) := by
  apply Completes.follows
  refine .bind (expectAs_follows (by decide) _ _) ?_
  rintro first _ ⟨named⟩
  refine .bind (eachAfter_follows (by decide) (expectName_follows _)) ?_
  intro others dots path
  refine .bind (optionalList_follows (by decide) (commaSequence_follows (by decide) follows _)) ?_
  intro generics args arguments
  refine .bind (eachAfter_follows (by decide) (expect_follows (by decide) _)) ?_
  intro pairs brackets dimensions
  refine .spanned ?_
  intro _ _
  simpa only [List.append_assoc, List.nil_append, List.cons_append] using
    Production.typeRef named path arguments dimensions

theorem typeWithin_follows (loop : List Token) : Follows (typeWithin loop) (IsPart .type) := by
  induction loop with
  | nil => exact Completes.failed.follows
  | cons round loop ih => exact typeWith_follows ih

theorem typeRef_follows : Follows typeRef (IsPart .type) :=
  fun c _ _ run => typeWithin_follows c.rest _ _ _ run

theorem genericParameter_follows : Follows genericParameter (IsPart .generic) := by
  apply Completes.follows
  refine .bind (expectName_follows _) ?_
  rintro name _ ⟨named⟩
  refine .bind (optional_follows (by decide) typeRef_follows) ?_
  intro bound items bounded
  exact .spanned fun _ _ => .generic named bounded

theorem genericParameters_follows : Follows genericParameters (InAngles .generic) :=
  optionalList_follows (by decide) (commaSequence_follows (by decide) genericParameter_follows _)

theorem parameter_follows : Follows parameter (IsPart .parameter) := by
  apply Completes.follows
  refine .bind (expectAs_follows (by decide) _ _) ?_
  rintro name _ ⟨named⟩
  refine .bind (expect_follows (by decide) _) ?_
  rintro colon _ ⟨announces⟩
  refine .bind typeRef_follows ?_
  rintro type _ ⟨_⟩
  exact .spanned fun _ _ => .parameter named announces

theorem parameters_follows : Follows parameters (Listed .parameter .rightParen) :=
  commaSequence_follows (by decide) parameter_follows _

theorem typedName_follows (after : TokenKind) :
    Follows (typedName after) fun named items => ∃ typed, items = .word named.1 :: typed ∧
      named.1.kind = .identifier ∧ Annotation named.2 typed := by
  intro c named c' run
  unfold typedName at run
  obtain ⟨name, c₁, found, run₁⟩ := bind_eq_ok.1 run
  obtain ⟨type, c₂, given, done⟩ := bind_eq_ok.1 run₁
  cases done
  obtain ⟨_, ⟨isName⟩, first⟩ := expectName_follows _ _ _ _ found
  obtain ⟨items, annotated, second⟩ := optional_follows (by decide) typeRef_follows _ _ _ given
  exact ⟨_, ⟨items, rfl, isName, annotated⟩, first.append second⟩

/-- What is asked for within a construct: a level that only operators reach. -/
def IsAskable : Construct → Prop
  | .declaration => True
  | .expression level => .assignment ≤ level

/-- What is asked for if another if follows the else of an if. -/
def chained : Use → Construct
  | .value => .expression .primary
  | .effect => .declaration

theorem isAskable_chained (use : Use) : IsAskable (chained use) := by
  cases use with
  | value => exact (by decide : Precedence.assignment ≤ .primary)
  | effect => trivial

theorem phrase_chained (use : Use) : (chained use).phrase = use.phrase := by
  cases use <;> rfl

/-- Whatever `inner` is asked for it reads by the grammar. -/
structure FollowsGrammar (inner : Construct → Parser Node) : Prop where
  reads : ∀ k, IsAskable k → Follows (inner k) (IsPart k.phrase)
  /-- Behind an else an if is an if of the same use. -/
  chained : ∀ use c n c', c.nextKind = .kwIf → inner (Parser.chained use) c = .ok n c' →
    n.form.IsIf use

variable {inner : Construct → Parser Node}

namespace FollowsGrammar

theorem declaration (grammar : FollowsGrammar inner) :
    Follows (inner .declaration) (IsPart .declaration) := grammar.reads .declaration trivial

theorem expressionOf (grammar : FollowsGrammar inner) {level : Precedence}
    (askable : .assignment ≤ level) : Follows (inner (.expression level)) (IsPart .expression) :=
  grammar.reads (.expression level) askable

theorem expression (grammar : FollowsGrammar inner) :
    Follows (Parser.expression inner) (IsPart .expression) := grammar.expressionOf (by decide)

theorem arguments (grammar : FollowsGrammar inner) {close : TokenKind} (word : close ≠ .eof) :
    Follows (Parser.arguments inner close) (Listed .expression close) :=
  commaSequence_follows word (unlessAtEnd_follows grammar.expression _) _

theorem block (grammar : FollowsGrammar inner) (landmark : Landmark) :
    Follows (Parser.block (inner .declaration) landmark) (Block .declaration) :=
  block_follows grammar.declaration landmark

end FollowsGrammar

/-- The else branch begins with its keyword, which is read before the branch is. -/
theorem elseBranch_completes (grammar : FollowsGrammar inner) {word : Token} (use : Use)
    (kind : word.kind = .kwElse) :
    Completes [.word word] .otherwise (elseBranch inner use (chained use)) := by
  intro c₀ c n c' reads run
  have last : c.last = word := by
    cases reads with
    | word ahead more =>
      cases more
      rfl
  unfold elseBranch at run
  rw [get_bind, TokenStream.last_cursor, last, bind_of_ok (nextKind_apply c)] at run
  split at run
  · next isIf =>
    obtain ⟨nested, c₁, found, done⟩ := bind_eq_ok.1 run
    cases done
    have same := grammar.chained use c nested c₁ isIf found
    obtain ⟨_, ⟨_⟩, branch⟩ := grammar.reads _ (isAskable_chained use) _ _ _ found
    rw [phrase_chained] at branch
    exact (reads.append branch).node (.elseIf use kind same)
  · obtain ⟨body, c₁, found, done⟩ := bind_eq_ok.1 run
    cases done
    obtain ⟨block, indented, branch⟩ := grammar.block _ _ _ _ found
    exact (reads.append branch).node (.elseBranch use kind indented)

theorem isElse_of_elseBranch {use : Use} {construct : Construct} {c c' : Cursor} {n : Node}
    (run : elseBranch inner use construct c = .ok n c') : n.form.IsElse use := by
  obtain ⟨before, c₁, -, run₁⟩ := bind_eq_ok.1 run
  obtain ⟨kind, c₂, -, run₂⟩ := bind_eq_ok.1 run₁
  split at run₂
  all_goals
    obtain ⟨body, c₃, -, done⟩ := bind_eq_ok.1 run₂
    cases done
    exact ⟨_, rfl⟩

theorem otherwise_follows (grammar : FollowsGrammar inner) (use : Use) :
    Follows (optional .kwElse (elseBranch inner use (chained use))) fun otherwise items =>
      items = parts .otherwise otherwise.toList ∧
        ∀ branch ∈ otherwise.toList, branch.form.IsElse use := by
  intro c otherwise c' run
  unfold Parser.optional at run
  obtain ⟨b, c₁, taken, run₁⟩ := bind_eq_ok.1 run
  rcases accept_ok taken (by decide) with ⟨rfl, word, kind, reads⟩ | ⟨rfl, rfl, -⟩
  · obtain ⟨n, c₂, found, done⟩ := bind_eq_ok.1 run₁
    cases done
    refine ⟨_, ⟨rfl, ?_⟩, elseBranch_completes grammar use kind _ _ _ _ reads found⟩
    intro branch member
    obtain rfl := List.mem_singleton.1 member
    exact isElse_of_elseBranch found
  · cases run₁
    exact ⟨[], ⟨rfl, nofun⟩, .nil _⟩

theorem conditional_completes (grammar : FollowsGrammar inner) {word : Token} (use : Use)
    (kind : word.kind = .kwIf) :
    Completes [.word word] use.phrase (conditional inner use (chained use) word.span) := by
  refine .bind grammar.expression ?_
  rintro condition _ ⟨_⟩
  refine .bind (grammar.block _) ?_
  intro body block indented
  refine .bind (otherwise_follows grammar use) ?_
  rintro otherwise _ ⟨rfl, matched⟩
  refine .spanned ?_
  intro _ _
  rw [List.append_assoc]
  exact .conditional use kind indented otherwise matched

theorem isIf_of_conditional {use : Use} {construct : Construct} {start : Span} {c c' : Cursor}
    {n : Node} (run : conditional inner use construct start c = .ok n c') : n.form.IsIf use := by
  obtain ⟨condition, c₁, -, run₁⟩ := bind_eq_ok.1 run
  obtain ⟨body, c₂, -, run₂⟩ := bind_eq_ok.1 run₁
  obtain ⟨otherwise, c₃, -, done⟩ := bind_eq_ok.1 run₂
  cases done
  exact ⟨condition, body, otherwise, rfl⟩

theorem wrapped_completes (grammar : FollowsGrammar inner) {left : Token}
    (opens : left.kind = .leftParen) :
    Completes [.word left] .expression (wrapped inner left.span) := by
  refine .bind grammar.expression ?_
  rintro content _ ⟨_⟩
  refine .bind (expect_follows (by decide) _) ?_
  rintro right _ ⟨closes⟩
  exact .spanned fun _ _ => .wrapped opens closes

theorem array_completes (grammar : FollowsGrammar inner) {left : Token}
    (opens : left.kind = .leftBracket) :
    Completes [.word left] .expression (array inner left.span) := by
  refine .bind (grammar.arguments (by decide)) ?_
  intro elements items content
  exact .spanned fun _ _ => .array opens content

theorem unary_completes (grammar : FollowsGrammar inner) {operator : Token}
    (kind : operator.kind = .minus ∨ operator.kind = .kwNot) :
    Completes [.word operator] .expression (unary inner operator) := by
  refine .bind (grammar.expressionOf (by decide)) ?_
  rintro operand _ ⟨_⟩
  exact .node fun _ _ => .unary kind

theorem async_completes (grammar : FollowsGrammar inner) {word : Token}
    (kind : word.kind = .kwAsync) :
    Completes [.word word] .expression (async inner word.span) := by
  refine .bind (grammar.expressionOf (by decide)) ?_
  rintro operand _ ⟨_⟩
  exact .node fun _ _ => .async kind

theorem newObject_completes (grammar : FollowsGrammar inner) {word : Token}
    (kind : word.kind = .kwNew) :
    Completes [.word word] .expression (newObject inner word.span) := by
  refine .bind typeRef_follows ?_
  rintro type _ ⟨_⟩
  refine .bind (optionalList_follows (by decide) (grammar.arguments (by decide))) ?_
  intro args items content
  exact .spanned fun _ _ => .new kind content

theorem operand_completes (grammar : FollowsGrammar inner) (token : Token) :
    Completes [.word token] .expression (operand inner token) := by
  unfold operand
  split
  case h_1 kind => exact .node fun _ _ => .identifier kind
  case h_2 kind => exact .node fun _ _ => .literal .number kind
  case h_3 kind => exact .node fun _ _ => .literal .string kind
  case h_4 kind => exact .node fun _ _ => .literal .boolean kind
  case h_5 kind => exact .node fun _ _ => .this kind
  case h_6 kind => exact .node fun _ _ => .super kind
  case h_7 kind => exact wrapped_completes grammar kind
  case h_8 kind => exact array_completes grammar kind
  case h_9 kind => exact unary_completes grammar (.inl kind)
  case h_10 kind => exact unary_completes grammar (.inr kind)
  case h_11 kind => exact newObject_completes grammar kind
  case h_12 kind => exact async_completes grammar kind
  case h_13 kind => exact conditional_completes grammar .value kind
  case h_14 => exact .failedAt
  case h_15 => exact .failedAt

theorem binary_completes (grammar : FollowsGrammar inner) {left : Node} {operator : Token}
    (kind : operator.kind ∈ TokenKind.binaryOperators ∨ operator.kind = .less) :
    Completes [.part .expression left, .word operator] .expression
      (binary inner left operator) := by
  have askable : .assignment ≤ Precedence.ofRightOperand operator.kind := by
    rcases kind with kind | kind
    · generalize operator.kind = k at kind
      revert k
      decide
    · rw [kind]
      decide
  refine .bind (grammar.expressionOf askable) ?_
  rintro right _ ⟨_⟩
  exact .node fun _ _ => .binary kind

theorem call_completes (grammar : FollowsGrammar inner) {callee : Node} {left : Token}
    {generics : List Node} {angles : List Item} (arguments : InAngles .type generics angles)
    (opens : left.kind = .leftParen)
    (callable : generics = [] ∨ isGenericCallee callee.form = true) :
    Completes (.part .expression callee :: (angles ++ [.word left])) .expression
      (call inner callee generics) := by
  refine .bind (grammar.arguments (by decide)) ?_
  intro args items content
  refine .spanned ?_
  intro _ _
  rw [List.cons_append, List.append_assoc]
  exact .call arguments opens content callable

theorem lessThan_completes (grammar : FollowsGrammar inner) {left : Node} {operator : Token}
    (kind : operator.kind = .less) :
    Completes [.part .expression left, .word operator] .expression
      (lessThan inner left operator) := by
  refine .get ?_
  intro c
  refine .ite ?_ ?_
  · intro generic
    have callable := (Bool.and_eq_true_iff.1 generic).1
    refine .bind (commaSequence_follows (by decide) typeRef_follows _) ?_
    intro generics angles listed
    refine .bind (expect_follows (by decide) _) ?_
    rintro paren _ ⟨opens⟩
    exact call_completes grammar (.some kind listed) opens (.inr callable)
  · intro _
    exact binary_completes grammar (.inr kind)

theorem assignment_completes (grammar : FollowsGrammar inner) {target : Node} {sign : Token}
    (kind : sign.kind = .equal) :
    Completes [.part .expression target, .word sign] .expression
      (assignment inner target sign) := by
  unfold assignment
  split
  · intro c₀ c n c' reads run
    cases run
  · rename_i assignable
    have askable : .assignment ≤ Precedence.ofRightOperand sign.kind := by
      rw [kind]
      decide
    refine .bind (grammar.expressionOf askable) ?_
    rintro value _ ⟨_⟩
    exact .node fun _ _ => .assignment kind (by simpa using assignable)

theorem index_completes (grammar : FollowsGrammar inner) {object : Node} {left : Token}
    (opens : left.kind = .leftBracket) :
    Completes [.part .expression object, .word left] .expression (index inner object) := by
  refine .bind grammar.expression ?_
  rintro subscript _ ⟨_⟩
  refine .bind (expect_follows (by decide) _) ?_
  rintro right _ ⟨closes⟩
  exact .spanned fun _ _ => .index opens closes

theorem member_completes {object : Node} {dot : Token} (joins : dot.kind = .dot) :
    Completes [.part .expression object, .word dot] .expression (member object) := by
  intro c₀ c n c' reads run
  unfold member at run
  rw [bind_of_ok (nextKind_apply c)] at run
  split at run
  · rename_i next
    obtain ⟨property, c₁, taken, done⟩ := bind_eq_ok.1 run
    cases done
    have named : (property.kind = .identifier ∨ property.kind = .kwSuper) ∧
        Reads [.word property] c c₁ := by
      rcases next with next | next
      · obtain ⟨same, found⟩ := advance_reads taken next (by decide)
        exact ⟨.inl same, found⟩
      · obtain ⟨same, found⟩ := advance_reads taken next (by decide)
        exact ⟨.inr same, found⟩
    exact (reads.append named.2).node (.member joins named.1)
  · exact absurd run not_fail_ok

theorem instanceOf_completes {value : Node} {word : Token} (kind : word.kind = .kwInstanceof) :
    Completes [.part .expression value, .word word] .expression (instanceOf value) := by
  refine .bind typeRef_follows ?_
  rintro type _ ⟨_⟩
  exact .node fun _ _ => .instanceOf kind

/-- An operator that is taken is one of the table. -/
theorem mem_binaryOperators_of_le {kind : TokenKind}
    (binds : .assignment ≤ Precedence.ofOperator kind)
    (paren : kind ≠ .leftParen) (bracket : kind ≠ .leftBracket) (dot : kind ≠ .dot)
    (less : kind ≠ .less) (ask : kind ≠ .kwInstanceof) (sign : kind ≠ .equal) :
    kind ∈ TokenKind.binaryOperators := by
  revert binds paren bracket dot less ask sign
  cases kind <;> decide

theorem extend_completes (grammar : FollowsGrammar inner) {left : Node} {operator : Token}
    (binds : .assignment ≤ Precedence.ofOperator operator.kind) :
    Completes [.part .expression left, .word operator] .expression
      (extend inner left operator) := by
  unfold extend
  split
  case h_1 kind => exact call_completes grammar .none kind (.inl rfl)
  case h_2 kind => exact index_completes grammar kind
  case h_3 kind => exact member_completes kind
  case h_4 kind => exact lessThan_completes grammar kind
  case h_5 kind => exact instanceOf_completes kind
  case h_6 kind => exact assignment_completes grammar kind
  case h_7 paren bracket dot less ask sign =>
    exact binary_completes grammar
      (.inl (mem_binaryOperators_of_le binds paren bracket dot less ask sign))

/-- Every operator that is taken makes a larger expression of what is in front of it. -/
theorem operators_completes (grammar : FollowsGrammar inner) {level : Precedence}
    (askable : .assignment ≤ level) (loop : List Token) (left : Node) :
    Completes [.part .expression left] .expression (operators inner level loop left) := by
  induction loop generalizing left with
  | nil =>
    intro c₀ c n c' reads run
    cases run
    exact reads
  | cons round loop ih =>
    intro c₀ c n c' reads run
    unfold operators at run
    rw [bind_of_ok (nextKind_apply c)] at run
    split at run
    · rename_i binds
      obtain ⟨operator, c₁, taken, run₁⟩ := bind_eq_ok.1 run
      obtain ⟨larger, c₂, extended, run₂⟩ := bind_eq_ok.1 run₁
      have reaches := Precedence.le_trans askable binds
      have word : c.nextKind ≠ .eof := by
        intro ended
        rw [ended] at reaches
        exact absurd reaches (by decide)
      obtain ⟨same, found⟩ := advance_reads taken rfl word
      rw [← same] at reaches
      have whole := extend_completes grammar reaches _ _ _ _ (reads.append found) extended
      exact ih larger _ _ _ _ whole run₂
    · cases run
      exact reads

theorem expressionWith_follows (grammar : FollowsGrammar inner) {level : Precedence}
    (askable : .assignment ≤ level) :
    Follows (expressionWith inner level) (IsPart .expression) := by
  intro c n c' run
  cases ahead : c.rest with
  | nil =>
    unfold expressionWith at run
    rw [bind_of_ok (atEnd_of_rest_nil ahead)] at run
    cases run
  | cons t rest =>
    unfold expressionWith at run
    rw [bind_of_ok (atEnd_of_rest_cons ahead)] at run
    obtain ⟨token, c₁, taken, run₁⟩ := bind_eq_ok.1 run
    obtain ⟨first, c₂, found, run₂⟩ := bind_eq_ok.1 run₁
    rw [advance_of_rest_cons ahead] at taken
    cases taken
    have begun := operand_completes grammar t _ _ _ _ (.single ahead) found
    exact ⟨_, .mk n, operators_completes grammar askable _ first _ _ _ _ begun run₂⟩

/-- No operator goes on with what is asked for behind an else. -/
theorem operators_primary {loop : List Token} {left : Node} {c : Cursor} :
    operators inner .primary loop left c = .ok left c := by
  cases loop with
  | nil => rfl
  | cons round loop =>
    have looser : ¬Precedence.primary ≤ Precedence.ofOperator c.nextKind := by
      generalize c.nextKind = kind
      cases kind <;> decide
    unfold operators
    rw [bind_of_ok (nextKind_apply c), if_neg looser]
    rfl

/-- In front of an if an operand is that if. -/
theorem isIf_of_expressionWith {c c' : Cursor} {n : Node} (next : c.nextKind = .kwIf)
    (run : expressionWith inner .primary c = .ok n c') : n.form.IsIf .value := by
  obtain ⟨t, rest, ahead⟩ : ∃ t rest, c.rest = t :: rest := by
    cases ahead : c.rest with
    | nil =>
      rw [Cursor.nextKind, ahead] at next
      cases next
    | cons t rest => exact ⟨t, rest, rfl⟩
  have kind : t.kind = .kwIf := by
    rw [Cursor.nextKind, ahead] at next
    exact next
  unfold expressionWith at run
  rw [bind_of_ok (atEnd_of_rest_cons ahead)] at run
  obtain ⟨token, c₁, taken, run₁⟩ := bind_eq_ok.1 run
  obtain ⟨first, c₂, found, run₂⟩ := bind_eq_ok.1 run₁
  rw [advance_of_rest_cons ahead] at taken
  cases taken
  rw [get_bind, operators_primary] at run₂
  cases run₂
  rw [operand, kind] at found
  exact isIf_of_conditional found

end TekLang.Parser
