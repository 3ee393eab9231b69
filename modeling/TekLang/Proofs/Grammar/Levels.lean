import TekLang.Proofs.Grammar.ExpressionRoundTrip
import TekLang.Proofs.Grammar.Outcomes
import TekLang.Proofs.Grammar.Rounds
import TekLang.Proofs.Grammar.Tape
import TekLang.Token.Layout

/-!
# Operands and their levels

The loop over the operators compares the next one with the level that was asked for and never with
the operand in front of it. That operand binds tightly enough all the same, for what reads it leaves
only operators behind that it allows. The one exception is a type test: nothing is read behind its
type that would keep tighter operators from following, so that they are applied to the whole test.
-/

namespace TekLang

/-! ### What the table asks for -/

/-- An operand of an expression. -/
structure Operand where
  node : Node
  /-- The level that the table asks for at its place. -/
  asked : Precedence
  /-- The kind of the token that goes on with the operand, if it is the first part of the
      expression. -/
  follower : Option TokenKind

/-- The operands of an expression. -/
def Form.operands : Form Node → List Operand
  | .binary left operator right =>
    [⟨left, .ofLeftOperand operator.kind, operator.kind⟩,
      ⟨right, .ofRightOperand operator.kind, none⟩]
  | .instanceOf value _ => [⟨value, .comparison, some .kwInstanceof⟩]
  | .unary _ operand | .async operand => [⟨operand, .unary, none⟩]
  | .call callee _ _ => [⟨callee, .call, some .leftParen⟩]
  | .index object _ => [⟨object, .call, some .leftBracket⟩]
  | .member object _ => [⟨object, .call, some .dot⟩]
  | _ => []

/-- The operand binds as tightly as the table asks for. -/
def Operand.Fits (o : Operand) : Prop := o.asked ≤ o.node.form.level

instance : DecidablePred Operand.Fits := fun o =>
  inferInstanceAs (Decidable (o.asked ≤ o.node.form.level))

/-- The operand is a type test in front of an operator that is tighter than it is. -/
def Operand.IsExtendedTest (o : Operand) : Prop :=
  o.node.kind = .instanceofExpr ∧ ∃ operator ∈ o.follower,
    operator ≠ .leftBracket ∧ .comparison < Precedence.ofOperator operator

namespace Precedence

theorem ofLeftOperand_le_call (operator : TokenKind) : ofLeftOperand operator ≤ call := by
  cases operator <;> decide

/-- What is weaker than a sign may follow an operand with a sign. -/
theorem ofLeftOperand_le_unary {operator : TokenKind} (weaker : ¬unary ≤ ofOperator operator) :
    ofLeftOperand operator ≤ unary := by
  revert weaker
  cases operator <;> decide

theorem ofLeftOperand_le_of_weakest {operator : TokenKind}
    (weaker : ¬assignment ≤ ofOperator operator) (level : Precedence) :
    ofLeftOperand operator ≤ level := by
  have least : ofLeftOperand operator = none := by
    revert weaker
    cases operator <;> decide
  rw [least]
  exact Nat.zero_le _

theorem comparison_lt_ofOperator {operator : TokenKind}
    (tight : ¬ofLeftOperand operator ≤ comparison) : comparison < ofOperator operator := by
  revert tight
  cases operator <;> decide

theorem mem_all (level : Precedence) : level ∈ all := by
  cases level <;> decide

/-- An operator that is too weak for the right operand of another one takes both as its left
    operand. -/
theorem ofLeftOperand_le_ofOperator {first second : TokenKind}
    (binary : first ∈ TokenKind.less :: TokenKind.binaryOperators)
    (weaker : ¬ofRightOperand first ≤ ofOperator second) :
    ofLeftOperand second ≤ ofOperator first := by
  have table : ∀ first ∈ TokenKind.less :: TokenKind.binaryOperators,
      ofRightOperand first ≤ exponent ∧
        ∀ level ∈ all, ¬ofRightOperand first ≤ level → level ≤ ofOperator first := by
    decide
  obtain ⟨loose, left⟩ := table first binary
  unfold ofLeftOperand
  split
  · exact absurd loose weaker
  · exact left _ (mem_all _) weaker

theorem ofRightOperand_le_unary {operator : TokenKind}
    (binary : operator ∈ TokenKind.less :: TokenKind.binaryOperators) :
    ofRightOperand operator ≤ unary := by
  revert operator
  decide

end Precedence

/-! ### Operands that are ready for the next token -/

namespace Node

/-- Every operand in the tree is of the level that the table asks for, or it is an exception. -/
def KeepsLevels (n : Node) : Prop :=
  ∀ m ∈ n.descendants, ∀ o ∈ m.form.operands, o.Fits ∨ o.IsExtendedTest

theorem keepsLevels_mk {id : NodeId} {span : Span} {form : Form Node}
    (own : ∀ o ∈ form.operands, o.Fits ∨ o.IsExtendedTest)
    (parts : ∀ part ∈ form.parts, part.KeepsLevels) : KeepsLevels ⟨id, span, form⟩ := by
  intro m below
  rw [descendants_eq] at below
  rcases List.mem_cons.1 below with rfl | below
  · exact own
  · obtain ⟨child, there, below⟩ := List.mem_flatMap.1 below
    exact parts child (mem_children.1 there) m below

/-- A token of that kind may go on with the node, if it goes on with an operand at all. -/
def ReadyFor (n : Node) (kind : TokenKind) : Prop :=
  Precedence.ofLeftOperand kind ≤ n.form.level ∨
    n.kind = .instanceofExpr ∧ kind ≠ .leftBracket ∧ .comparison < Precedence.ofOperator kind

theorem readyFor_of_call_le {n : Node} (tight : .call ≤ n.form.level) (kind : TokenKind) :
    n.ReadyFor kind :=
  .inl (Precedence.le_trans (Precedence.ofLeftOperand_le_call kind) tight)

/-- In front of the token that goes on with it, an operand fits or is an exception. -/
theorem ReadyFor.fits {n : Node} {kind : TokenKind} (ready : n.ReadyFor kind) {asked : Precedence}
    (asks : asked ≤ Precedence.ofLeftOperand kind) :
    Operand.Fits ⟨n, asked, some kind⟩ ∨ Operand.IsExtendedTest ⟨n, asked, some kind⟩ := by
  rcases ready with tight | ⟨test, apart, tighter⟩
  · exact .inl (Precedence.le_trans asks tight)
  · exact .inr ⟨test, kind, rfl, apart, tighter⟩

end Node

/-- What is known of an expression of the level or a tighter one while operators may still go on
    with it, if the cursor stands behind it. -/
structure Built (level : Precedence) (n : Node) (c : Cursor) : Prop where
  keeps : n.KeepsLevels
  reaches : level ≤ n.form.level
  ready : n.ReadyFor c.nextKind

/-- What is known of an expression that was read where operators of the level or tighter ones were
    asked for, if the cursor stands behind it. -/
structure Settled (level : Precedence) (n : Node) (c : Cursor) : Prop where
  keeps : n.KeepsLevels
  reaches : level ≤ .unary → level ≤ n.form.level
  weaker : ¬level ≤ Precedence.ofOperator c.nextKind

/-- All operands are to be of the level that the table asks for. -/
def Demands.levels : Demands where
  Good := Node.KeepsLevels
  Fault _ _ := True
  good {_ _ form} loose parts := by
    refine Node.keepsLevels_mk ?_ parts
    cases form
    case unary | binary | call | index | member | instanceOf | async => cases loose
    all_goals exact List.forall_mem_nil _
  fault _ := trivial

/-- What is asked of the reader of the constructs within. -/
structure Levels (inner : Construct → Parser Node) : Prop where
  forward : ∀ k, Parser.Forward (inner k)
  meets : ∀ k, Parser.IsAskable k → Meets .levels (inner k)
  settles : ∀ {level}, .assignment ≤ level → ∀ {c n c'},
    inner (.expression level) c = .ok n c' → Settled level n c'

namespace Parser

/-! ### What stands behind a type -/

theorem nextKind_of_itemsAfter {α : Type} {mark : TokenKind} (word : mark ≠ .eof)
    {item : Parser α} (forward : Forward item) (rounds : List Token) {c c' : Cursor} {as : List α}
    (enough : c.rest.length ≤ rounds.length) (run : itemsAfter mark item rounds c = .ok as c') :
    c'.nextKind ≠ mark := by
  induction rounds generalizing c as with
  | nil =>
    have ended : c.rest = [] := List.length_eq_zero_iff.1 (Nat.le_zero.1 enough)
    cases run
    rw [Cursor.nextKind_of_rest_nil ended]
    exact word.symm
  | cons round rounds ih =>
    obtain ⟨marked, c₁, asked, run₁⟩ := bind_eq_ok.1 run
    rcases accept_ok asked word with ⟨rfl, t, -, reads⟩ | ⟨rfl, rfl, other⟩
    · obtain ⟨a, c₂, found, run₂⟩ := bind_eq_ok.1 run₁
      obtain ⟨as, c₃, others, done⟩ := bind_eq_ok.1 run₂
      cases done
      have less := reads.rest_lt (List.cons_ne_nil _ _)
      have le := forward.length_le found
      rw [List.length_cons] at enough
      exact ih (by omega) others
    · cases run₁
      exact other

/-- Behind a type there is no bracket, for it would belong to the type. -/
theorem nextKind_of_typeRef {c c' : Cursor} {n : Node} (run : typeRef c = .ok n c') :
    c'.nextKind ≠ .leftBracket := by
  rw [typeRef_apply] at run
  cases ahead : c.rest with
  | nil =>
    rw [ahead] at run
    cases run
  | cons t rest =>
    rw [ahead] at run
    obtain ⟨first, c₁, -, run₁⟩ := bind_eq_ok.1 run
    obtain ⟨others, c₂, -, run₂⟩ := bind_eq_ok.1 run₁
    obtain ⟨generics, c₃, -, run₃⟩ := bind_eq_ok.1 run₂
    obtain ⟨pairs, c₄, brackets, done⟩ := bind_eq_ok.1 run₃
    cases done
    have behind : c₄.nextKind ≠ .leftBracket :=
      nextKind_of_itemsAfter (by decide) (.expectAs _ _ _) _ (Nat.le_refl _) brackets
    exact behind

/-! ### Operands -/

theorem isAssignable_of_isGenericCallee {form : Form Node}
    (callable : isGenericCallee form = true) : isAssignable form = true := by
  cases form <;> first | rfl | cases callable

/-- Whatever is read is of the level. -/
def HasLevel (level : Precedence) (p : Parser Node) : Prop :=
  ∀ c n c', p c = .ok n c' → n.form.level = level

namespace HasLevel

variable {level : Precedence}

theorem bind {α : Type} {p : Parser α} {f : α → Parser Node} (second : ∀ a, HasLevel level (f a)) :
    HasLevel level (p >>= f) := by
  intro c n c' run
  obtain ⟨a, c₁, -, run₁⟩ := bind_eq_ok.1 run
  exact second a c₁ n c' run₁

theorem node (span : Span) (form : Form Node) : HasLevel form.level (Parser.node span form) := by
  rintro c n c' ⟨⟩
  rfl

theorem spanned (start : Span) (form : Form Node) :
    HasLevel form.level (do Parser.node (← spanFrom start) form) := .bind fun _ => .node _ _

theorem failAt (span : Span) (fault : SyntaxFault) :
    HasLevel level (Parser.failAt span fault) := by
  rintro c n c' ⟨⟩

end HasLevel

theorem hasLevel_operand {inner : Construct → Parser Node} {token : Token}
    (other : token.kind ∉ [.minus, .kwNot, .kwAsync]) :
    HasLevel .primary (operand inner token) := by
  unfold operand
  split
  case h_7 => exact .bind fun _ => .bind fun _ => .spanned _ (.wrapped _)
  case h_8 => exact .bind fun _ => .spanned _ (.array _)
  case h_9 kind | h_10 kind | h_12 kind => exact absurd other (by simp [kind])
  case h_11 => exact .bind fun _ => .bind fun _ => .spanned _ (.new _ _)
  case h_13 => exact .bind fun _ => .bind fun _ => .bind fun _ => .spanned _ (.conditional _ _ _ _)
  case h_14 | h_15 => exact .failAt _ _
  case h_1 => exact .node _ (.identifier _)
  case h_2 | h_3 | h_4 => exact .node _ (.literal _ _)
  case h_5 => exact .node _ .this
  case h_6 => exact .node _ .super

end Parser

theorem Demands.allows_levels {p : Parser Node} {c : Cursor}
    (keeps : ∀ n c', p c = .ok n c' → n.KeepsLevels) : Demands.levels.Allows (p c) := by
  cases run : p c with
  | ok n c' => exact keeps n c' run
  | error e c' => trivial

section Constructs

open TekLang.Parser

variable {inner : Construct → Parser Node} (levels : Levels inner)
include levels

/-- What a sign or `async` stands in front of is followed by what may follow the whole. -/
theorem Levels.signed {form : Node → Form Node} {span : Node → Span}
    (level : ∀ n, (form n).level = .unary) (parts : ∀ n, (form n).parts = [n])
    (operands : ∀ n, (form n).operands = [⟨n, .unary, none⟩]) {c c' : Cursor} {n : Node}
    (run : (do
      let operand ← inner (.expression .unary)
      Parser.node (span operand) (form operand)) c = .ok n c') : Built .unary n c' := by
  obtain ⟨operand, c₁, found, done⟩ := bind_eq_ok.1 run
  cases done
  have settled := levels.settles (by decide) found
  have tight : Precedence.unary ≤ (form operand).level := by
    rw [level]
    exact Precedence.le_refl _
  refine ⟨Node.keepsLevels_mk ?_ ?_, tight, .inl ?_⟩
  · rw [operands]
    exact List.forall_mem_singleton.2 (.inl (settled.reaches (Precedence.le_refl _)))
  · rw [parts]
    exact List.forall_mem_singleton.2 settled.keeps
  · exact Precedence.le_trans (Precedence.ofLeftOperand_le_unary settled.weaker) tight

theorem Levels.unary {token : Token} {c c' : Cursor} {n : Node}
    (run : Parser.unary inner token c = .ok n c') : Built .unary n c' :=
  levels.signed (fun _ => rfl) (fun _ => rfl) (fun _ => rfl) run

theorem Levels.async {start : Span} {c c' : Cursor} {n : Node}
    (run : Parser.async inner start c = .ok n c') : Built .unary n c' :=
  levels.signed (fun _ => rfl) (fun _ => rfl) (fun _ => rfl) run

theorem Levels.operand {token : Token} {c c' : Cursor} {n : Node}
    (run : Parser.operand inner token c = .ok n c') : Built .unary n c' := by
  by_cases other : token.kind ∉ [.minus, .kwNot, .kwAsync]
  · have primary := hasLevel_operand other c n c' run
    have unary : Demands.levels.Allows (Parser.unary inner token c) :=
      Demands.allows_levels fun _ _ found => (levels.unary found).keeps
    have async : Demands.levels.Allows (Parser.async inner token.span c) :=
      Demands.allows_levels fun _ _ found => (levels.async found).keeps
    have allows : Demands.levels.Allows (Parser.operand inner token c) :=
      Meets.operand levels.meets (fun _ => unary) async (fun _ => trivial) trivial
    rw [run] at allows
    refine ⟨allows, ?_, Node.readyFor_of_call_le ?_ _⟩
    all_goals
      rw [primary]
      decide
  · have special : token.kind = .minus ∨ token.kind = .kwNot ∨ token.kind = .kwAsync := by
      simpa using Decidable.not_not.1 other
    unfold Parser.operand at run
    rcases special with kind | kind | kind
    all_goals rw [kind] at run
    · exact levels.unary run
    · exact levels.unary run
    · exact levels.async run

section Extensions

variable {left : Node} {operator : Token} {c c' : Cursor} {n : Node} (keeps : left.KeepsLevels)
include keeps

theorem Levels.binary (kind : operator.kind ∈ TokenKind.less :: TokenKind.binaryOperators)
    (ready : left.ReadyFor operator.kind) (run : Parser.binary inner left operator c = .ok n c') :
    Built (.ofOperator operator.kind) n c' := by
  obtain ⟨right, c₁, found, done⟩ := bind_eq_ok.1 run
  cases done
  have settled := levels.settles (Precedence.assignment_le_ofRightOperand _) found
  have fits := settled.reaches (Precedence.ofRightOperand_le_unary kind)
  refine ⟨Node.keepsLevels_mk ?_ ?_, Precedence.le_refl _, .inl ?_⟩
  · refine List.forall_mem_cons.2 ⟨ready.fits (Precedence.le_refl _), ?_⟩
    exact List.forall_mem_singleton.2 (.inl fits)
  · exact List.forall_mem_cons.2 ⟨keeps, List.forall_mem_singleton.2 settled.keeps⟩
  · exact Precedence.ofLeftOperand_le_ofOperator kind settled.weaker

theorem Levels.call {generics : List Node} (bounds : ∀ n ∈ generics, n.KeepsLevels)
    (ready : left.ReadyFor .leftParen) (run : Parser.call inner left generics c = .ok n c') :
    Built .call n c' := by
  obtain ⟨args, c₁, found, done⟩ := bind_eq_ok.1 run
  cases done
  have all := (Meets.arguments levels.meets .rightParen).ok found
  refine ⟨Node.keepsLevels_mk ?_ ?_, Precedence.le_refl _, Node.readyFor_of_call_le ?_ _⟩
  · exact List.forall_mem_singleton.2 (ready.fits (by decide))
  · exact List.forall_mem_cons.2 ⟨keeps, List.forall_mem_append.2 ⟨bounds, all⟩⟩
  · exact Precedence.le_refl _

theorem Levels.lessThan (kind : operator.kind = .less) (ready : left.ReadyFor .less)
    (run : Parser.lessThan inner left operator c = .ok n c') : Built .comparison n c' := by
  unfold Parser.lessThan at run
  rw [Parser.get_bind] at run
  split at run
  · next generic =>
    have callable := (Bool.and_eq_true_iff.1 generic).1
    obtain ⟨generics, c₁, listed, run₁⟩ := bind_eq_ok.1 run
    obtain ⟨paren, c₂, opens, run₂⟩ := bind_eq_ok.1 run₁
    have types : Meets .levels typeRef := Meets.typeRef
    have tight := call_le_level (isAssignable_of_isGenericCallee callable)
    have built := levels.call keeps ((Meets.genericArguments types).ok listed)
      (Node.readyFor_of_call_le tight _) run₂
    exact ⟨built.keeps, Precedence.le_trans (by decide) built.reaches, built.ready⟩
  · have built := levels.binary keeps (kind ▸ List.mem_cons_self) (kind ▸ ready) run
    rw [kind] at built
    exact built

theorem Levels.index (ready : left.ReadyFor .leftBracket)
    (run : Parser.index inner left c = .ok n c') : Built .call n c' := by
  obtain ⟨subscript, c₁, found, run₁⟩ := bind_eq_ok.1 run
  obtain ⟨right, c₂, closes, done⟩ := bind_eq_ok.1 run₁
  cases done
  have settled := levels.settles (Precedence.le_refl _) found
  refine ⟨Node.keepsLevels_mk ?_ ?_, Precedence.le_refl _, Node.readyFor_of_call_le ?_ _⟩
  · exact List.forall_mem_singleton.2 (ready.fits (by decide))
  · exact List.forall_mem_cons.2 ⟨keeps, List.forall_mem_singleton.2 settled.keeps⟩
  · exact Precedence.le_refl _

omit levels in
theorem Levels.member (ready : left.ReadyFor .dot) (run : Parser.member left c = .ok n c') :
    Built .call n c' := by
  unfold Parser.member at run
  rw [bind_of_ok (Parser.nextKind_apply c)] at run
  split at run
  · obtain ⟨property, c₁, taken, done⟩ := bind_eq_ok.1 run
    cases done
    refine ⟨Node.keepsLevels_mk ?_ ?_, Precedence.le_refl _, Node.readyFor_of_call_le ?_ _⟩
    · exact List.forall_mem_singleton.2 (ready.fits (by decide))
    · exact List.forall_mem_singleton.2 keeps
    · exact Precedence.le_refl _
  · exact absurd run Parser.not_fail_ok

omit levels in
/-- Behind a type test any operator may follow but a bracket. -/
theorem Levels.instanceOf (ready : left.ReadyFor .kwInstanceof)
    (run : Parser.instanceOf left c = .ok n c') : Built .comparison n c' := by
  obtain ⟨type, c₁, found, done⟩ := bind_eq_ok.1 run
  cases done
  have types : Meets .levels typeRef := Meets.typeRef
  have apart := Parser.nextKind_of_typeRef found
  refine ⟨Node.keepsLevels_mk ?_ ?_, Precedence.le_refl _, ?_⟩
  · exact List.forall_mem_singleton.2 (ready.fits (by decide))
  · exact List.forall_mem_cons.2 ⟨keeps, List.forall_mem_singleton.2 (types.ok found)⟩
  · by_cases loose : Precedence.ofLeftOperand c₁.nextKind ≤ .comparison
    · exact .inl loose
    · exact .inr ⟨rfl, apart, Precedence.comparison_lt_ofOperator loose⟩

/-- What is read behind the sign of an assignment leaves no operator. -/
theorem Levels.assignment (kind : operator.kind = .equal)
    (run : Parser.assignment inner left operator c = .ok n c') : Built .assignment n c' := by
  unfold Parser.assignment at run
  split at run
  · cases run
  · obtain ⟨value, c₁, found, done⟩ := bind_eq_ok.1 run
    cases done
    rw [kind] at found
    have settled := levels.settles (Precedence.le_refl _) found
    refine ⟨Node.keepsLevels_mk (List.forall_mem_nil _) ?_, Precedence.le_refl _, .inl ?_⟩
    · exact List.forall_mem_cons.2 ⟨keeps, List.forall_mem_singleton.2 settled.keeps⟩
    · exact Precedence.ofLeftOperand_le_of_weakest settled.weaker _

theorem Levels.extend (binds : .assignment ≤ Precedence.ofOperator operator.kind)
    (ready : left.ReadyFor operator.kind) (run : Parser.extend inner left operator c = .ok n c') :
    Built (.ofOperator operator.kind) n c' := by
  revert run
  unfold Parser.extend
  change (fun p : Parser Node => p c = .ok n c' → _) _
  split
  all_goals intro run
  case h_1 kind =>
    rw [kind] at ready ⊢
    exact levels.call keeps (List.forall_mem_nil _) ready run
  case h_2 kind =>
    rw [kind] at ready ⊢
    exact levels.index keeps ready run
  case h_3 kind =>
    rw [kind] at ready ⊢
    exact Levels.member keeps ready run
  case h_4 kind =>
    rw [kind] at ready ⊢
    exact levels.lessThan keeps kind ready run
  case h_5 kind =>
    rw [kind] at ready ⊢
    exact Levels.instanceOf keeps ready run
  case h_6 kind =>
    rw [kind]
    exact levels.assignment keeps kind run
  case h_7 paren bracket dot less ask sign =>
    have binary := mem_binaryOperators_of_le binds paren bracket dot less ask sign
    exact levels.binary keeps (List.mem_cons_of_mem _ binary) ready run

end Extensions

theorem Levels.operators {level : Precedence} (askable : .assignment ≤ level)
    (rounds : List Token) {left n : Node} {c c' : Cursor} (enough : c.rest.length ≤ rounds.length)
    (keeps : left.KeepsLevels) (reaches : level ≤ .unary → level ≤ left.form.level)
    (ready : left.ReadyFor c.nextKind)
    (run : Parser.operators inner level rounds left c = .ok n c') : Settled level n c' := by
  induction rounds generalizing left c with
  | nil =>
    have ended : c.rest = [] := List.length_eq_zero_iff.1 (Nat.le_zero.1 enough)
    cases run
    refine ⟨keeps, reaches, ?_⟩
    rw [Cursor.nextKind_of_rest_nil ended]
    exact fun binds => absurd (Precedence.le_trans askable binds) (by decide)
  | cons round rounds ih =>
    unfold Parser.operators at run
    rw [bind_of_ok (Parser.nextKind_apply c)] at run
    split at run
    · next binds =>
      obtain ⟨t, rest, ahead⟩ := Parser.exists_cons_of_binds askable binds
      have next := Cursor.nextKind_of_rest_cons ahead
      rw [bind_of_ok (Parser.advance_of_rest_cons ahead)] at run
      obtain ⟨larger, c₁, extended, run₁⟩ := bind_eq_ok.1 run
      rw [next] at binds ready
      have built := levels.extend keeps (Precedence.le_trans askable binds) ready extended
      have le := (Forward.of_composed (.extend left t trivial) levels.forward).length_le extended
      rw [Cursor.rest_behind] at le
      rw [ahead, List.length_cons, List.length_cons] at enough
      have reached : level ≤ .unary → level ≤ larger.form.level :=
        fun _ => Precedence.le_trans binds built.reaches
      exact ih (by omega) built.keeps reached built.ready run₁
    · next weaker =>
      cases run
      exact ⟨keeps, reaches, weaker⟩

theorem Levels.expressionWith {level : Precedence} (askable : .assignment ≤ level) {c c' : Cursor}
    {n : Node} (run : Parser.expressionWith inner level c = .ok n c') : Settled level n c' := by
  cases ahead : c.rest with
  | nil =>
    rw [expressionWith_atEnd ahead] at run
    exact absurd run not_fail_ok
  | cons t rest =>
    rw [expressionWith_of_rest_cons ahead] at run
    obtain ⟨first, c₁, found, run₁⟩ := bind_eq_ok.1 run
    have built := levels.operand found
    exact levels.operators askable c₁.rest (Nat.le_refl _) built.keeps
      (fun weak => Precedence.le_trans weak built.reaches) built.ready run₁

end Constructs

theorem levels_constructWithin (rounds : List Token) : Levels (Parser.constructWithin rounds) := by
  induction rounds with
  | nil =>
    refine ⟨fun k => .fail _, fun k _ => Meets.fail .expression _ nofun, ?_⟩
    intro level _ c n c' run
    exact absurd run Parser.not_fail_ok
  | cons round rounds ih =>
    have value {level : Precedence} (askable : .assignment ≤ level) :
        Meets .levels (Parser.expressionWith (Parser.constructWithin rounds) level) :=
      fun c => Demands.allows_levels fun n c' run => (ih.expressionWith askable run).keeps
    refine ⟨Parser.forward_constructWithin _, ?_, fun askable _ _ _ => ih.expressionWith askable⟩
    intro k askable
    cases k with
    | declaration => exact Meets.declarationWith ih.meets (value (Precedence.le_refl _))
    | expression level => exact value askable

theorem ReadsProgram.keepsLevels {c : Cursor} {top : TopLevel} (reads : ReadsProgram c top) :
    ∀ n ∈ top.body, n.KeepsLevels := by
  induction reads with
  | done => exact List.forall_mem_nil _
  | skip _ _ _ ih => exact ih
  | @declaration c c' n top run _ ih =>
    have meets := (levels_constructWithin c.rest).meets .declaration trivial
    exact List.forall_mem_cons.2 ⟨meets.ok run, ih⟩
  | fault _ _ ih => exact ih

/-- In every tree that is read every operand is of the level that the table asks for at its place:
    a left operand is of the level of its operator or a tighter one, a right operand of a tighter
    one, and the other way round with powers; the value of a type test is of the level of
    comparisons, the operand of a sign or of `async` of that of signs, and what is called or
    subscripted or has members of that of calls. There is one exception: an operator that is tighter
    than comparisons, other than a bracket, goes on with a type test in front of it. -/
theorem parse_keeps_levels (tokens : List Token) : (parse tokens).program.KeepsLevels := by
  obtain ⟨top, span, reads, read⟩ := parse_reads tokens
  rw [read]
  exact Node.keepsLevels_mk (List.forall_mem_nil _) reads.keepsLevels

/-- Behind a type test with a factor the test is multiplied, though factors are tighter. -/
theorem not_parse_keeps_levels_test :
    let program := (parse (lex "x instanceof T * 2\n").tokens).program
    ¬∀ n ∈ program.descendants, ∀ o ∈ n.form.operands, o.Fits := by
  decide +kernel

end TekLang
