import TekLang.Proofs.Grammar.ExpressionRoundTrip
import TekLang.Proofs.Grammar.Outcomes
import TekLang.Proofs.Grammar.Progress

/-!
# Where reading is taken up again

Most faults arise in front of the token that they are put down to, and then nothing that begins a
construct is passed over between that token and the place where reading is taken up again. A token
that should begin an operand is taken before it is found that it does not. If it is the first word
of the next declaration, that declaration is lost.
-/

namespace TekLang

/-- Whether the token at which the fault arises is taken already. -/
def SyntaxFault.isBehind : SyntaxFault → Bool
  | .missing .construct .anywhere | .reservedWord _ | .assignmentTarget => true
  | .missing .. => false

/-- The tokens from the one on at which a fault arose that left the cursor there. -/
def Cursor.fromFault (c : Cursor) (fault : SyntaxFault) : List Token :=
  if fault.isBehind then c.last :: c.rest else c.rest

theorem Cursor.fromFault_ahead {c : Cursor} {fault : SyntaxFault}
    (ahead : fault.isBehind = false) : c.fromFault fault = c.rest := by
  unfold fromFault
  rw [ahead]
  rfl

/-- A fault that left the cursor there points at the token at which it arose. Only one about the
    target of an assignment points elsewhere; it arose at the sign. -/
inductive SyntaxError.PointsAt : SyntaxError → Cursor → Prop
  | target {span c} (sign : c.last.kind = .equal) : PointsAt ⟨.assignmentTarget, span⟩ c
  | reserved {word c} (kind : c.last.kind = .kwAbstract) :
    PointsAt ⟨.reservedWord word, c.last.span⟩ c
  | operand {c} : PointsAt ⟨.missing .construct .anywhere, c.last.span⟩ c
  | ahead {fault c} (ahead : fault.isBehind = false) : PointsAt ⟨fault, c.upcoming.span⟩ c

theorem SyntaxFault.isBehind_missing {wanted : Wanted} (ahead : wanted ≠ .construct)
    (setting : Setting) : (missing wanted setting).isBehind = false := by
  cases wanted
  case construct => exact absurd rfl ahead
  all_goals rfl

/-- Every fault is to point at the token at which it arose. -/
def Demands.pointing : Demands where
  Good _ := True
  Fault := SyntaxError.PointsAt
  good _ _ := trivial
  fault other := .ahead (SyntaxFault.isBehind_missing other _)

namespace Meets

theorem pointing_node (span : Span) (form : Form Node) :
    Meets .pointing (Parser.node span form) := fun _ => trivial

theorem pointing_spanned (start : Span) (form : Form Node) :
    Meets .pointing (do Parser.node (← Parser.spanFrom start) form) := fun _ => trivial

section Constructs

variable {inner : Construct → Parser Node}
  (within : ∀ k, Parser.IsAskable k → Meets .pointing (inner k))
include within

theorem pointing_operand {token : Token} {c : Cursor} (taken : c.last = token) :
    Demands.pointing.Allows (Parser.operand inner token c) := by
  have unary : Parser.IsAskable (.expression .unary) :=
    (by decide : Precedence.assignment ≤ .unary)
  refine operand within ?_ ?_ ?_ ?_
  · exact fun _ => bind (within _ unary) (fun _ _ => pointing_node _ _) c
  · exact bind (within _ unary) (fun _ _ => pointing_node _ _) c
  · subst taken
    exact .reserved
  · subst taken
    exact .operand

theorem pointing_binary (left : Node) (operator : Token) :
    Meets .pointing (Parser.binary inner left operator) :=
  .bind (within (.expression _) (Precedence.assignment_le_ofRightOperand _))
    fun _ _ => pointing_node _ _

theorem pointing_call (callee : Node) (generics : List Node) :
    Meets .pointing (Parser.call inner callee generics) :=
  .bind (arguments within _) fun _ _ => pointing_spanned _ _

theorem pointing_lessThan (left : Node) (operator : Token) :
    Meets .pointing (Parser.lessThan inner left operator) :=
  .bind get fun _ _ => .ite
    (.bind (genericArguments typeRef) fun _ _ => .bind (expect _ _) fun _ _ =>
      pointing_call within left _)
    (pointing_binary within left operator)

/-- Behind the sign of an assignment it is found that there is nothing to assign to. -/
theorem pointing_assignment (target : Node) {sign : Token} {c : Cursor} (taken : c.last = sign)
    (kind : sign.kind = .equal) :
    Demands.pointing.Allows (Parser.assignment inner target sign c) := by
  unfold Parser.assignment
  split
  · exact .target ((congrArg Token.kind taken).trans kind)
  · exact bind (within (.expression _) (Precedence.assignment_le_ofRightOperand _))
      (fun _ _ => pointing_node _ _) c

omit within in
theorem pointing_member (object : Node) : Meets .pointing (Parser.member object) :=
  .bind nextKind fun _ _ => .ite (.bind advance fun _ _ => pointing_node _ _) (fail _ _ nofun)

theorem pointing_extend (left : Node) {operator : Token} {c : Cursor} (taken : c.last = operator) :
    Demands.pointing.Allows (Parser.extend inner left operator c) := by
  unfold Parser.extend
  change (fun p : Parser Node => Demands.pointing.Allows (p c)) _
  split
  case h_1 => exact pointing_call within left [] c
  case h_2 =>
    exact bind (expression within)
      (fun _ _ => .bind (expect _ _) fun _ _ => pointing_spanned _ _) c
  case h_3 => exact pointing_member left c
  case h_4 => exact pointing_lessThan within left operator c
  case h_5 => exact bind typeRef (fun _ _ => pointing_node _ _) c
  case h_6 kind => exact pointing_assignment within left taken kind
  case h_7 => exact pointing_binary within left operator c

theorem pointing_operators {level : Precedence} (askable : .assignment ≤ level)
    (rounds : List Token) (left : Node) :
    Meets .pointing (Parser.operators inner level rounds left) := by
  induction rounds generalizing left with
  | nil => exact .pure trivial
  | cons round rounds ih =>
    intro c
    unfold Parser.operators
    rw [bind_of_ok (Parser.nextKind_apply c)]
    split
    · next binds =>
      obtain ⟨t, rest, ahead⟩ := Parser.exists_cons_of_binds askable binds
      have taken : (c.behind t rest).last = t := rfl
      rw [bind_of_ok (Parser.advance_of_rest_cons ahead)]
      exact (pointing_extend within left taken).bind fun larger c' _ _ => ih larger c'
    · trivial

theorem pointing_expressionWith {level : Precedence} (askable : .assignment ≤ level) :
    Meets .pointing (Parser.expressionWith inner level) := by
  intro c
  cases ahead : c.rest with
  | nil =>
    rw [Parser.expressionWith_atEnd ahead]
    exact fail .expression _ nofun c
  | cons t rest =>
    have taken : (c.behind t rest).last = t := rfl
    rw [Parser.expressionWith_of_rest_cons ahead]
    refine (pointing_operand within taken).bind fun first c' _ _ => ?_
    exact pointing_operators within askable _ first c'

end Constructs

theorem pointing_constructWithin (rounds : List Token) (k : Construct)
    (askable : Parser.IsAskable k) : Meets .pointing (Parser.constructWithin rounds k) := by
  induction rounds generalizing k with
  | nil => exact fail _ _ nofun
  | cons round rounds ih =>
    cases k with
    | declaration =>
      exact declarationWith ih (pointing_expressionWith ih (Precedence.le_refl _))
    | expression level => exact pointing_expressionWith ih askable

end Meets

/-- A fault in a declaration points at the token at which it arose. -/
theorem pointsAt_of_fault {c c' : Cursor} {e : SyntaxError}
    (run : Parser.construct .declaration c = .error e c') : e.PointsAt c' := by
  have meets := Meets.pointing_constructWithin c.rest .declaration trivial c
  rw [Parser.construct_apply] at run
  rw [run] at meets
  exact meets

/-! ### Passing on to the next construct -/

namespace SyntaxError.PointsAt

variable {e : SyntaxError} {c : Cursor}

/-- The token at which a fault arose is the first of those from it on. -/
theorem headD (points : e.PointsAt c) :
    let raised := (c.fromFault e.fault).headD c.stop
    if e.fault = .assignmentTarget then raised.kind = .equal else raised.span = e.span := by
  cases points with
  | target sign => exact sign
  | reserved => rfl
  | operand => rfl
  | @ahead fault _ ahead =>
    have other : fault ≠ .assignmentTarget := by
      rintro rfl
      cases ahead
    rw [if_neg other, Cursor.fromFault_ahead ahead]
    rfl

/-- From that token on nothing that begins a construct is passed over, unless it is that very token,
    taken in the place of an operand. -/
theorem rest_recover (points : e.PointsAt c) :
    let left := c.fromFault e.fault
    let lost := e.fault = .missing .construct .anywhere ∧ (left.headD c.stop).kind.startsAnew = true
    c.recover.rest = (if lost then left.tail else left).dropWhile (!·.kind.startsAnew) := by
  have taken (other : c.last.kind.startsAnew = false) :
      c.recover.rest = (c.last :: c.rest).dropWhile (!·.kind.startsAnew) :=
    (List.dropWhile_cons_of_pos (by simp [other])).symm
  cases points with
  | target sign => exact taken (by rw [sign]; rfl)
  | reserved kind => exact taken (by rw [kind]; rfl)
  | operand =>
    dsimp only
    split
    · rfl
    · next kept => exact taken (by simpa [Cursor.fromFault, SyntaxFault.isBehind] using kept)
  | @ahead fault _ ahead =>
    have other : fault ≠ .missing .construct .anywhere := by
      rintro rfl
      cases ahead
    dsimp only
    rw [if_neg (fun lost => other lost.1), Cursor.fromFault_ahead ahead]
    rfl

end SyntaxError.PointsAt

/-- The token at which a fault arose is one of those that were left, or the end of input. -/
theorem fromFault_suffix {c c' : Cursor} {e : SyntaxError} (some : c.rest ≠ [])
    (run : Parser.construct .declaration c = .error e c') : c'.fromFault e.fault <:+ c.rest := by
  obtain ⟨used, taken, split, last, -⟩ := Parser.construct_takes .declaration some
  rw [run] at split last
  change c.rest = used ++ c'.rest at split
  change c'.last = used.getLastD c.last at last
  rw [split]
  unfold Cursor.fromFault
  split
  · have front : used = used.dropLast ++ [c'.last] := by
      rw [last, List.getLastD_eq_getLast?, List.getLast?_eq_some_getLast taken]
      exact (List.dropLast_append_getLast taken).symm
    refine ⟨used.dropLast, ?_⟩
    rw [List.append_cons, ← front]
  · exact List.suffix_append _ _

theorem Attempts.rest_ne_nil {c d : Cursor} {places : List Cursor} (attempts : Attempts d places)
    (there : c ∈ places) : c.rest ≠ [] := by
  induction attempts with
  | done => cases there
  | skip _ _ _ ih => exact ih there
  | attempt ahead _ _ ih =>
    rcases List.mem_cons.1 there with rfl | there
    · exact ahead ▸ List.cons_ne_nil _ _
    · exact ih there

/-- From the token at which a fault arose up to the place where reading is taken up again. -/
theorem recovers_of_fault {c c' : Cursor} {e : SyntaxError} (some : c.rest ≠ [])
    (run : Parser.construct .declaration c = .error e c') :
    let left := c'.fromFault e.fault
    let raised := left.headD c.stop
    let lost := e.fault = .missing .construct .anywhere ∧ raised.kind.startsAnew = true
    left <:+ c.rest ∧
      (if e.fault = .assignmentTarget then raised.kind = .equal else raised.span = e.span) ∧
      c'.recover.rest = (if lost then left.tail else left).dropWhile (!·.kind.startsAnew) := by
  have points := pointsAt_of_fault run
  have forward := (Parser.advances_construct .declaration).forward
  have stop : c'.stop = c.stop := (forward.error run).stop_eq
  rw [← stop]
  exact ⟨fromFault_suffix some run, points.headD, points.rest_recover⟩

/-- A fault that arises at a tape arises at its cursor, and reading is taken up again at the same
    token. -/
theorem Tape.resumption_eq {t t' : Tape} {e : SyntaxError} (more : TokenStream.atEnd t = false)
    (run : Parser.construct .declaration t = .error e t') :
    Parser.construct .declaration t.cursor = .error e t'.cursor ∧
      (TokenStream.resumption t t').cursor.rest = t'.cursor.recover.rest := by
  have askable : Parser.IsAskable .declaration := trivial
  have fails : Parser.construct .declaration t.cursor = .error e t'.cursor := by
    rw [← construct_eq askable, run]
    rfl
  obtain ⟨behind, shows⟩ := t.shows
  have less := Parser.length_lt_of_fault fails (rest_cursor_ne_nil more)
  have agrees := shows.declaration_agrees
  rw [run, fails] at agrees
  obtain ⟨last, resumed⟩ := (simulation t.tokens behind).resumption_shows shows agrees.shows less
  have rest := congrArg Cursor.rest resumed.cursor_eq
  exact ⟨fails, rest⟩

/-- Behind a declaration with a fault reading is taken up again at the first word that begins a
    construct and stands at the token at which the fault arose or behind it. That token is the one
    whose span the fault carries, or the sign if it is about the target of an assignment. A word is
    passed over only if it is that token and stands where an operand was to be read. So it is at
    every attempt to read a declaration, and wherever one is made from a tape. -/
theorem fault_resumes (e : SyntaxError) :
    (∀ tokens places c, Attempts (.ofTokens tokens) places → c ∈ places → c.fault? = some e →
      let left := (Parser.placeAfter (Parser.construct .declaration c)).fromFault e.fault
      let raised := left.headD c.stop
      let lost := e.fault = .missing .construct .anywhere ∧ raised.kind.startsAnew = true
      left <:+ c.rest ∧
        (if e.fault = .assignmentTarget then raised.kind = .equal else raised.span = e.span) ∧
        c.resumed.rest = (if lost then left.tail else left).dropWhile (!·.kind.startsAnew)) ∧
    ∀ t t' : Tape, TokenStream.atEnd t = false →
      Parser.construct .declaration t = .error e t' →
      let left := t'.cursor.fromFault e.fault
      let raised := left.headD t.cursor.stop
      let lost := e.fault = .missing .construct .anywhere ∧ raised.kind.startsAnew = true
      left <:+ t.cursor.rest ∧
        (if e.fault = .assignmentTarget then raised.kind = .equal else raised.span = e.span) ∧
        (TokenStream.resumption t t').cursor.rest =
          (if lost then left.tail else left).dropWhile (!·.kind.startsAnew) := by
  constructor
  · intro tokens places c attempts there fails
    have some := attempts.rest_ne_nil there
    unfold Cursor.fault? at fails
    unfold Cursor.resumed
    cases run : Parser.construct .declaration c with
    | ok n c' =>
      rw [run] at fails
      cases fails
    | error e' c' =>
      rw [run] at fails
      cases fails
      exact recovers_of_fault some run
  · intro t t' more run
    obtain ⟨fails, resumed⟩ := Tape.resumption_eq more run
    rw [resumed]
    exact recovers_of_fault (Tape.rest_cursor_ne_nil more) fails

/-- Behind a name with a stray bracket the return is reached. -/
theorem fault_resumes_stray :
    let word (kind : TokenKind) := Token.silent kind (.point .origin)
    let tokens := [word .identifier, word .rightParen, word .kwReturn, word .newline]
    let c := Cursor.ofTokens tokens
    ∃ places e, Attempts c places ∧ c ∈ places ∧ c.fault? = some e ∧
      c.resumed.rest = tokens.drop 2 := by
  intro word tokens c
  obtain ⟨places, attempts, -, -⟩ := parse_attempts tokens
  have there : c ∈ places := by
    cases attempts with
    | done ended => cases ended
    | skip ahead layout =>
      cases ahead
      exact absurd layout (by decide)
    | attempt => exact List.mem_cons_self
  have fails : ∃ e, c.fault? = some e ∧ e.fault ≠ .missing .construct .anywhere ∧
      (Parser.placeAfter (Parser.construct .declaration c)).fromFault e.fault =
        tokens.drop 1 := by
    refine ⟨⟨.missing .newline (.after .expression), .point .origin⟩, ?_⟩
    decide +kernel
  obtain ⟨e, fails, other, left⟩ := fails
  obtain ⟨-, -, resumed⟩ := (fault_resumes e).1 tokens places c attempts there fails
  rw [if_neg fun lost => other lost.1, left] at resumed
  exact ⟨places, e, attempts, there, fails, resumed⟩

/-- The word `var` in the place of the value of an assignment is passed over, so that the
    declaration it begins is lost. -/
theorem not_fault_resumes_keyword :
    let tokens := (lex "x = var y = 2\n").tokens
    let c := Cursor.ofTokens tokens
    let left := c.rest.drop 2
    c.fault?.map (·.span) = left.head?.map (·.span) ∧
      left.head?.map (·.kind) = some .kwVar ∧
      c.resumed.rest ≠ left.dropWhile (!·.kind.startsAnew) ∧
      (parse tokens).program.children.length = 0 := by
  decide +kernel

end TekLang
