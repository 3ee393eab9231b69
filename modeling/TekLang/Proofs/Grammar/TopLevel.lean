import TekLang.Proofs.Grammar.Composition
import TekLang.Proofs.Grammar.Echo

/-!
# The top of a program

`topLevel` goes on as long as there are tokens: it has enough rounds, for every declaration takes a
token, even one with a fault. So `ReadsProgram`, its rounds without the counter, describes it, and
statements about whole programs are inductions on that relation.
-/

namespace TekLang

namespace Parser

variable {c d : Cursor} {t : Token} {rest : List Token}

/-- A construct is known by its first word, behind which it is read, or it is an expression. -/
theorem declarationWith_cases (inner : Construct → Parser Node) (kind : TokenKind) :
    (kind.onlyBegins = true ∧ ∃ f : Token → Parser Node, ∀ c : Cursor, c.nextKind = kind →
      declarationWith inner c = (advance >>= f) c) ∨
    ∀ c : Cursor, c.nextKind = kind → declarationWith inner c = expressionStmt inner c := by
  unfold declarationWith
  cases kind
  case kwClass | kwFunction | kwVar | kwImport | kwIf | kwFor | kwWhile | kwRepeat | kwSwitch |
      kwTry | kwReturn | kwThrow | kwYield | kwBreak | kwContinue | kwFallthrough =>
    refine .inl ⟨rfl, ?_, ?_⟩
    rotate_left
    · intro c next
      rw [bind_of_ok (nextKind_apply c), next]
  all_goals
    refine .inr fun c next => ?_
    rw [bind_of_ok (nextKind_apply c), next]

/-- What is read does not depend on what was read in front of it. -/
theorem construct_of_behind (ahead : c.rest = t :: rest) (ahead' : d.rest = t :: rest)
    (same : c.behind t rest = d.behind t rest) :
    construct .declaration d = construct .declaration c := by
  have next := Cursor.nextKind_of_rest_cons ahead
  have next' := Cursor.nextKind_of_rest_cons ahead'
  rw [construct_apply, construct_apply, ahead, ahead', constructWithin]
  rcases declarationWith_cases (constructWithin rest) t.kind with ⟨-, f, reads⟩ | reads
  · rw [reads c next, reads d next', bind_of_ok (advance_of_rest_cons ahead),
      bind_of_ok (advance_of_rest_cons ahead'), same]
  · rw [reads c next, reads d next']
    unfold expressionStmt
    rw [bind_apply, bind_apply, expressionWith_of_rest_cons ahead,
      expressionWith_of_rest_cons ahead', same]

end Parser

/-! ### One round after another -/

section TopLevel

variable {c : Cursor} {t : Token} {rest : List Token}

theorem topLevel_ended (loop : List Token) (ended : c.rest = []) :
    topLevel loop c = ⟨[], [], c.nextId⟩ := by
  cases loop with
  | nil => rfl
  | cons => rw [topLevel, ended]

theorem topLevel_layout (ahead : c.rest = t :: rest)
    (layout : t.kind = .newline ∨ t.kind = .outdent) (round : Token) (loop : List Token) :
    topLevel (round :: loop) c = topLevel loop { c with rest } := by
  rw [topLevel, ahead]
  exact if_pos layout

theorem topLevel_construct (ahead : c.rest = t :: rest)
    (other : ¬(t.kind = .newline ∨ t.kind = .outdent)) (round : Token) (loop : List Token) :
    topLevel (round :: loop) c =
      match Parser.construct .declaration c with
      | .ok n c' => { topLevel loop c' with body := n :: (topLevel loop c').body }
      | .error e c' =>
        { topLevel loop c'.recover with errors := e :: (topLevel loop c'.recover).errors } := by
  rw [topLevel, ahead]
  exact if_neg other

end TopLevel

/-- The loop at the top does not look at what was read in front of it. -/
theorem topLevel_of_last (rounds rest : List Token) (stop t u : Token) (id : NodeId) :
    topLevel rounds ⟨rest, stop, t, id⟩ = topLevel rounds ⟨rest, stop, u, id⟩ := by
  induction rounds generalizing rest with
  | nil => rfl
  | cons round rounds ih =>
    cases rest with
    | nil => rfl
    | cons v rest =>
      by_cases layout : v.kind = .newline ∨ v.kind = .outdent
      · rw [topLevel_layout rfl layout, topLevel_layout rfl layout]
        exact ih rest
      · have same : Parser.construct .declaration (⟨v :: rest, stop, t, id⟩ : Cursor) =
            Parser.construct .declaration (⟨v :: rest, stop, u, id⟩ : Cursor) :=
          Parser.construct_of_behind rfl rfl rfl
        rw [topLevel_construct rfl layout, topLevel_construct rfl layout, same]

/-! ### Rounds without a counter -/

/-- What reading declarations up to the end of input gives. -/
inductive ReadsProgram : Cursor → TopLevel → Prop
  | done {c} (ended : c.rest = []) : ReadsProgram c ⟨[], [], c.nextId⟩
  | skip {c t rest top} (ahead : c.rest = t :: rest)
    (layout : t.kind = .newline ∨ t.kind = .outdent)
    (others : ReadsProgram { c with rest } top) : ReadsProgram c top
  | declaration {c c' n top} (run : Parser.construct .declaration c = .ok n c')
    (others : ReadsProgram c' top) : ReadsProgram c { top with body := n :: top.body }
  | fault {c c' e top} (run : Parser.construct .declaration c = .error e c')
    (others : ReadsProgram c'.recover top) : ReadsProgram c { top with errors := e :: top.errors }

theorem Cursor.recover_suffix (c : Cursor) : c.recover.rest <:+ c.rest := List.dropWhile_suffix _

theorem topLevel_reads (loop : List Token) {c : Cursor} (enough : c.rest.length ≤ loop.length) :
    ReadsProgram c (topLevel loop c) := by
  induction loop generalizing c with
  | nil => exact .done (List.length_eq_zero_iff.1 (Nat.le_zero.1 enough))
  | cons round loop ih =>
    rw [List.length_cons] at enough
    unfold topLevel
    split
    · rename_i ended
      exact .done ended
    · rename_i t rest ahead
      have some : c.rest ≠ [] := by
        rw [ahead]
        exact List.cons_ne_nil _ _
      have takes := (Parser.advances_construct .declaration).takes c some
      split
      · rename_i layout
        rw [ahead, List.length_cons] at enough
        exact .skip ahead layout (ih (Nat.le_of_succ_le_succ enough))
      · split
        · rename_i n c' run
          rw [run] at takes
          have shorter : c'.rest.length ≤ loop.length := by
            simp only [Parser.placeAfter] at takes
            omega
          exact .declaration run (ih shorter)
        · rename_i e c' run
          rw [run] at takes
          have shorter : c'.recover.rest.length ≤ loop.length := by
            have recovered := c'.recover_suffix.length_le
            simp only [Parser.placeAfter] at takes
            omega
          exact .fault run (ih shorter)

end TekLang
