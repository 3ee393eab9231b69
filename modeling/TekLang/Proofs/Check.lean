import TekLang.Check
import TekLang.Proofs.Scope.Conflict

/-!
# What a check answers

A check either answers with all that was found out about a text or gives up. It gives up exactly if
two declarations of the tree are in conflict, be they so in the text or only in what could be read
of it: behind a fault the members that are left of a class stand at the top.
-/

namespace TekLang

variable {source : String} {config : LintConfig}

theorem check_of_ok {tree : ScopeTree}
    (built : buildScopes (parse (lex source).tokens).program = .ok tree) :
    check source config = .ok ⟨(lex source).diagnostics, (parse (lex source).tokens).diagnostics,
      lint config (parse (lex source).tokens).program tree, (parse (lex source).tokens).program,
      tree⟩ := by
  simp only [check, built]

theorem check_eq_error_iff {e : ScopeError} : check source config = .error e ↔
    buildScopes (parse (lex source).tokens).program = .error e := by
  cases built : buildScopes (parse (lex source).tokens).program with
  | ok tree => simp [check_of_ok built]
  | error e' => simp [check, built]

/-- A check answers, and with every diagnostic of the words and of the syntax, exactly if no two
    declarations of the tree are in conflict. Otherwise it gives up with the error of the second
    declaration of a conflict. -/
theorem check_answers_iff (source : String) (config : LintConfig) :
    ((∃ report, check source config = .ok report ∧ report.lexical = (lex source).diagnostics ∧
        report.syntactic = (parse (lex source).tokens).diagnostics) ↔
      ¬ ∃ first second, Conflict (parse (lex source).tokens).program first second) ∧
    ∀ e, check source config = .error e →
      ∃ first second, Conflict (parse (lex source).tokens).program first second ∧
        second.refusal? = some e := by
  refine ⟨?_, fun e failed => exists_conflict_of_error (check_eq_error_iff.1 failed)⟩
  cases built : buildScopes (parse (lex source).tokens).program with
  | ok tree =>
    refine iff_of_true ⟨_, check_of_ok built, rfl, rfl⟩ ?_
    rintro ⟨first, second, conflict⟩
    exact not_conflict_of_ok built first second conflict
  | error e =>
    have failed : check source config = .error e := check_eq_error_iff.2 built
    obtain ⟨first, second, conflict, -⟩ := exists_conflict_of_error built
    refine iff_of_false ?_ (not_not_intro ⟨first, second, conflict⟩)
    rintro ⟨report, answered, -⟩
    rw [failed] at answered
    cases answered

/-- Behind the fault in the class its function stands at the top, where the text has another one of
    the same signature: the diagnostic of the fault is lost. -/
theorem not_check_answers_recovered :
    let source := "class A\n  var = 1\n  function f()\nfunction f()\n"
    (parse (lex source).tokens).diagnostics.map (·.text) =
        ["2:7: error[parser]: Expected an identifier after 'var'"] ∧
      check source .standard = .error (.duplicateFunction "f()" ⟨⟨3, 0⟩, ⟨3, 12⟩⟩) := by
  intro source
  have faults : (parse (lex source).tokens).diagnostics.map (·.text) =
      ["2:7: error[parser]: Expected an identifier after 'var'"] := by
    decide +kernel
  have fails : (match buildScopes (parse (lex source).tokens).program with
      | .ok _ => none
      | .error e => some e) = some (.duplicateFunction "f()" ⟨⟨3, 0⟩, ⟨3, 12⟩⟩) := by
    decide +kernel
  refine ⟨faults, check_eq_error_iff.2 ?_⟩
  cases built : buildScopes (parse (lex source).tokens).program with
  | ok tree =>
    rw [built] at fails
    cases fails
  | error e =>
    rw [built] at fails
    exact congrArg Except.error (Option.some.inj fails)

end TekLang
