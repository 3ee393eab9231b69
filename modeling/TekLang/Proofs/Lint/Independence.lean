import TekLang.Proofs.Lint.Reports

/-!
# Rules side by side

All rules go along on one walk and write to one list. What each of them reports, and in which order,
does not depend on which of the others run: leaving a rule out, or taking a name for defined, only
takes reports away from those that are made when everything is looked at.
-/

namespace TekLang

namespace Undefined

/-- What is said of a name that nothing declares. -/
def complaint (name : String) : String := "No symbol with the name '" ++ name ++ "'"

theorem eq_of_surrounded {first last name other : String}
    (same : first ++ name ++ last = first ++ other ++ last) : name = other := by
  have chars := congrArg String.toList same
  simp only [String.toList_append, List.append_right_inj, List.append_left_inj] at chars
  exact String.toList_injective chars

theorem complaint_injective {name other : String} (same : complaint name = complaint other) :
    name = other := eq_of_surrounded same

/-- Global names only take findings away. -/
theorem check_eq_filter (globals : NameSet) (site : Site) :
    check globals site =
      (check .empty site).filter fun f => !globals.names.any (f.message = complaint ·) := by
  unfold check
  cases usedName? site.node.form with
  | none => rfl
  | some name =>
    have known : globals.names.any (complaint name.lexeme = complaint ·) =
        globals.contains name.lexeme := by
      rw [Bool.eq_iff_iff, List.any_eq_true, NameSet.contains, List.contains_iff_mem]
      constructor
      · rintro ⟨other, member, same⟩
        rwa [complaint_injective (of_decide_eq_true same)]
      · intro member
        exact ⟨_, member, decide_eq_true rfl⟩
    have strict : isDefined .empty site name.lexeme =
        (site.tree.hasSymbol site.scope name.lexeme ||
          site.tree.hasFunction site.scope name.lexeme) := Bool.or_false _
    have defined : isDefined globals site name.lexeme =
        (isDefined .empty site name.lexeme || globals.contains name.lexeme) := by
      rw [strict]
      rfl
    have said : "No symbol with the name '" ++ name.lexeme ++ "'" = complaint name.lexeme := rfl
    dsimp only
    rw [defined, said]
    cases isDefined .empty site name.lexeme with
    | true => rfl
    | false =>
      rw [Bool.false_or, if_neg Bool.false_ne_true, List.filter_singleton, known]
      cases globals.contains name.lexeme <;> rfl

end Undefined

namespace LintConfig

/-- Every rule runs, and no name is defined beforehand. -/
def strict : LintConfig := ⟨.empty, .empty⟩

/-- Whether a report is made under a configuration: its rule runs, and it does not complain of a
    global name. -/
def keeps (config : LintConfig) (d : Diagnostic) : Bool :=
  !config.disabled.contains d.source &&
    !(d.source = "no-undefined" && config.globals.names.any (d.message = Undefined.complaint ·))

/-- What a rule reports of a site under a configuration. -/
def reports (config : LintConfig) (site : Site) (r : Rule) : List Diagnostic :=
  if config.isEnabled r then (r.check site).map (Finding.diagnostic r.name) else []

theorem diagnostics_eq (config : LintConfig) (site : Site) (rules : List Rule) :
    site.diagnostics (rules.filter config.isEnabled) = rules.flatMap (config.reports site) := by
  unfold Site.diagnostics
  induction rules with
  | nil => rfl
  | cons r rules ih =>
    rw [List.filter_cons, List.flatMap_cons, ← ih, reports]
    split <;> rfl

theorem reports_strict (site : Site) (r : Rule) :
    strict.reports site r = (r.check site).map (Finding.diagnostic r.name) := rfl

/-- A rule that has nothing to do with undefined names reports what it always does, or nothing. -/
theorem reports_eq_filter (config : LintConfig) (site : Site) {r : Rule}
    (other : r.name ≠ "no-undefined") :
    config.reports site r = (strict.reports site r).filter config.keeps := by
  have kept (f : Finding) : config.keeps (f.diagnostic r.name) = config.isEnabled r := by
    simp [keeps, isEnabled, Finding.diagnostic, other]
  rw [reports_strict, List.filter_map, reports]
  cases runs : config.isEnabled r <;> simp [Function.comp_def, kept, runs]

theorem reports_undefined (config : LintConfig) (site : Site) :
    config.reports site (Undefined.rule config.globals) =
      (strict.reports site (Undefined.rule .empty)).filter config.keeps := by
  have kept (f : Finding) : config.keeps (f.diagnostic (Undefined.rule .empty).name) =
      (config.isEnabled (Undefined.rule config.globals) &&
        !config.globals.names.any (f.message = Undefined.complaint ·)) := by
    have own :
        decide ((f.diagnostic (Undefined.rule .empty).name).source = "no-undefined") = true :=
      rfl
    rw [keeps, own, Bool.true_and]
    rfl
  rw [reports_strict, List.filter_map, reports]
  cases runs : config.isEnabled (Undefined.rule config.globals) with
  | false => simp [Function.comp_def, kept, runs]
  | true =>
    simp only [Function.comp_def, kept, runs, Bool.true_and]
    exact congrArg _ (Undefined.check_eq_filter config.globals site)

/-- Of a single site, what is reported under a configuration is what is left of all reports. -/
theorem flatMap_reports (config : LintConfig) (site : Site) :
    config.rules.flatMap (config.reports site) =
      (strict.rules.flatMap (strict.reports site)).filter config.keeps := by
  rw [List.filter_flatMap]
  simp only [rules, List.flatMap_cons, List.flatMap_nil]
  rw [reports_undefined]
  rw [reports_eq_filter config site (r := Redeclaration.rule) (by decide),
    reports_eq_filter config site (r := ClassPlacement.rule) (by decide),
    reports_eq_filter config site (r := ControlPlacement.rule) (by decide),
    reports_eq_filter config site (r := ClassBody.rule) (by decide),
    reports_eq_filter config site (r := IfValue.rule) (by decide)]
  rfl

end LintConfig

/-- What is reported under a configuration is, in the same order, what is left of the reports of all
    rules without global names. Names in the configuration that are no rule's do nothing. -/
theorem lint_eq_filter_strict (config : LintConfig) (program : Node) (tree : ScopeTree) :
    lint config program tree = (lint .strict program tree).filter config.keeps ∧
      lint config program tree =
        lint ⟨⟨config.disabled.names.filter (config.rules.map (·.name)).contains⟩, config.globals⟩
          program tree := by
  constructor
  · unfold lint
    rw [← inSourceOrder_filter, List.filter_flatMap]
    refine congrArg _ (List.flatMap_congr fun v _ => ?_)
    rw [LintConfig.diagnostics_eq, LintConfig.diagnostics_eq, LintConfig.flatMap_reports]
  · have runs : ∀ r ∈ config.rules, config.isEnabled r = LintConfig.isEnabled
        ⟨⟨config.disabled.names.filter (config.rules.map (·.name)).contains⟩,
          config.globals⟩ r := by
      intro r there
      have known : r.name ∈ config.rules.map (·.name) := List.mem_map_of_mem there
      simp only [LintConfig.isEnabled, NameSet.contains]
      simp [List.contains_eq_mem, List.mem_filter, known]
    unfold lint
    rw [List.filter_congr runs]
    rfl

end TekLang
