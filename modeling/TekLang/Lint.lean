import TekLang.Lint.Redeclaration
import TekLang.Lint.Undefined
import TekLang.Lint.Placement

/-!
# The linter

All rules are put to every node on one walk. What they report comes in the order of the text.
-/

namespace TekLang

/-- Every rule, whether it runs or not (`lint::default_rules`). -/
def LintConfig.rules (config : LintConfig) : List Rule :=
  [Redeclaration.rule, Undefined.rule config.globals, ClassPlacement.rule, ControlPlacement.rule,
    ClassBody.rule, IfValue.rule]

/-- Whether a rule runs (`Linter::is_enabled`). -/
def LintConfig.isEnabled (config : LintConfig) (rule : Rule) : Bool :=
  !config.disabled.contains rule.name

/-- What the rules report of one site, rule by rule. -/
def Site.diagnostics (site : Site) (rules : List Rule) : List Diagnostic :=
  rules.flatMap fun r => (r.check site).map (Finding.diagnostic r.name)

/-- What the rules that run report of a program. Reports of the same place stay in the order in
    which they were made (`Linter::lint`). -/
def lint (config : LintConfig) (program : Node) (tree : ScopeTree) : List Diagnostic :=
  let rules := config.rules.filter config.isEnabled
  let entered := (walk program tree).filter (·.phase = .enter)
  inSourceOrder (·.span.start) (entered.flatMap fun v => (v.site tree).diagnostics rules)

end TekLang
