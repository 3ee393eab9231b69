import TekLang.Lint.Config
import TekLang.Diagnostic
import TekLang.Walk

/-!
# Rules

A rule looks at every node once, when a walk comes to it, and reports what it finds there. In `lint`
a rule registers one callback for each kind of node that it cares for; `check` puts them together.
-/

namespace TekLang

/-- Where a rule stands: the node it looks at, the nodes around it, and its scope among the scopes
    of the program. -/
structure Site where
  tree : ScopeTree
  node : Node
  scope : ScopeId
  parents : List Node

/-- What a rule reports, and of which part of the text (`Report::report`). -/
structure Finding where
  message : String
  span : Span
deriving DecidableEq, Inhabited, Repr

/-- A rule with its name, which reports carry, and what is to be said of it in a list of rules
    (`lint::LintRule`, less its level). -/
structure Rule where
  name : String
  description : String
  check : Site → List Finding

/-- A finding as the author of the text is told. -/
def Finding.diagnostic (rule : String) (f : Finding) : Diagnostic := ⟨rule, f.message, f.span⟩

/-- A visit with the scopes of the program that is walked through. -/
def Visit.site (v : Visit) (tree : ScopeTree) : Site := ⟨tree, v.node, v.scope, v.parents⟩

end TekLang
