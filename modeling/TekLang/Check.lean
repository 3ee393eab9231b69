import TekLang.Token.Layout
import TekLang.Grammar.Program
import TekLang.Lint

/-!
# Checking a text

A text is read, its scopes are built and the linter looks at it. Faults of the text do not stop the
check: the linter then sees the tree of what could be read.
-/

namespace TekLang

/-- What has been found out about a text (`compiler::CheckOutput`). -/
structure Report where
  lexical : List Diagnostic
  syntactic : List Diagnostic
  lint : List Diagnostic
  program : Node
  tree : ScopeTree

namespace Report

/-- All diagnostics: of the words, of the syntax, of the linter (`CheckOutput::diagnostics`). -/
def diagnostics (r : Report) : List Diagnostic := r.lexical ++ r.syntactic ++ r.lint

/-- Whether there is nothing to tell (`CheckOutput::is_clean`). -/
def isClean (r : Report) : Bool := r.diagnostics.isEmpty

end Report

/-- Checks a text (`compiler::check_source`). -/
def check (source : String) (config : LintConfig) : Except ScopeError Report :=
  let lexed := lex source
  let parsed := parse lexed.tokens
  match buildScopes parsed.program with
  | .error e => .error e
  | .ok tree =>
    let found := lint config parsed.program tree
    .ok ⟨lexed.diagnostics, parsed.diagnostics, found, parsed.program, tree⟩

end TekLang
