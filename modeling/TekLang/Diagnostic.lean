import TekLang.Span

/-!
# Diagnostics

What is told to the author of a text. Each part of the checker keeps a type of its own for what can
be wrong and turns it into a `Diagnostic` last of all.
-/

namespace TekLang

/-- A problem in a text: who found it, what it is and where it stands (`diagnostic::Diagnostic`,
    less its level, which is the same for all). -/
structure Diagnostic where
  source : String
  message : String
  span : Span
deriving DecidableEq, Inhabited, Repr

namespace Diagnostic

/-- How grave a problem is (`diagnostic::Level`). Nothing is ever reported but errors. -/
def severity : String := "error"

/-- One line: the place, the severity, who found it and what it is (`Diagnostic::fmt`). -/
def text (d : Diagnostic) : String :=
  d.span.start.text ++ ": " ++ severity ++ "[" ++ d.source ++ "]: " ++ d.message

end Diagnostic

end TekLang
