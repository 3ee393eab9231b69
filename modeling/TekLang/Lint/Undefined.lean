import TekLang.Lint.Rule

/-!
# Using a name that nothing declares

A name has to be declared where it can be seen, or be a global one. The same goes for a type that is
a single name; a longer path is a matter of the module that it begins with. The rule is
`rules::NoUndefined`.
-/

namespace TekLang.Undefined

/-- Whether a name means anything at a site. -/
def isDefined (globals : NameSet) (site : Site) (name : String) : Bool :=
  site.tree.hasSymbol site.scope name || site.tree.hasFunction site.scope name ||
    globals.contains name

/-- The name that a node uses, if it uses one. -/
def usedName? : Form Node → Option Token
  | .identifier name => some name
  | .typeRef [name] _ _ => some name
  | _ => none

/-- The name that a site uses, if nothing declares it (`no_undefined::check`). -/
def check (globals : NameSet) (site : Site) : List Finding :=
  match usedName? site.node.form with
  | none => []
  | some name =>
    if isDefined globals site name.lexeme then []
    else [⟨"No symbol with the name '" ++ name.lexeme ++ "'", name.span⟩]

/-- Every name that is used is declared. -/
def rule (globals : NameSet) : Rule :=
  ⟨"no-undefined", "Report references to undefined variables", check globals⟩

end TekLang.Undefined
