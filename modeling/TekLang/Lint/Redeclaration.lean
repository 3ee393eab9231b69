import TekLang.Lint.Rule

/-!
# Declaring a name that is in use

A declaration may not take a name that is in use where it stands, whether in the same scope or in
one around it. Members of a class are no obstacle to the code of its methods. The rule is
`rules::IllegalRedeclaration`.
-/

namespace TekLang.Redeclaration

/-- The scopes whose declarations count in `id`, which has `around` around it, innermost first. A
    class and its static members only count themselves, and what stands directly in a class goes on
    with the scope around the class. -/
def relevant (tree : ScopeTree) : List ScopeId → List ScopeId
  | [] => []
  | [id] => [id]
  | id :: next :: outer =>
    if tree.kind? id = some .instances ∨ tree.kind? id = some .statics then [id]
    else id :: if tree.kind? next = some .instances then relevant tree outer
      else relevant tree (next :: outer)

/-- The declaration that a new one of the same name in `scope` runs into: the outermost
    (`illegal_redeclaration::find_declaration`). -/
def declaration? (tree : ScopeTree) (scope : ScopeId) (name : String) : Option SymbolEntry :=
  (relevant tree (tree.path scope)).reverse.findSome? fun s => (tree.table s).get? name

/-- Says that a name is taken; `what` is the sort of thing declared (`already_used`). -/
def alreadyUsed (what : String) (name : Token) : Finding :=
  ⟨"You can't declare a " ++ what ++ " with the name '" ++ name.lexeme ++
    "', because it is already used", name.span⟩

/-- Whether another node declares the name of `node` where it matters in `scope`. -/
def isTaken (tree : ScopeTree) (scope : ScopeId) (node : NodeId) (name : String) : Bool :=
  (declaration? tree scope name).any (·.node ≠ node)

/-- Looks at the name that a node declares as if it stood in `scope` (`check_declaration`). -/
def checkName (site : Site) (scope : ScopeId) (what : String) : List Finding :=
  match site.node.declaredName? with
  | none => []
  | some name =>
    if isTaken site.tree scope site.node.id name.lexeme || site.tree.hasFunction scope name.lexeme
    then [alreadyUsed what name] else []

/-- Functions of one name may stand side by side. A function may not take the name of anything else,
    nor repeat the signature of a function further out (`check_function`). -/
def checkFunction (site : Site) (name : Token) (signature : String) : List Finding :=
  if (declaration? site.tree site.scope name.lexeme).isSome ||
      isTaken site.tree site.scope site.node.id signature
  then [alreadyUsed "function" name] else []

/-- The nodes of a list whose key an earlier one has already. -/
def repeated (key : Node → Option String) : List Node → List String → List Node
  | [], _ => []
  | n :: ns, seen =>
    match key n with
    | none => repeated key ns seen
    | some k => if k ∈ seen then n :: repeated key ns seen else repeated key ns (k :: seen)

/-- The constructors of a class that have the signature of an earlier one (`check_class`). -/
def checkConstructors (generics constructors : List Node) : List Finding :=
  let signature (n : Node) : Option String :=
    match n.form with
    | .constructor params _ => some (Signature.ofConstructor generics params)
    | _ => none
  (repeated signature constructors []).map fun n =>
    ⟨"Identical constructor overload exists", n.span⟩

/-- The generic parameters that have the name of an earlier one. The generic parameters of a class
    are looked at from outside the class, where they cannot be seen (`check_class`). -/
def checkGenerics (generics : List Node) : List Finding :=
  (repeated (fun n => n.declaredName?.map (·.lexeme)) generics []).filterMap fun n =>
    n.declaredName?.map (alreadyUsed "generic")

/-- The scope that a generic parameter is looked at from: for a class the one around it. -/
def scopeOfGeneric (tree : ScopeTree) (scope : ScopeId) : ScopeId :=
  if tree.kind? scope = some .instances then (tree.parent? scope).getD scope else scope

/-- What is declared at a site although its name is in use (`IllegalRedeclaration::create`). -/
def check (site : Site) : List Finding :=
  match site.node.form with
  | .variableDecl .. | .forEach .. | .catchClause .. => checkName site site.scope "variable"
  | .parameter .. => checkName site site.scope "param"
  | .importedName .. => checkName site site.scope "import"
  | .functionDecl name generics params _ _ =>
    checkFunction site name (Signature.ofFunction name generics params)
  | .classDecl _ generics _ constructors _ _ =>
    checkName site site.scope "class" ++ checkConstructors generics constructors ++
      checkGenerics generics
  | .importDecl _ rename exposed =>
    if rename.isSome || exposed.isEmpty then checkName site site.scope "import" else []
  | .generic .. => checkName site (scopeOfGeneric site.tree site.scope) "generic"
  | _ => []

/-- No declaration takes a name that is in use. -/
def rule : Rule := ⟨"illegal-redeclaration", "Report illegal redeclarations", check⟩

end TekLang.Redeclaration
