import TekLang.Node.Descendants

/-!
# Signatures

Functions of one name may live side by side as long as their parameters differ in type. A signature
is the name of a function with the types of its parameters, and it tells such functions apart. A
generic parameter counts by its place only: `f<T>(a: T)` and `f<U>(b: U)` are both `f($0)`. The
texts are those of `scope::mangle`.
-/

namespace TekLang

/-- The texts of a list with `separator` between any two. -/
def joined (separator : String) : List String → String
  | [] => ""
  | [s] => s
  | s :: t :: ts => s ++ separator ++ joined separator (t :: ts)

namespace Signature

/-- The names of generic parameters in order (`mangle::generic_names`). -/
def genericNames (generics : List Node) : List String :=
  generics.filterMap fun g =>
    match g.form with
    | .generic name _ => some name.lexeme
    | _ => none

/-- The path of a type. A single name that is a generic parameter becomes its place. -/
def pathText (generics : List String) : List Token → String
  | [single] =>
    match generics.idxOf? single.lexeme with
    | some place => "$" ++ toString place
    | none => single.lexeme
  | path => joined "." (path.map (·.lexeme))

/-- As many pairs of brackets as an array has dimensions. -/
def brackets : Nat → String
  | 0 => ""
  | depth + 1 => "[]" ++ brackets depth

/-- Type arguments that have been written out. -/
def argumentsText : List String → String
  | [] => ""
  | texts => "<" ++ joined "," texts ++ ">"

mutual

/-- A type as text (`mangle::render_type`). -/
def typeText (generics : List String) : Node → String
  | ⟨_, _, .typeRef path arguments depth⟩ =>
    pathText generics path ++ argumentsText (typeTexts generics arguments) ++ brackets depth
  | _ => ""

/-- The types of a list as texts. -/
def typeTexts (generics : List String) : List Node → List String
  | [] => []
  | n :: ns => typeText generics n :: typeTexts generics ns

end

@[simp] theorem typeTexts_eq (generics : List String) (ns : List Node) :
    typeTexts generics ns = ns.map (typeText generics) := by
  induction ns with
  | nil => rfl
  | cons n ns ih => simp [typeTexts, ih]

/-- The types of parameters as texts. -/
def parameterTypes (generics : List String) (params : List Node) : List String :=
  params.filterMap fun p =>
    match p.form with
    | .parameter _ type => some (typeText generics type)
    | _ => none

/-- A name and, in parentheses, the types of the parameters (`mangle::signature`). -/
def text (name : String) (generics : List String) (params : List Node) : String :=
  name ++ "(" ++ joined "," (parameterTypes generics params) ++ ")"

/-- The signature of a function with generic parameters of its own (`mangle::function`). -/
def ofFunction (name : Token) (generics params : List Node) : String :=
  text name.lexeme (genericNames generics) params

/-- The signature of a constructor of a class with the given generic parameters
    (`mangle::constructor`). -/
def ofConstructor (classGenerics params : List Node) : String :=
  text "new" (genericNames classGenerics) params

/-- The signature of a function or constructor; the latter takes the generic parameters of its
    class (`mangle::of_node`). -/
def ofForm? (classGenerics : List Node) : Form Node → Option String
  | .functionDecl name generics params _ _ => some (ofFunction name generics params)
  | .constructor params _ => some (ofConstructor classGenerics params)
  | _ => none

/-- For every constructor of a class its identity and the generic parameters of the class. -/
def constructorGenerics (n : Node) : List (NodeId × List Node) :=
  match n.form with
  | .classDecl _ generics _ constructors _ _ => constructors.map fun c => (c.id, generics)
  | _ => []

/-- The signatures of all functions and constructors of a tree. -/
def all (root : Node) : List (NodeId × String) :=
  let nodes := root.descendants
  let owned := nodes.flatMap constructorGenerics
  nodes.filterMap fun n => (ofForm? ((owned.lookup n.id).getD []) n.form).map (n.id, ·)

end Signature

end TekLang
