import TekLang.Scope.Build

/-!
# Walks

A walk goes through a tree in the order of the text and passes every node twice, on the way in and
on the way out. At each `Visit` it is known in which scope names are looked up at that place, and
which nodes stand around it. A node that opens a scope is itself visited in the scope outside.

`walker::Walker` calls back at each passage with a `WalkContext`. Here the passages are a list, and
what is called back is a function of a `Visit`.
-/

namespace TekLang

/-- Whether a node is passed in front of what is below it or behind. -/
inductive Phase
  | enter | leave
deriving DecidableEq, Inhabited, Repr

/-- A passage of a walk (`walker::WalkContext` with the node that is passed). -/
structure Visit where
  phase : Phase
  node : Node
  /-- The scope that the node stands in. -/
  scope : ScopeId
  /-- The nodes around the node, innermost first. -/
  parents : List Node

/-- Where the members of a class are visited: static ones in the scope of their own
    (`Walker::class`). -/
def memberScope (own statics : ScopeId) (member : Node) : ScopeId :=
  match member.form with
  | .classMember true _ => statics
  | _ => own

namespace Walk

mutual

/-- The visits to a node in `scope` and to all that is below it (`Walker::visit`). -/
def node (tree : ScopeTree) (parents : List Node) (scope : ScopeId) : Node → List Visit
  | ⟨id, span, form⟩ =>
    let n : Node := ⟨id, span, form⟩
    let own := (tree.ownScope? scope id).getD scope
    ⟨.enter, n, scope, parents⟩ ::
      (below tree (n :: parents) scope own form ++ [⟨.leave, n, scope, parents⟩])
termination_by structural n => n

/-- The visits to what is below a node that stands in `scope` and has opened `own` (the cases of
    `Walker::visit`, with `Walker::block` and `Walker::class`). -/
def below (tree : ScopeTree) (parents : List Node) (scope own : ScopeId) :
    Form Node → List Visit
  | .variableDecl _ type value => option tree parents scope type ++ option tree parents scope value
  | .functionDecl _ generics params result body =>
    list tree parents own generics ++ list tree parents own params ++
      option tree parents own result ++ bodyOf tree parents own body
  | .classDecl _ generics bases constructors statics instances =>
    let static := (tree.statics? own).getD own
    list tree parents own generics ++ list tree parents own bases ++
      (inSourceOrder Prod.fst
        (members tree parents own static constructors ++ members tree parents own static statics ++
          members tree parents own static instances)).flatMap Prod.snd
  | .importDecl _ _ exposed => list tree parents scope exposed
  | .assignment target value => node tree parents scope target ++ node tree parents scope value
  | .wrapped inner | .async inner => node tree parents scope inner
  | .unary _ operand => node tree parents scope operand
  | .binary left _ right => node tree parents scope left ++ node tree parents scope right
  | .call callee generics args =>
    node tree parents scope callee ++ list tree parents scope generics ++
      list tree parents scope args
  | .index object subscript =>
    node tree parents scope object ++ node tree parents scope subscript
  | .member object _ => node tree parents scope object
  | .new type args => node tree parents scope type ++ list tree parents scope args
  | .instanceOf value type => node tree parents scope value ++ node tree parents scope type
  | .array elements => list tree parents scope elements
  | .conditional _ condition body otherwise =>
    node tree parents scope condition ++ list tree parents own body ++
      option tree parents scope otherwise
  | .elseBranch _ body => list tree parents own body
  | .switch subject cases => node tree parents scope subject ++ list tree parents scope cases
  | .forEach _ type iterable body =>
    option tree parents scope type ++ node tree parents scope iterable ++
      list tree parents own body
  | .repeatTimes header body | .whileLoop header body =>
    node tree parents scope header ++ list tree parents own body
  | .tryCatch body handler => list tree parents own body ++ node tree parents scope handler
  | .throwStmt value | .yieldStmt value | .expressionStmt value => node tree parents scope value
  | .returnStmt value => option tree parents scope value
  | .program body => list tree parents scope body
  | .typeRef _ generics _ => list tree parents scope generics
  | .parameter _ type => node tree parents scope type
  | .generic _ bound => option tree parents scope bound
  | .classMember _ value => node tree parents scope value
  | .constructor params body => list tree parents own params ++ list tree parents own body
  | .switchCase conditions body =>
    list tree parents scope conditions ++ list tree parents own body
  | .catchClause _ type body => option tree parents scope type ++ list tree parents own body
  | .identifier _ | .this | .super | .literal .. | .jumpStmt _ | .importedName .. => []
termination_by structural form => form

/-- The visits to the nodes of a list, one after another (`Walker::visit_all`). -/
def list (tree : ScopeTree) (parents : List Node) (scope : ScopeId) : List Node → List Visit
  | [] => []
  | n :: ns => node tree parents scope n ++ list tree parents scope ns
termination_by structural ns => ns

/-- The visits to a node that may be missing. -/
def option (tree : ScopeTree) (parents : List Node) (scope : ScopeId) :
    Option Node → List Visit
  | none => []
  | some n => node tree parents scope n
termination_by structural n? => n?

/-- The visits to a body that may be missing. -/
def bodyOf (tree : ScopeTree) (parents : List Node) (scope : ScopeId) :
    Option (List Node) → List Visit
  | none => []
  | some ns => list tree parents scope ns
termination_by structural body => body

/-- For each of the members of a class where it starts and the visits to it. -/
def members (tree : ScopeTree) (parents : List Node) (own statics : ScopeId) :
    List Node → List (Position × List Visit)
  | [] => []
  | n :: ns =>
    (n.start, node tree parents (memberScope own statics n) n) ::
      members tree parents own statics ns
termination_by structural ns => ns

end

@[simp] theorem list_eq (tree : ScopeTree) (parents : List Node) (scope : ScopeId)
    (ns : List Node) : list tree parents scope ns = ns.flatMap (node tree parents scope) := by
  induction ns with
  | nil => simp [list]
  | cons n ns ih => simp [list, ih]

@[simp] theorem option_eq (tree : ScopeTree) (parents : List Node) (scope : ScopeId)
    (n? : Option Node) :
    option tree parents scope n? = n?.toList.flatMap (node tree parents scope) := by
  cases n? <;> simp [option]

@[simp] theorem bodyOf_eq (tree : ScopeTree) (parents : List Node) (scope : ScopeId)
    (body : Option (List Node)) :
    bodyOf tree parents scope body = (body.getD []).flatMap (node tree parents scope) := by
  cases body <;> simp [bodyOf]

@[simp] theorem members_eq (tree : ScopeTree) (parents : List Node) (own statics : ScopeId)
    (ns : List Node) :
    members tree parents own statics ns =
      ns.map fun n => (n.start, node tree parents (memberScope own statics n) n) := by
  induction ns with
  | nil => simp [members]
  | cons n ns ih => simp [members, ih]

end Walk

/-- The visits of the walk through a whole program (`Walker::walk`). -/
def walk (program : Node) (tree : ScopeTree) : List Visit :=
  Walk.node tree [] ScopeTree.root program

end TekLang
