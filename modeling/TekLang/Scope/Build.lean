import TekLang.Scope.Tree
import TekLang.Signature

/-!
# The scopes of a program

One pass over a tree opens the scopes and binds the names. A name that is declared again keeps its
first declaration, which is for the linter to report; but two classes of one name, or two functions
of one signature, in the same scope leave no way to tell them apart, and the pass gives up. The pass
is `scope::builder`.
-/

namespace TekLang

/-- Why a tree has no scopes (`scope::ScopeError`). -/
inductive ScopeError
  | duplicateClass (name : String) (span : Span)
  | duplicateFunction (signature : String) (span : Span)
  | unexpectedRoot (kind : NodeKind)
deriving DecidableEq, Inhabited, Repr

namespace ScopeError

/-- Says that `what` is declared again at `span`. -/
def taken (what : String) (span : Span) : String :=
  what ++ " is already declared in this scope (at " ++ span.start.text ++ ")"

/-- The error in words, with the place of the second declaration. -/
def message : ScopeError → String
  | duplicateClass name span => taken ("class '" ++ name ++ "'") span
  | duplicateFunction signature span => taken ("function '" ++ signature ++ "'") span
  | unexpectedRoot kind => "scope building must start at a program node, not " ++ kind.name

end ScopeError

/-- A step of the pass over a tree (`builder::Builder`). -/
abbrev ScopeBuild := EStateM ScopeError ScopeTree

namespace ScopeBuild

/-- Opens a scope for a node (`Builder::open`). -/
def openScope (kind : ScopeKind) (node : NodeId) (parent : ScopeId) : ScopeBuild ScopeId :=
  modifyGet fun tree => (tree.size, tree.openScope kind node parent)

/-- Opens the scope of the static members of a class. -/
def openStatics (node : NodeId) (ofClass : ScopeId) : ScopeBuild ScopeId :=
  modifyGet fun tree => (tree.size, tree.openStatics node ofClass)

/-- Binds a name unless it is bound already (`Builder::bind`). -/
def bind (scope : ScopeId) (name : String) (node : NodeId) : ScopeBuild Unit :=
  modify (·.bind scope name node)

/-- Binds a name that must not be bound already. -/
def bindNew (scope : ScopeId) (name : String) (node : NodeId) (taken : ScopeError) :
    ScopeBuild Unit := do
  if ((← get).table scope).has name then
    throw taken
  bind scope name node

/-- Binds the names that the nodes of a list declare: parameters of either sort
    (`Builder::bind_generics` and `Builder::bind_params`). -/
def bindNames (scope : ScopeId) (nodes : List Node) : ScopeBuild Unit :=
  nodes.forM fun n =>
    match n.form with
    | .generic name _ | .parameter name _ => bind scope name.lexeme n.id
    | _ => pure ()

/-- Binds what an import brings in: the listed names if there are any, else the module under its new
    name or the last part of its path. -/
def bindImport (scope : ScopeId) (node : NodeId) (path : List Token) (rename : Option Token)
    (exposed : List Node) : ScopeBuild Unit :=
  match rename with
  | some name => bind scope name.lexeme node
  | none =>
    if exposed.isEmpty then
      match path.getLast? with
      | some last => bind scope last.lexeme node
      | none => pure ()
    else
      exposed.forM fun n =>
        match n.declaredName? with
        | some name => bind scope name.lexeme n.id
        | none => pure ()

/-- Binds a function under its signature and registers it under its name. -/
def bindFunction (scope : ScopeId) (node : NodeId) (span : Span) (name : Token)
    (signature : String) : ScopeBuild Unit := do
  bindNew scope signature node (.duplicateFunction signature span)
  modify (·.register scope name.lexeme signature node)

/-- Binds a constructor of a class under its signature. -/
def bindConstructor (scope : ScopeId) (generics : List Node) (n : Node) : ScopeBuild Unit :=
  match n.form with
  | .constructor params _ => bind scope (Signature.ofConstructor generics params) n.id
  | _ => pure ()

mutual

/-- Opens the scopes of a node that stands in `scope` and binds what is declared there
    (`Builder::visit`). -/
def visit (scope : ScopeId) : Node → ScopeBuild Unit
  | ⟨id, span, form⟩ => visitForm scope id span form

/-- Does the same for a node of the given form (with `Builder::function`, `Builder::class` and
    `Builder::block`). -/
def visitForm (scope : ScopeId) (id : NodeId) (span : Span) : Form Node → ScopeBuild Unit
  | .variableDecl name _ value => do
    bind scope name.lexeme id
    visitOption scope value
  | .functionDecl name generics params _ body => do
    bindFunction scope id span name (Signature.ofFunction name generics params)
    let own ← openScope .function id scope
    bindNames own generics
    bindNames own params
    visitBody own body
  | .classDecl name generics _ constructors statics instances => do
    bindNew scope name.lexeme id (.duplicateClass name.lexeme name.span)
    let own ← openScope .instances id scope
    let static ← openStatics id own
    bindNames own generics
    visitConstructors own generics constructors
    visitList static statics
    visitList own instances
  | .importDecl path rename exposed => bindImport scope id path rename exposed
  | .conditional _ condition body otherwise => do
    visit scope condition
    let own ← openScope .block id scope
    visitList own body
    visitOption scope otherwise
  | .elseBranch _ body => do
    let own ← openScope .block id scope
    visitList own body
  | .assignment target value => do
    visit scope target
    visit scope value
  | .wrapped inner | .async inner | .unary _ inner | .member inner _ => visit scope inner
  | .binary left _ right => do
    visit scope left
    visit scope right
  | .call callee _ args => do
    visit scope callee
    visitList scope args
  | .index object subscript => do
    visit scope object
    visit scope subscript
  | .new _ args => visitList scope args
  | .instanceOf value _ => visit scope value
  | .array elements => visitList scope elements
  | .switch subject cases => do
    visit scope subject
    visitList scope cases
  | .switchCase conditions body => do
    visitList scope conditions
    let own ← openScope .block id scope
    visitList own body
  | .forEach name _ iterable body => do
    visit scope iterable
    let own ← openScope .block id scope
    bind own name.lexeme id
    visitList own body
  | .repeatTimes header body | .whileLoop header body => do
    visit scope header
    let own ← openScope .block id scope
    visitList own body
  | .tryCatch body handler => do
    let own ← openScope .block id scope
    visitList own body
    visit scope handler
  | .catchClause name _ body => do
    let own ← openScope .block id scope
    bind own name.lexeme id
    visitList own body
  | .throwStmt value | .yieldStmt value | .expressionStmt value | .classMember _ value =>
    visit scope value
  | .returnStmt value => visitOption scope value
  | .program body => visitList scope body
  | .constructor params body => do
    let own ← openScope .function id scope
    bindNames own params
    visitList own body
  | .identifier _ | .this | .super | .literal .. | .jumpStmt _ | .typeRef .. | .parameter ..
  | .generic .. | .importedName .. => pure ()

/-- Visits the nodes of a list one after another (`Builder::visit_all`). -/
def visitList (scope : ScopeId) : List Node → ScopeBuild Unit
  | [] => pure ()
  | n :: ns => do
    visit scope n
    visitList scope ns

/-- Visits a node that may be missing. -/
def visitOption (scope : ScopeId) : Option Node → ScopeBuild Unit
  | none => pure ()
  | some n => visit scope n

/-- Visits a body that may be missing. -/
def visitBody (scope : ScopeId) : Option (List Node) → ScopeBuild Unit
  | none => pure ()
  | some ns => visitList scope ns

/-- Binds and visits the constructors of a class. Two of one signature are left to the linter. -/
def visitConstructors (scope : ScopeId) (generics : List Node) : List Node → ScopeBuild Unit
  | [] => pure ()
  | n :: ns => do
    bindConstructor scope generics n
    visit scope n
    visitConstructors scope generics ns

end

end ScopeBuild

/-- The scopes of a program (`builder::build_scopes`). -/
def buildScopes (root : Node) : Except ScopeError ScopeTree :=
  match root.form with
  | .program body =>
    match (ScopeBuild.visitList ScopeTree.root body).run (.ofProgram root.id) with
    | .ok _ tree => .ok tree
    | .error e _ => .error e
  | _ => .error (.unexpectedRoot root.kind)

end TekLang
