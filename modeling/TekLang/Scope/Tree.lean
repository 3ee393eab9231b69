import TekLang.Scope.Table

/-!
# Scope trees

A scope is a region of a program in which names are declared. The scopes of a program form a tree;
each knows those around it and finds those that were opened directly in it by the node which opened
them. A class has two scopes, one for its instances and inside it one for its static members, and
names are looked up from the static members past the instances.

The tree is `scope::ScopeTree`. There a scope knows the next one outwards only and lookups climb;
here it keeps all of those around it from the moment when it is opened, as they never change.
-/

namespace TekLang

/-- What a scope is the region of (`scope::ScopeKind`). -/
inductive ScopeKind
  | program | function | instances | statics | block
deriving DecidableEq, Inhabited, Repr

/-- A region of a program (`scope::Scope`). -/
structure Scope where
  kind : ScopeKind
  /-- The node that opened the scope. -/
  node : NodeId
  /-- The scopes around this one, innermost first. -/
  around : List ScopeId
  table : SymbolTable
  /-- The scopes opened directly in this one, each with the node that opened it. -/
  inner : List (NodeId × ScopeId)
  /-- The scope of the static members, for a class. -/
  statics : Option ScopeId
deriving Inhabited, Repr

/-- The next scope outwards (`Scope::parent`). -/
def Scope.parent? (s : Scope) : Option ScopeId := s.around.head?

/-- The scopes of a program in the order in which they were opened (`scope::ScopeTree`). -/
structure ScopeTree where
  scopes : Array Scope
deriving Inhabited, Repr

namespace ScopeTree

/-- The scope of the whole program (`ScopeTree::root`). -/
def root : ScopeId := 0

/-- A program in which nothing is declared yet (`ScopeTree::new`). -/
def ofProgram (node : NodeId) : ScopeTree := ⟨#[⟨.program, node, [], .empty, [], none⟩]⟩

/-- How many scopes there are; the next one opened gets this number (`ScopeTree::len`). -/
def size (tree : ScopeTree) : Nat := tree.scopes.size

/-- The scope with the given number (`ScopeTree::get`). -/
def get? (tree : ScopeTree) (id : ScopeId) : Option Scope := tree.scopes[id]?

/-- Changes one scope. -/
def modify (tree : ScopeTree) (id : ScopeId) (f : Scope → Scope) : ScopeTree :=
  ⟨tree.scopes.modify id f⟩

/-- A scope and all around it, innermost first. -/
def path (tree : ScopeTree) (id : ScopeId) : List ScopeId :=
  match tree.get? id with
  | none => []
  | some scope => id :: scope.around

/-- Adds a scope inside `parent`; it gets the next number (`ScopeTree::alloc`). -/
def allocate (tree : ScopeTree) (kind : ScopeKind) (node : NodeId) (parent : ScopeId) : ScopeTree :=
  ⟨tree.scopes.push ⟨kind, node, tree.path parent, .empty, [], none⟩⟩

/-- Opens a scope for a node (`ScopeTree::open`). -/
def openScope (tree : ScopeTree) (kind : ScopeKind) (node : NodeId) (parent : ScopeId) :
    ScopeTree :=
  (tree.allocate kind node parent).modify parent fun s =>
    { s with inner := s.inner ++ [(node, tree.size)] }

/-- Opens the scope of the static members of a class. It belongs to the node of the class and is not
    found by it (`ScopeTree::open_static`). -/
def openStatics (tree : ScopeTree) (node : NodeId) (ofClass : ScopeId) : ScopeTree :=
  (tree.allocate .statics node ofClass).modify ofClass fun s =>
    { s with statics := some tree.size }

/-- Binds a name in a scope. -/
def bind (tree : ScopeTree) (scope : ScopeId) (name : String) (node : NodeId) : ScopeTree :=
  tree.modify scope fun s => { s with table := s.table.bind name ⟨node, scope⟩ }

/-- Registers a function in a scope under its plain name. -/
def register (tree : ScopeTree) (scope : ScopeId) (name signature : String) (node : NodeId) :
    ScopeTree :=
  tree.modify scope fun s =>
    { s with table := s.table.register name ⟨signature, ⟨node, scope⟩⟩ }

/-- The declarations of a scope. -/
def table (tree : ScopeTree) (id : ScopeId) : SymbolTable :=
  ((tree.get? id).map (·.table)).getD .empty

/-- What a scope is the region of. -/
def kind? (tree : ScopeTree) (id : ScopeId) : Option ScopeKind := (tree.get? id).map (·.kind)

/-- The next scope outwards. -/
def parent? (tree : ScopeTree) (id : ScopeId) : Option ScopeId := (tree.get? id).bind Scope.parent?

/-- Leaves out every scope that comes directly behind a static one: the class it belongs to. -/
def skipInstances (tree : ScopeTree) : List ScopeId → List ScopeId
  | [] => []
  | [id] => [id]
  | id :: around :: outer =>
    id :: if tree.kind? id = some .statics then skipInstances tree outer
      else skipInstances tree (around :: outer)

/-- The scopes that a name used in a scope is looked up in, innermost first
    (`ScopeTree::lookup_chain`). -/
def lookupChain (tree : ScopeTree) (id : ScopeId) : List ScopeId :=
  tree.skipInstances (tree.path id)

/-- What a name used in a scope refers to (`ScopeTree::get_symbol`). -/
def symbol? (tree : ScopeTree) (id : ScopeId) (name : String) : Option SymbolEntry :=
  (tree.lookupChain id).findSome? fun s => (tree.table s).get? name

/-- Whether a name used in a scope refers to anything (`ScopeTree::has_symbol`). -/
def hasSymbol (tree : ScopeTree) (id : ScopeId) (name : String) : Bool :=
  (tree.symbol? id name).isSome

/-- Whether a function of the name can be used in a scope (`ScopeTree::has_function`). -/
def hasFunction (tree : ScopeTree) (id : ScopeId) (name : String) : Bool :=
  (tree.lookupChain id).any fun s => (tree.table s).hasFunction name

/-- The functions of a name that can be used in a scope, those of inner scopes first
    (`ScopeTree::functions`). -/
def overloads (tree : ScopeTree) (id : ScopeId) (name : String) : List Overload :=
  (tree.lookupChain id).flatMap fun s => (tree.table s).overloads name

/-- The scope that a node opened directly in the scope `id` (`ScopeTree::own_scope`). -/
def ownScope? (tree : ScopeTree) (id : ScopeId) (node : NodeId) : Option ScopeId :=
  (tree.get? id).bind (·.inner.lookup node)

/-- The scope that a node opened in the scope `id` or one around it (`ScopeTree::find_scope`). -/
def findScope? (tree : ScopeTree) (id : ScopeId) (node : NodeId) : Option ScopeId :=
  (tree.path id).findSome? (tree.ownScope? · node)

/-- The scope of the static members of a class (`ScopeTree::static_scope`). -/
def statics? (tree : ScopeTree) (id : ScopeId) : Option ScopeId := (tree.get? id).bind (·.statics)

end ScopeTree

end TekLang
