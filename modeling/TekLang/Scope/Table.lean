import TekLang.Node.Basic

/-!
# Symbol tables

What is declared in one scope: names with the node that declared each of them first, and for the
name of a function all functions of that name. The two parts are independent of each other, for a
function is bound under its signature and not under its name. The operations are those of
`scope::symbols`, whose hash maps are lists here: nothing depends on the order within a map.
-/

namespace TekLang

/-- Scopes are numbered in the order in which they are opened (`scope::ScopeId`, a number of 32
    bits; here it has no bound). -/
abbrev ScopeId := Nat

/-- A declaration: the node that declares and the scope that it declares in
    (`symbols::SymbolEntry`). -/
structure SymbolEntry where
  node : NodeId
  scope : ScopeId
deriving DecidableEq, Inhabited, Repr

/-- One of the functions that share a name (`symbols::FunctionEntry`). -/
structure Overload where
  signature : String
  entry : SymbolEntry
deriving DecidableEq, Inhabited, Repr

/-- The declarations of a scope in the order in which they were made (`symbols::SymbolTable`). -/
structure SymbolTable where
  symbols : List (String × SymbolEntry)
  registry : List (String × Overload)
deriving DecidableEq, Inhabited, Repr

namespace SymbolTable

/-- Nothing is declared. -/
def empty : SymbolTable := ⟨[], []⟩

/-- What a name was bound to first (`SymbolTable::get`). -/
def get? (t : SymbolTable) (name : String) : Option SymbolEntry := t.symbols.lookup name

/-- Whether a name is bound (`SymbolTable::has`). -/
def has (t : SymbolTable) (name : String) : Bool := (t.get? name).isSome

/-- Binds a name. A name that is bound already keeps what it was bound to
    (`SymbolTable::bind`). -/
def bind (t : SymbolTable) (name : String) (entry : SymbolEntry) : SymbolTable :=
  if t.has name then t else { t with symbols := t.symbols ++ [(name, entry)] }

/-- The functions of a name in the order in which they were registered
    (`SymbolTable::functions`). -/
def overloads (t : SymbolTable) (name : String) : List Overload :=
  (t.registry.filter (·.1 = name)).map (·.2)

/-- Whether a function is registered under the name (`SymbolTable::has_function`). -/
def hasFunction (t : SymbolTable) (name : String) : Bool := t.registry.any (·.1 = name)

/-- Registers a function under its plain name (`SymbolTable::add_function`). -/
def register (t : SymbolTable) (name : String) (overload : Overload) : SymbolTable :=
  { t with registry := t.registry ++ [(name, overload)] }

/-- How many names are bound (`SymbolTable::len`). -/
def size (t : SymbolTable) : Nat := t.symbols.length

/-- Whether nothing is declared, neither a name nor a function (`SymbolTable::is_empty`). -/
def isEmpty (t : SymbolTable) : Bool := t.symbols.isEmpty && t.registry.isEmpty

@[simp] theorem overloads_register (t : SymbolTable) (name other : String) (f : Overload) :
    (t.register name f).overloads other =
      t.overloads other ++ if name = other then [f] else [] := by
  unfold register overloads
  by_cases h : name = other <;> simp [h]

@[simp] theorem get?_register (t : SymbolTable) (name other : String) (f : Overload) :
    (t.register name f).get? other = t.get? other := rfl

theorem hasFunction_iff (t : SymbolTable) (name : String) :
    t.hasFunction name = true ↔ t.overloads name ≠ [] := by
  simp [hasFunction, overloads]

/-- The first binding of a name wins. -/
theorem get?_bind (t : SymbolTable) (name other : String) (entry : SymbolEntry) :
    (t.bind name entry).get? other =
      (t.get? other).or (if name = other then some entry else none) := by
  unfold bind has get?
  by_cases bound : (t.symbols.lookup name).isSome
  · simp only [bound, ↓reduceIte]
    by_cases h : name = other
    · subst h
      obtain ⟨e, he⟩ := Option.isSome_iff_exists.1 bound
      simp [he]
    · simp [h]
  · simp only [bound, Bool.false_eq_true, ↓reduceIte]
    by_cases h : name = other
    · simp [List.lookup_append, h]
    · simp [List.lookup_append, List.lookup_cons, h, beq_false_of_ne (Ne.symm h)]

@[simp] theorem overloads_bind (t : SymbolTable) (name other : String) (entry : SymbolEntry) :
    (t.bind name entry).overloads other = t.overloads other := by
  unfold bind
  split <;> rfl

end SymbolTable

end TekLang
