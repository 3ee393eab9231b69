import TekLang.Span

/-!
# Configuration of the linter

Which rules are left out and which names are defined everywhere. Both are sets of names: `NameSet`
lists each name once, in the order of code points.
-/

namespace TekLang

/-- Names without repetition, in increasing order. -/
structure NameSet where
  names : List String
deriving DecidableEq, Inhabited, Repr

namespace NameSet

/-- No names. -/
def empty : NameSet := ⟨[]⟩

/-- Puts a name where it belongs unless it is there. -/
def insertName (name : String) : List String → List String
  | [] => [name]
  | other :: names =>
    if name < other then name :: other :: names
    else if name = other then other :: names
    else other :: insertName name names

/-- Adds a name. -/
def insert (s : NameSet) (name : String) : NameSet := ⟨insertName name s.names⟩

/-- Adds all names of a list. -/
def insertAll (s : NameSet) (names : List String) : NameSet := names.foldl insert s

/-- Whether a name is in the set. -/
def contains (s : NameSet) (name : String) : Bool := s.names.contains name

theorem mem_insertName {name other : String} {names : List String} :
    other ∈ insertName name names ↔ other = name ∨ other ∈ names := by
  induction names with
  | nil => simp [insertName]
  | cons head tail ih =>
    unfold insertName
    split
    · simp
    · split
      · rename_i same
        simp [same]
      · simp only [List.mem_cons, ih]
        exact or_left_comm

@[simp] theorem contains_insert (s : NameSet) (name other : String) :
    (s.insert name).contains other = (decide (other = name) || s.contains other) := by
  simp [contains, insert, mem_insertName]

end NameSet

/-- The names that every program can use: types first, then functions (`builtins::BUILTINS`). -/
def builtins : List String :=
  ["any", "int", "number", "string", "boolean", "void", "Array", "Object", "Error", "print",
    "input", "len"]

/-- What the linter is told beforehand (`lint::LintConfig`). -/
structure LintConfig where
  /-- The rules that do not run. Names that are no rule's do nothing. -/
  disabled : NameSet
  /-- The names that count as defined everywhere. -/
  globals : NameSet
deriving DecidableEq, Inhabited, Repr

namespace LintConfig

/-- All rules run, and the built-in names are defined (`LintConfig::default`). -/
def standard : LintConfig := ⟨.empty, NameSet.empty.insertAll builtins⟩

/-- Leaves out further rules. -/
def disable (config : LintConfig) (rules : List String) : LintConfig :=
  { config with disabled := config.disabled.insertAll rules }

/-- Takes further names for defined. -/
def define (config : LintConfig) (names : List String) : LintConfig :=
  { config with globals := config.globals.insertAll names }

end LintConfig

end TekLang
