import TekLang.Source.Entry

/-!
# Paths

A path leads from a directory to an entry, step by step, and paths are ordered by their steps. What
is found on the way down from a path lies at that path with the names on the way behind it.

Paths are texts, and bytes on a disk. They are compared by the bytes of their steps, which is the
order of the paths in `sources::load_sources`.
-/

namespace TekLang

/-! ### Steps -/

/-- A step of a path: to the root of all directories, to the directory where one is, to the one
    above, or to an entry. -/
inductive PathStep
  | root
  | here
  | above
  | entry (name : String)
deriving DecidableEq, Inhabited, Repr

namespace PathStep

/-- What steps are ordered by: their kinds first, then the bytes of their names. -/
def rank : PathStep → List Nat
  | root => [0]
  | here => [1]
  | above => [2]
  | entry name => 3 :: name.toByteArray.data.toList.map UInt8.toNat

/-- The step to what a piece of a path names. An empty piece and a dot lead nowhere. -/
def ofPiece? : List Char → Option PathStep
  | [] | ['.'] => none
  | ['.', '.'] => some above
  | piece => some (entry (String.ofList piece))

/-- The step that the beginning of a path stands for in itself. -/
def ofBeginning? : List Char → Option PathStep
  | '/' :: _ => some root
  | ['.'] | '.' :: '/' :: _ => some here
  | _ => none

end PathStep

/-- The pieces of a path between its slashes. -/
def cutAtSlashes : List Char → List (List Char)
  | [] => [[]]
  | c :: cs =>
    if c = '/' then [] :: cutAtSlashes cs
    else
      match cutAtSlashes cs with
      | [] => [[c]]
      | piece :: pieces => (c :: piece) :: pieces

/-- The steps of a path. -/
def pathSteps (path : String) : List PathStep :=
  (PathStep.ofBeginning? path.toList).toList ++
    (cutAtSlashes path.toList).filterMap PathStep.ofPiece?

/-- What paths are ordered by. -/
def pathRank (path : String) : List (List Nat) := (pathSteps path).map PathStep.rank

/-- Whether one path comes before the other: step by step, and byte by byte within a step. -/
def pathBefore (path other : String) : Bool :=
  List.lex (pathRank path) (pathRank other) fun rank rank' =>
    List.lex rank rank' fun byte byte' => decide (byte < byte')

/-! ### Names -/

/-- The path of the entry `name` in the directory at a path. A path that ends in a slash gets no
    second one. -/
def joinPath (path name : String) : String :=
  match path.toList.getLast? with
  | none | some '/' => path ++ name
  | some _ => path ++ "/" ++ name

/-- The path of something below `root`. -/
def pathBelow (root : String) : Location → String
  | [] => root
  | name :: names => pathBelow (joinPath root name) names

/-- What stands behind the last dot of a name, unless nothing stands in front of that dot. -/
def extension? (name : String) : Option String :=
  if name = ".." then none
  else
    match name.toList.reverse.dropWhile (· ≠ '.') with
    | [] | [_] => none
    | _ => some (String.ofList (name.toList.reverse.takeWhile (· ≠ '.')).reverse)

end TekLang
