/-!
# Files and directories

What a directory tree holds, as far as sources are concerned: regular files with their bytes and
directories with named entries. `Entry.find?` follows a written path, and `Entry.walk` goes through
all that is at an entry or below it.

This stands for the file system that `sources` reads. Names are texts here and bytes on a disk, so
a file whose name is no text has no place in a tree of entries; nor have links, devices and files
that may not be read.
-/

namespace TekLang

/-- A regular file, with its bytes, or a directory, with its entries by their names. -/
inductive Entry
  | file (contents : ByteArray)
  | directory (entries : List (String × Entry))

/-- The names that lead from a directory to something below it. -/
abbrev Location := List String

namespace Entry

/-- A directory without entries. -/
def nothing : Entry := .directory []

mutual

/-- An entry and all entries below it, with their locations. This is one way to go through a
    directory; the order of the entries is that in which the directory lists them. -/
def walk : Entry → List (Location × Entry)
  | .file contents => [([], .file contents)]
  | .directory entries => ([], .directory entries) :: walkIn entries

/-- The entries of a directory and all entries below them. -/
def walkIn : List (String × Entry) → List (Location × Entry)
  | [] => []
  | (name, entry) :: entries =>
    entry.walk.map (fun (location, found) => (name :: location, found)) ++ walkIn entries

end

/-- Follows a path that has been cut at its slashes, from an entry with the directories `above` it.
    Every step but the last has to lead to a directory, and so does one that is empty or a dot. -/
def follow : List String → Entry → List Entry → Option Entry
  | [], here, _ => some here
  | _ :: _, .file _, _ => none
  | step :: steps, .directory entries, above =>
    if step = "" ∨ step = "." then follow steps (.directory entries) above
    else if step = ".." then
      match above with
      | [] => none
      | parent :: above => follow steps parent above
    else
      match entries.lookup step with
      | none => none
      | some entry => follow steps entry (.directory entries :: above)

/-- What is found at a path that starts in the directory `here`, if there is anything. Nothing is
    known of what lies outside. -/
def find? (here : Entry) (path : String) : Option Entry :=
  if path = "" ∨ path.startsWith "/" then none else follow (path.splitOn "/") here []

/-- Replaces the entry `name` of a directory; where there is none, `nothing` is replaced. -/
def update (name : String) (f : Entry → Entry) : List (String × Entry) → List (String × Entry)
  | [] => [(name, f nothing)]
  | (other, entry) :: entries =>
    if other = name then (name, f entry) :: entries else (other, entry) :: update name f entries

/-- The entry that takes the place of another one. A directory that is there already stays. -/
def inPlaceOf (leaf : Entry) (here : Entry) : Entry :=
  match leaf, here with
  | .directory [], .directory entries => .directory entries
  | leaf, _ => leaf

/-- Puts an entry at a location below another one and makes the directories on the way. -/
def put (leaf : Entry) : Location → Entry → Entry
  | [], here => leaf.inPlaceOf here
  | name :: names, .file _ => .directory [(name, put leaf names nothing)]
  | name :: names, .directory entries => .directory (update name (put leaf names) entries)

end Entry

end TekLang
