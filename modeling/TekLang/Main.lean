import TekLang.CommandLine

/-!
# The program

Fetches what the arguments name, lets `runCommand` decide and prints what it says.
-/

namespace TekLang.Main

/-- What is on disk at a path. -/
partial def fetch (path : String) : IO (Option Entry) := do
  let place ← try pure (some (← IO.FS.realPath path)) catch _ => pure none
  match place with
  | none => return none
  | some place =>
    if ← place.isDir then
      let mut entries := []
      for found in ← place.readDir do
        if let some entry ← fetch found.path.toString then
          entries := (found.fileName, entry) :: entries
      return some (.directory entries)
    else
      try
        return some (.file (← IO.FS.readBinFile place))
      catch _ =>
        return none

/-- All that is left on a stream. -/
partial def readAll (stream : IO.FS.Stream) (soFar : ByteArray) : IO ByteArray := do
  let chunk ← stream.read 65536
  if chunk.isEmpty then return soFar else readAll stream (soFar ++ chunk)

/-- What is needed of disk and standard input in order to do what the arguments ask for. -/
def run (args : List String) : IO Outcome := do
  match Options.ofArgs args with
  | .error e => return .ofEarlyEnd e
  | .ok options =>
    let mut found := []
    let mut input := ByteArray.empty
    if !options.listRules then
      for path in options.paths do
        found := (path, ← fetch path) :: found
      if options.paths.isEmpty then
        input ← readAll (← IO.getStdin) ByteArray.empty
    return options.run (fun path => (found.lookup path).join) input

end TekLang.Main

/-- Runs the program on its arguments. -/
def main (args : List String) : IO UInt32 := do
  let outcome ← TekLang.Main.run args
  for line in outcome.out do
    IO.println line
  for line in outcome.err do
    IO.eprintln line
  return outcome.code
