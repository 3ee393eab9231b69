import TekLang.Check
import TekLang.Source.Path

/-!
# Sources

A path leads to a source or to a directory of sources. Of a directory all files with the extension
`tek` count, however deep they lie, in the order of their locations; a path that leads to a file
takes that file, whatever it is called.
-/

namespace TekLang

/-- A source: where it was found and what it holds (`sources::SourceFile`). -/
structure SourceFile where
  path : String
  contents : String
deriving DecidableEq, Inhabited, Repr

/-- Why sources cannot be checked (`error::CoreError`). Of the ways in which reading may fail, the
    one that depends on what is read is there: bytes that are no text. -/
inductive CheckFault
  | missing (path : String)
  | notUtf8
  | noScopes (error : ScopeError)
deriving DecidableEq, Inhabited, Repr

namespace CheckFault

/-- What bytes that are no text are called. -/
def invalidText : String := "stream did not contain valid UTF-8"

/-- The fault in words. -/
def message : CheckFault → String
  | missing path => "source path was not found at " ++ path
  | notUtf8 => "failed to read source: " ++ invalidText
  | noScopes error => "internal compiler error: " ++ error.message

/-- What a fault comes from, if it comes from another one. -/
def cause? : CheckFault → Option String
  | missing _ => none
  | notUtf8 => some invalidText
  | noScopes error => some error.message

/-- The fault and what it comes from in one line. -/
def chain (fault : CheckFault) : String :=
  match fault.cause? with
  | none => fault.message
  | some cause => fault.message ++ ": " ++ cause

end CheckFault

/-- The extension of sources (`sources::SOURCE_EXTENSION`). -/
def sourceExtension : String := "tek"

/-- Whether what lies at the location is called like a source. -/
def isNamedSource (location : Location) : Bool :=
  location.getLast?.bind extension? = some sourceExtension

/-- The bytes of what was found, if it is a source. A directory is none, whatever it is called. -/
def source? : Location × Entry → Option (Location × ByteArray)
  | (location, .file contents) => if isNamedSource location then some (location, contents) else none
  | (_, .directory _) => none

/-- Reads the source at a path as text. -/
def readSource (path : String) (contents : ByteArray) : Except CheckFault SourceFile :=
  match String.fromUTF8? contents with
  | none => .error .notUtf8
  | some text => .ok ⟨path, text⟩

/-- The order of sources is that of their paths. -/
def SourceFile.le (a b : SourceFile) : Bool := !pathBefore b.path a.path

/-- Reads sources that lie below `root` and puts them in order; all of them or none. -/
def readSources (root : String) (sources : List (Location × ByteArray)) :
    Except CheckFault (List SourceFile) := do
  let files ← sources.mapM fun (location, contents) => readSource (pathBelow root location) contents
  return files.mergeSort SourceFile.le

/-- The sources at the path `root`, where `found` is. All that is at a directory or below it is gone
    through by `walk` (`sources::load_sources`). -/
def loadSourcesBy (walk : Entry → List (Location × Entry)) (root : String) (found : Option Entry) :
    Except CheckFault (List SourceFile) :=
  match found with
  | none => .error (.missing root)
  | some (.file contents) => do return [← readSource root contents]
  | some (.directory entries) => readSources root ((walk (.directory entries)).filterMap source?)

/-- The sources at the path `root`, where `found` is. -/
def loadSources (root : String) (found : Option Entry) : Except CheckFault (List SourceFile) :=
  loadSourcesBy Entry.walk root found

/-- Checks a text; that it has no scopes is a fault of the check (`compiler::check_source`). -/
def checkText (config : LintConfig) (source : String) : Except CheckFault Report :=
  match check source config with
  | .error e => .error (.noScopes e)
  | .ok report => .ok report

/-- Checks the sources at a path. The first one that cannot be checked ends it
    (`compiler::check_path`). -/
def checkSources (config : LintConfig) (root : String) (found : Option Entry) :
    Except CheckFault (List (SourceFile × Report)) := do
  let files ← loadSources root found
  files.mapM fun file => do
    let report ← checkText config file.contents
    return (file, report)

end TekLang
