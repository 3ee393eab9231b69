import TekLang.Source.Load

/-!
# The command line

`Options.ofArgs` reads the arguments and `Options.run` does what they ask for. Both are functions:
what is on disk and on standard input is given to them, and what is to be printed is their result.
-/

namespace TekLang

/-- What the arguments ask for (`Cli`). -/
structure Options where
  /-- What to check; without paths, standard input is checked. -/
  paths : List String
  /-- The rules that are not to run. -/
  disabled : List String
  /-- Names that count as defined everywhere. -/
  globals : List String
  listRules : Bool
  verbose : Bool
deriving DecidableEq, Inhabited, Repr

/-- What is wrong with the arguments. -/
inductive UsageFault
  | unknownOption (arg : String)
  | missingValue (option : String)
  | unexpectedValue (option : String)
  | givenTwice (option : String)
  | emptyPath
deriving DecidableEq, Inhabited, Repr

/-- The fault in words. -/
def UsageFault.message : UsageFault → String
  | unknownOption arg => "unexpected argument '" ++ arg ++ "' found"
  | missingValue option => "a value is required for '" ++ option ++ "' but none was supplied"
  | unexpectedValue option => "unexpected value for '" ++ option ++ "' found"
  | givenTwice option => "the argument '" ++ option ++ "' cannot be used multiple times"
  | emptyPath => "a value is required for '[PATH]...' but none was supplied"

/-- What ends the reading of arguments early. -/
inductive EarlyEnd
  | help
  | version
  | fault (fault : UsageFault)
deriving DecidableEq, Inhabited, Repr

/-- The options that are there or not. -/
inductive Flag
  | listRules | verbose | help | version
deriving DecidableEq, Inhabited, Repr

/-- The flag that is written out behind two hyphens. -/
def Flag.ofLong? : String → Option Flag
  | "list-rules" => some .listRules
  | "verbose" => some .verbose
  | "help" => some .help
  | "version" => some .version
  | _ => none

/-- The flag that is a single letter behind one hyphen. -/
def Flag.ofShort? : Char → Option Flag
  | 'v' => some .verbose
  | 'h' => some .help
  | 'V' => some .version
  | _ => none

/-- The options that take a value and may be given any number of times. -/
inductive Setter
  | disable | define
deriving DecidableEq, Inhabited, Repr

/-- The option that is written out behind two hyphens. -/
def Setter.ofLong? : String → Option Setter
  | "disable" => some .disable
  | "global" => some .define
  | _ => none

namespace Options

/-- Nothing is asked for yet. -/
def blank : Options := ⟨[], [], [], false, false⟩

/-- Takes account of a flag, which was given as `arg`. -/
def setFlag (o : Options) (arg : String) : Flag → Except EarlyEnd Options
  | .help => .error .help
  | .version => .error .version
  | .listRules =>
    if o.listRules then .error (.fault (.givenTwice arg)) else .ok { o with listRules := true }
  | .verbose =>
    if o.verbose then .error (.fault (.givenTwice arg)) else .ok { o with verbose := true }

/-- Takes account of a value. -/
def setValue (o : Options) (value : String) : Setter → Options
  | .disable => { o with disabled := o.disabled ++ [value] }
  | .define => { o with globals := o.globals ++ [value] }

/-- Adds a path. -/
def addPath (o : Options) (path : String) : Except EarlyEnd Options :=
  if path = "" then .error (.fault .emptyPath) else .ok { o with paths := o.paths ++ [path] }

/-- Takes account of single letters that were given together as `arg`. -/
def setLetters (arg : String) : List Char → Options → Except EarlyEnd Options
  | [], o => .ok o
  | c :: cs, o =>
    match Flag.ofShort? c with
    | none => .error (.fault (.unknownOption arg))
    | some flag =>
      match o.setFlag arg flag with
      | .error e => .error e
      | .ok o => setLetters arg cs o

/-- Cuts the text of a long option at its first equals sign. -/
def cutValue (text : List Char) : String × Option String :=
  match text.dropWhile (· ≠ '=') with
  | [] => (String.ofList text, none)
  | _ :: value => (String.ofList (text.takeWhile (· ≠ '=')), some (String.ofList value))

/-- Whether an argument is an option and so cannot be the value of one. A hyphen alone is none. -/
def isOption (arg : String) : Bool := arg.startsWith "-" && arg ≠ "-"

/-- Reads arguments that are all paths. -/
def readPaths : List String → Options → Except EarlyEnd Options
  | [], o => .ok o
  | path :: paths, o =>
    match o.addPath path with
    | .error e => .error e
    | .ok o => readPaths paths o

/-- Reads arguments one after another. Behind two hyphens all arguments are paths. -/
def read : List String → Options → Except EarlyEnd Options
  | [], o => .ok o
  | arg :: args, o =>
    match arg.toList with
    | ['-', '-'] => readPaths args o
    | '-' :: '-' :: text =>
      let (name, value) := cutValue text
      match Flag.ofLong? name, Setter.ofLong? name, value with
      | some flag, _, none =>
        match o.setFlag arg flag with
        | .error e => .error e
        | .ok o => read args o
      | some _, _, some _ => .error (.fault (.unexpectedValue arg))
      | none, some setter, some value => read args (o.setValue value setter)
      | none, some setter, none =>
        match args with
        | [] => .error (.fault (.missingValue arg))
        | value :: args =>
          if isOption value then .error (.fault (.missingValue arg))
          else read args (o.setValue value setter)
      | none, none, _ => .error (.fault (.unknownOption arg))
    | '-' :: letter :: letters =>
      match setLetters arg (letter :: letters) o with
      | .error e => .error e
      | .ok o => read args o
    | _ =>
      match o.addPath arg with
      | .error e => .error e
      | .ok o => read args o

/-- What the arguments ask for. -/
def ofArgs (args : List String) : Except EarlyEnd Options := read args blank

/-- The configuration of the linter that is asked for (`Cli::lint_config`). -/
def config (o : Options) : LintConfig := (LintConfig.standard.disable o.disabled).define o.globals

end Options

/-- What a run of the program leaves behind: the exit code and the lines that it prints. -/
structure Outcome where
  code : UInt32
  out : List String
  err : List String
deriving DecidableEq, Inhabited, Repr

namespace Outcome

/-- The lines that explain the options. -/
def helpLines : List String :=
  ["Check Tek sources for syntax errors and lint problems", "",
    "Usage: tek [OPTIONS] [PATH]...", "",
    "Arguments:", "  [PATH]...  Files or directories to check; reads stdin when omitted", "",
    "Options:",
    "      --disable <RULE>  Do not run the named lint rule",
    "      --global <NAME>   Treat NAME as defined in every file",
    "      --list-rules      Print the available lint rules and exit",
    "  -v, --verbose         Log each pipeline phase to stderr",
    "  -h, --help            Print help",
    "  -V, --version         Print version"]

/-- What there is to say if the arguments do not lead to a check. -/
def ofEarlyEnd : EarlyEnd → Outcome
  | .help => ⟨0, helpLines, []⟩
  | .version => ⟨0, ["tek 0.1.0"], []⟩
  | .fault fault =>
    ⟨2, [], ["error: " ++ fault.message, "", "Usage: tek [OPTIONS] [PATH]...", "",
      "For more information, try '--help'."]⟩

/-- The end of a run that got as far as the lines `out` and then failed. -/
def failed (out : List String) (context : String) (reason : String) : Outcome :=
  ⟨1, out, [context ++ ": " ++ reason]⟩

/-- The end of a run that found as many problems as it printed lines. -/
def ofProblems (lines : List String) : Outcome :=
  match lines with
  | [] => ⟨0, [], []⟩
  | [line] => ⟨1, [line], ["found 1 problem"]⟩
  | lines => ⟨1, lines, ["found " ++ toString lines.length ++ " problems"]⟩

end Outcome

namespace Options

/-- A text in a column of at least `width` characters. -/
def inColumn (width : Nat) (text : String) : String :=
  text ++ String.ofList (List.replicate (width - text.length) ' ')

/-- The rules with their descriptions, one in a line. -/
def ruleLines (config : LintConfig) : List String :=
  config.rules.map fun rule => inColumn 28 rule.name ++ rule.description

/-- The diagnostics of a source, one in a line (`print_diagnostics`). -/
def problemLines (path : String) (report : Report) : List String :=
  report.diagnostics.map fun d => path ++ ":" ++ d.text

/-- Checks what stands on standard input. -/
def runOnInput (config : LintConfig) (input : ByteArray) : Outcome :=
  match String.fromUTF8? input with
  | none => .failed [] "failed to read source from stdin" CheckFault.invalidText
  | some source =>
    match checkText config source with
    | .error fault => .failed [] "failed to check <stdin>" fault.chain
    | .ok report => .ofProblems (problemLines "<stdin>" report)

/-- Checks what is found at each of the paths; `lines` has been printed before. -/
def runOnPaths (config : LintConfig) (find? : String → Option Entry) :
    List String → List String → Outcome
  | [], lines => .ofProblems lines
  | root :: roots, lines =>
    match checkSources config root (find? root) with
    | .error fault => .failed lines ("failed to check " ++ root) fault.chain
    | .ok results =>
      runOnPaths config find? roots
        (lines ++ results.flatMap fun (file, report) => problemLines file.path report)

/-- Does what is asked for, where `find?` tells what is found at a path and `input` is what stands
    on standard input (`execute`). -/
def run (o : Options) (find? : String → Option Entry) (input : ByteArray) : Outcome :=
  if o.listRules then ⟨0, ruleLines o.config, []⟩
  else if o.paths.isEmpty then runOnInput o.config input
  else runOnPaths o.config find? o.paths []

end Options

/-- A run of the program on arguments, files and standard input (`main`, less the printing). -/
def runCommand (args : List String) (find? : String → Option Entry) (input : ByteArray) : Outcome :=
  match Options.ofArgs args with
  | .error e => .ofEarlyEnd e
  | .ok options => options.run find? input

end TekLang
