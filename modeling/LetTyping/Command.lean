import LetTyping.Check
import LetTyping.Log
import LetTyping.Report

/-!
# The command line

The command checks one program, from a file or from the standard input, and shows its type, the
types of its declarations, and what is wrong with it.

## Main definitions

* `Options` — what the arguments of the command ask for.
* `Request.ofArgs` — reads the arguments.
* `Output` — what the command shows, and its exit code.
* `run` — carries a request out.
-/

namespace LetTyping

/-! ### Arguments -/

/-- What is known from the arguments read so far. -/
structure Options where
  /-- The file to check, or `-` for the standard input. -/
  file : Option String := none
  /-- Whether the free names of the program stay unresolved. -/
  noPrelude : Bool := false
  /-- Whether only faults and problems are shown. -/
  quiet : Bool := false
  /-- How often more log lines were asked for. -/
  verbosity : Nat := 0

/-- What the arguments of the command ask for. -/
inductive Request where
  /-- The arguments make no sense. -/
  | refused
  /-- An account of the arguments. -/
  | help
  /-- The version of the program. -/
  | version
  /-- A check of the given file. -/
  | check (file : String) (options : Options)

namespace Options

/-- Takes the next file name.  There is only one, and it is not empty. -/
def takeFile (o : Options) (name : String) : Except Request Options :=
  if name = "" ∨ o.file.isSome then .error .refused else .ok { o with file := some name }

/-- Takes the option not to use the prelude, which may be given once. -/
def takeNoPrelude (o : Options) : Except Request Options :=
  if o.noPrelude then .error .refused else .ok { o with noPrelude := true }

/-- Takes the option to be quiet, which may be given once. -/
def takeQuiet (o : Options) : Except Request Options :=
  if o.quiet then .error .refused else .ok { o with quiet := true }

/-- Takes the option to show more log lines. -/
def takeVerbose (o : Options) : Options := { o with verbosity := o.verbosity + 1 }

/-- Takes the letters of an argument with one dash. -/
def takeLetters (o : Options) : List Char → Except Request Options
  | [] => .ok o
  | 'q' :: letters => do takeLetters (← o.takeQuiet) letters
  | 'v' :: letters => takeLetters o.takeVerbose letters
  | 'h' :: _ => .error .help
  | 'V' :: _ => .error .version
  | _ => .error .refused

/-- Takes the word of an argument with two dashes. -/
def takeWord (o : Options) : String → Except Request Options
  | "no-prelude" => o.takeNoPrelude
  | "quiet" => o.takeQuiet
  | "verbose" => .ok o.takeVerbose
  | "help" => .error .help
  | "version" => .error .version
  | _ => .error .refused

/-- Takes one argument.  A single dash is a file name. -/
def takeArg (o : Options) (arg : String) : Except Request Options :=
  match arg.toList with
  | '-' :: '-' :: word => o.takeWord (String.ofList word)
  | '-' :: letter :: letters => o.takeLetters (letter :: letters)
  | _ => o.takeFile arg

/-- Takes all the arguments.  After two dashes on their own only file names follow. -/
def takeArgs (o : Options) : List String → Except Request Options
  | [] => .ok o
  | "--" :: names => names.foldlM takeFile o
  | arg :: args => do takeArgs (← o.takeArg arg) args

end Options

/-- Reads the arguments of the command. -/
def Request.ofArgs (args : List String) : Request :=
  match Options.takeArgs {} args with
  | .error request => request
  | .ok options =>
    match options.file with
    | some file => .check file options
    | none => .refused

/-! ### Reading the program -/

/-- Why a program could not be read. -/
inductive ReadFailure where
  | missing
  | denied
  | notDirectory
  | directory
  | notText
  /-- Any other reason, in words. -/
  | other (reason : String)

/-- Why a program could not be read, in words. -/
def ReadFailure.message : ReadFailure → String
  | missing => "No such file or directory (os error 2)"
  | denied => "Permission denied (os error 13)"
  | notDirectory => "Not a directory (os error 20)"
  | directory => "Is a directory (os error 21)"
  | notText => "stream did not contain valid UTF-8"
  | other reason => reason

/-- The text of some bytes. -/
def decodeText (bytes : ByteArray) : Except ReadFailure String :=
  match String.fromUTF8? bytes with
  | some text => .ok text
  | none => .error .notText

/-- Whether a file name stands for the standard input. -/
def isStandardInput (file : String) : Bool := file = "-"

/-- How a file is called in reports. -/
def displayName (file : String) : String := if isStandardInput file then "<stdin>" else file

/-- What is shown when a program could not be read. -/
def readFailureLine (file : String) (failure : ReadFailure) : String :=
  let subject := if isStandardInput file then "stdin" else "file '" ++ file ++ "'"
  "Error reading " ++ subject ++ ": " ++ failure.message

/-! ### Carrying a request out -/

/-- What the command shows, and its exit code. -/
structure Output where
  /-- The exit code. -/
  code : Nat
  /-- The text on the standard output. -/
  stdout : String := ""
  /-- The reports with their places. -/
  reports : List (Report × String) := []
  /-- Other lines about what went wrong. -/
  plain : List String := []
  /-- The lines of the log. -/
  logs : List String := []

/-- The name and the version of the program. -/
def versionLine : String := "letpoly 0.1.0\n"

/-- The filter for a verbosity: warnings and, step by step, everything. -/
def Filter.ofVerbosity : Nat → Filter
  | 0 => [⟨"", some .warn⟩]
  | 1 => [⟨"", some .info⟩]
  | 2 => [⟨"", some .debug⟩]
  | _ => [⟨"", some .trace⟩]

/-- The filter of a run: the one that is set from outside, if it can be read, and otherwise the one
for the verbosity. -/
def Options.filter (o : Options) (setting : Option String) : Filter :=
  (setting.bind Filter.parse?).getD (Filter.ofVerbosity o.verbosity)

/-- Reports with their places in a program. -/
def placed (file source : String) (reports : List Report) : List (Report × String) :=
  reports.map fun r => (r, r.place (displayName file) source)

/-- Checks a program that was read. -/
def runCheck (file : String) (options : Options) (setting : Option String) (source : String) :
    Output :=
  let (result, events) := check (!options.noPrelude) source
  let events := .checking (displayName file) source.utf8ByteSize :: events
  let logs := (events.filter (options.filter setting).admits).map Event.line
  match result with
  | .error fault => { code := 1, reports := placed file source [.ofFault fault], logs }
  | .ok checked =>
    let shown := "// Program type: " ++ checked.programType ++ "\n" ++ checked.declarationLines
    { code := if checked.isOk then 0 else 1
      stdout := if options.quiet then "" else shown
      reports := placed file source (checked.problems.map .ofProblem)
      logs }

/-- Carries a request out, given the bytes of the file it names and the log filter that is set from
outside. -/
def run (request : Request) (bytes : Except ReadFailure ByteArray) (setting : Option String) :
    Output :=
  match request with
  | .refused => { code := 2 }
  | .help => { code := 0 }
  | .version => { code := 0, stdout := versionLine }
  | .check file options =>
    match bytes.bind decodeText with
    | .error failure => { code := 1, plain := [readFailureLine file failure] }
    | .ok source => runCheck file options setting source

end LetTyping
