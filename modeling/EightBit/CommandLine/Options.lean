import EightBit.Log

/-! The words of the command line and the options that they give. -/
namespace EightBit.CommandLine

structure Options where
  program : String
  trace : Bool
  verbosity : Verbosity
  /-- Zero means that there is no limit. -/
  maxSteps : Nat
  deriving DecidableEq

/-- Tracing asks for every log entry. -/
def Options.logVerbosity (o : Options) : Verbosity :=
  if o.trace then .upTo .trace else o.verbosity

/-- Why no program is run. -/
inductive UsageError where
  | helpRequested
  | unknownWord
  | unexpectedValue
  | valueRequired
  | malformedValue
  | repeatedOption
  | programRequired
  deriving DecidableEq

/-- The options that take a value. -/
inductive Setting where
  | verbosity | maxSteps
  deriving DecidableEq

/-- The latest word that asks for a decision, which the words behind it may bring. -/
inductive Pending where
  | nothing
  | awaiting (setting : Setting)
  | value (setting : Setting) (text : String)
  | program (path : String)
  deriving DecidableEq

/-- The options as far as they are settled. -/
structure Draft where
  program : Option String
  trace : Bool
  verbosity : Option Verbosity
  maxSteps : Option Nat
  pending : Pending
  /-- No options follow after a double dash. -/
  closed : Bool
  deriving DecidableEq

namespace Draft

def start : Draft where
  program := none
  trace := false
  verbosity := none
  maxSteps := none
  pending := .nothing
  closed := false

/-- A setting is made once; its value is looked at only then. -/
def set (d : Draft) (setting : Setting) (text : String) : Except UsageError Draft :=
  match setting with
  | .verbosity =>
    if d.verbosity.isSome then .error .repeatedOption
    else
      match Verbosity.ofName? text with
      | some v => .ok { d with verbosity := some v }
      | none => .error .malformedValue
  | .maxSteps =>
    if d.maxSteps.isSome then .error .repeatedOption
    else
      match unsigned? 10 UInt64.size text.toList with
      | some n => .ok { d with maxSteps := some n }
      | none => .error .malformedValue

/-- Decides about the pending word. -/
def settle (d : Draft) : Except UsageError Draft :=
  let rest := { d with pending := .nothing }
  match d.pending with
  | .nothing => .ok rest
  | .awaiting _ => .error .valueRequired
  | .value setting text => rest.set setting text
  | .program path =>
    if path.isEmpty then .error .valueRequired else .ok { rest with program := some path }

def hasProgram (d : Draft) : Bool :=
  match d.pending with
  | .program _ => true
  | _ => d.program.isSome

/-- A word that is no option names the program; there is only one. -/
def takeProgram (d : Draft) (word : String) : Except UsageError Draft := do
  if d.hasProgram then throw .unknownWord
  let d ← d.settle
  return { d with pending := .program word }

def takeSetting (d : Draft) (setting : Setting) (value : Option (List Char)) :
    Except UsageError Draft := do
  let d ← d.settle
  match value with
  | some cs => d.set setting (String.ofList cs)
  | none => return { d with pending := .awaiting setting }

/-- Takes an option by its long name, with the value that an equals sign attaches to it. -/
def takeLong (d : Draft) (name : String) (value : Option (List Char)) :
    Except UsageError Draft := do
  match name with
  | "log-level" => d.takeSetting .verbosity value
  | "max-steps" => d.takeSetting .maxSteps value
  | "trace" =>
    if value.isSome then throw .unexpectedValue
    let d ← d.settle
    if d.trace then throw .repeatedOption
    return { d with trace := true }
  | "help" =>
    if value.isSome then throw .unexpectedValue
    let _ ← d.settle
    throw .helpRequested
  | _ => throw .unknownWord

def takePlain (d : Draft) (word : String) : Except UsageError Draft :=
  match d.pending with
  | .awaiting setting => .ok { d with pending := .value setting word }
  | _ => d.takeProgram word

/-- Takes the next word. A single dash is no option. -/
def take (d : Draft) (word : String) : Except UsageError Draft :=
  if d.closed then d.takeProgram word
  else
    match word.toList with
    | ['-', '-'] => .ok { d with closed := true }
    | '-' :: '-' :: cs =>
      let name := cs.takeWhile (· ≠ '=')
      let value := match cs.dropWhile (· ≠ '=') with
        | _ :: value => some value
        | [] => none
      d.takeLong (String.ofList name) value
    | '-' :: 'h' :: _ =>
      match d.settle with
      | .ok _ => .error .helpRequested
      | .error e => .error e
    | '-' :: _ :: _ => .error .unknownWord
    | _ => d.takePlain word

def finish (d : Draft) : Except UsageError Options :=
  match d.settle with
  | .error e => .error e
  | .ok d =>
    match d.program with
    | none => .error .programRequired
    | some program => .ok {
        program
        trace := d.trace
        verbosity := d.verbosity.getD (.upTo .warn)
        maxSteps := d.maxSteps.getD 0 }

end Draft

def Options.ofWords (words : List String) : Except UsageError Options := do
  let d ← words.foldlM Draft.take .start
  d.finish

def help : String :=
  String.intercalate "\n" [
    "Runs an LS-8 program listing",
    "",
    "Usage: ls8 [OPTIONS] <PROGRAM>",
    "",
    "Arguments:",
    "  <PROGRAM>  Path to the program listing (one binary byte per line)",
    "",
    "Options:",
    "      --trace                  Log every fetched instruction together with the registers",
    "      --log-level <LOG_LEVEL>  Maximum level of log messages written to stderr "
      ++ "[default: WARN]",
    "      --max-steps <MAX_STEPS>  Abort after this many instructions (0 means no limit) "
      ++ "[default: 0]",
    "  -h, --help                   Print help",
    ""]

end EightBit.CommandLine
