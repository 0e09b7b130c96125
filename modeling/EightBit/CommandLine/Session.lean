import EightBit.CommandLine.Options
import EightBit.Listing.File
import EightBit.Machine.Run
import EightBit.Output.Limited

/-! From the options and the text of the program to everything that the command line shows. -/
namespace EightBit.CommandLine

/-- What a run of the command line leaves behind. -/
structure Report where
  exitCode : Nat
  stdout : String
  /-- The texts of the error, from the general to the particular. -/
  chain : List String
  log : Array Entry
  deriving DecidableEq

/-- A machine with a memory of 256 cells and an output without limits. -/
def machine (memory : Memory 256) (log : Log) : Machine 256 Unlimited where
  processor := .startingAt 0
  memory
  output := ⟨.device, ""⟩
  log

def reportRun (program : String) (outcome : Outcome 256 Unlimited Interruption Nat) : Report :=
  let ⟨result, m⟩ := outcome
  match result with
  | .ok steps =>
    let log := m.log.record .info .commandLine fun _ =>
      "Executed " ++ decimal steps ++ " instructions"
    { exitCode := 0, stdout := m.output.printed, chain := [], log := log.entries }
  | .error e =>
    { exitCode := 1
      stdout := m.output.printed
      chain := ["`" ++ program ++ "` did not halt", e.message]
      log := m.log.entries }

/-- Loads the program from its content and runs it; `none` if a run without a step limit takes more
than `fuel` steps. -/
def execute (fuel : Nat) (o : Options) (content : Except ReadFailure String) : Option Report :=
  match Listing.loadFile o.program content Memory.zero (Log.empty o.logVerbosity) with
  | (.error e, log) => some { exitCode := 1, stdout := "", chain := e.chain, log := log.entries }
  | (.ok memory, log) =>
    ((machine memory log).runCounted fuel o.maxSteps).map (reportRun o.program)

def reportUsage : UsageError → Report
  | .helpRequested => { exitCode := 0, stdout := help, chain := [], log := #[] }
  | _ => { exitCode := 2, stdout := "", chain := [], log := #[] }

/-- The whole command line, with `options` to find the options in its words and `read` to read a
file. -/
def sessionWith (options : List String → Except UsageError Options) (fuel : Nat)
    (read : String → Except ReadFailure String) (words : List String) : Option Report :=
  match options words with
  | .ok o => execute fuel o (read o.program)
  | .error e => some (reportUsage e)

def session : Nat → (String → Except ReadFailure String) → List String → Option Report :=
  sessionWith Options.ofWords

end EightBit.CommandLine
