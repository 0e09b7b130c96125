import EightBit.CommandLine.Session

/-! The command line. -/
namespace EightBit.CommandLine

def readProgram (path : String) : IO (Except ReadFailure String) := do
  try
    let content ← IO.FS.readBinFile path
    return Folder.decode content
  catch e =>
    match e with
    | .noFileOrDirectory .. => return .error .missing
    | .inappropriateType .. => return .error .isDirectory
    | e => return .error (.other e.toString)

def usageText : UsageError → String
  | .helpRequested => ""
  | .unknownWord => "unexpected argument found"
  | .unexpectedValue => "unexpected value for an option without one"
  | .valueRequired => "a value is required but none was supplied"
  | .malformedValue => "invalid value for an option"
  | .repeatedOption => "an option cannot be used multiple times"
  | .programRequired => "the following required argument was not provided: <PROGRAM>"

def present (report : Report) : IO UInt32 := do
  let out ← IO.getStdout
  let err ← IO.getStderr
  for entry in report.log do
    err.putStrLn entry.line
  out.putStr report.stdout
  out.flush
  for text in report.chain do
    err.putStrLn ("Error: " ++ text)
  return report.exitCode.toUInt32

end EightBit.CommandLine

open EightBit CommandLine in
/-- Runs a program listing; 2^64 steps stand for a run without end. -/
def main (words : List String) : IO UInt32 := do
  match Options.ofWords words with
  | .error e =>
    unless e = .helpRequested do
      (← IO.getStderr).putStrLn ("error: " ++ usageText e)
    CommandLine.present (reportUsage e)
  | .ok o =>
    let content ← readProgram o.program
    match execute UInt64.size o content with
    | some report => CommandLine.present report
    | none => return 1
