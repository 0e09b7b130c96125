import EightBit.Folder
import EightBit.Listing.Load

/-! Loading a listing that was read from a file. -/
namespace EightBit.Listing

inductive FileError where
  | unreadable (path : String) (reason : ReadFailure)
  | rejected (path : String) (errors : List Error)
  deriving DecidableEq

/-- The texts of the error, from the general to the particular. -/
def FileError.chain : FileError → List String
  | unreadable path reason => ["failed to read `" ++ path ++ "`", reason.message]
  | rejected path errors =>
    ["failed to load `" ++ path ++ "`:\n" ++ String.intercalate "\n" (errors.map Error.message)]

variable {size : Nat}

/-- Loads the text found under a path over a memory. -/
def loadFile (path : String) (content : Except ReadFailure String) (memory : Memory size)
    (log : Log) : Except FileError (Memory size) × Log :=
  match content with
  | .error reason => (.error (.unreadable path reason), log)
  | .ok text =>
    match load text.toList memory log with
    | (.ok memory, log) => (.ok memory, log)
    | (.error errors, log) => (.error (.rejected path errors), log)

end EightBit.Listing
