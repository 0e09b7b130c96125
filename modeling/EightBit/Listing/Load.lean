import EightBit.Listing.Token
import EightBit.Log
import EightBit.Memory
import EightBit.Text.Lines

/-! Loading a listing into a memory, line by line. -/
namespace EightBit.Listing

/-- A load under way: `count` bytes are in the memory, and errors stand in reverse. -/
structure Loader (size : Nat) where
  memory : Memory size
  count : Nat
  errors : List Error
  log : Log

namespace Loader

variable {size : Nat}

def start (memory : Memory size) (log : Log) : Loader size :=
  { memory, count := 0, errors := [], log }

/-- Every error is logged as it is met. -/
def report (l : Loader size) (error : Error) : Loader size :=
  { l with
    errors := error :: l.errors
    log := l.log.record .error .loader fun _ => error.message }

/-- Puts a byte into the next cell; a byte that finds no cell takes none. -/
def put (l : Loader size) (value : UInt8) (line : Nat) : Loader size :=
  if l.count < size then
    { l with memory := l.memory.set l.count value, count := l.count + 1 }
  else l.report ⟨.noSuchAddress l.count, "program is larger than memory", line⟩

/-- Takes in one line. -/
def takeLine (l : Loader size) (number : Nat) (line : List Char) : Loader size :=
  let t := token line
  if t.isEmpty then l
  else
    match byte t with
    | .ok value => l.put value number
    | .error (cause, context) => l.report ⟨cause, context, number⟩

/-- Takes in lines, the first of which has the given number. -/
def takeLines (l : Loader size) (number : Nat) : List (List Char) → Loader size
  | [] => l
  | line :: lines => (l.takeLine number line).takeLines (number + 1) lines

/-- The memory if there were no errors, and all errors otherwise. -/
def finish (l : Loader size) : Except (List Error) (Memory size) × Log :=
  if l.errors.isEmpty then
    (.ok l.memory, l.log.record .debug .loader fun _ => "Loaded " ++ decimal l.count ++ " bytes")
  else (.error l.errors.reverse, l.log)

end Loader

variable {size : Nat}

/-- Loads a listing over a memory, from address zero on. -/
def load (text : List Char) (memory : Memory size) (log : Log) :
    Except (List Error) (Memory size) × Log :=
  ((Loader.start memory log).takeLines 1 (Text.lines text)).finish

end EightBit.Listing
