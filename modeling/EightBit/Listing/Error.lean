import EightBit.Numeral

/-! What can be wrong with a line of a listing. -/
namespace EightBit.Listing

inductive Cause where
  /-- More good tokens than the memory has cells. -/
  | noSuchAddress (address : Nat)
  | notBinary
  | tooManyDigits
  deriving DecidableEq

def Cause.message : Cause → String
  | noSuchAddress address => "memory has no address `0x" ++ hexLower address ++ "`"
  | notBinary => "failed to parse number with radix `2`"
  | tooManyDigits => "a byte has at most 8 binary digits"

/-- A cause with its circumstances and the number of the line, counted from one. -/
structure Error where
  cause : Cause
  context : String
  line : Nat
  deriving DecidableEq

def Error.message (e : Error) : String :=
  "error [ln: " ++ decimal e.line ++ "]: " ++ e.cause.message ++ " - " ++ e.context

end EightBit.Listing
