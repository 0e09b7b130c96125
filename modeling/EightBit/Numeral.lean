/-! Numerals: decimal and hexadecimal spelling, and the reading of unsigned numbers. -/
namespace EightBit

/-- The decimal spelling, without leading zeros. -/
def decimal (n : Nat) : String :=
  String.ofList (Nat.toDigits 10 n)

/-- The hexadecimal spelling in lower case, without leading zeros. -/
def hexLower (n : Nat) : String :=
  String.ofList (Nat.toDigits 16 n)

/-- The hexadecimal spelling in upper case, filled with zeros to at least two digits. -/
def hexUpper (n : Nat) : String :=
  String.ofList (((Nat.toDigits 16 n).map Char.toUpper).leftpad 2 '0')

/-- The value of a digit in a base of at most ten. -/
def digit? (base : Nat) (c : Char) : Option Nat :=
  if '0'.toNat ≤ c.toNat ∧ c.toNat < '0'.toNat + base then some (c.toNat - '0'.toNat) else none

/-- Reads digits behind a number `n` that was read before them. -/
def digits? (base : Nat) : Nat → List Char → Option Nat
  | n, [] => some n
  | n, c :: cs =>
    match digit? base c with
    | some d => digits? base (n * base + d) cs
    | none => none

/-- A numeral is at least one digit behind at most one plus sign, with a value below the bound. -/
def unsigned? (base bound : Nat) (cs : List Char) : Option Nat :=
  let ds := match cs with
    | '+' :: ds => ds
    | ds => ds
  if ds.isEmpty then none else (digits? base 0 ds).filter (· < bound)

end EightBit
