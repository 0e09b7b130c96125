import EightBit.Numeral

/-! The condition flags. Bits beyond the three known ones are kept but mean nothing. -/
namespace EightBit

structure Flags where
  bits : UInt8
  deriving DecidableEq

namespace Flags

def zero : Flags := ⟨0⟩

def equal : Flags := ⟨1⟩

def greater : Flags := ⟨2⟩

def less : Flags := ⟨4⟩

/-- The known flags with their names, from the lowest bit up. -/
def known : List (Flags × String) :=
  [(equal, "EQUAL"), (greater, "GREATER"), (less, "LESS")]

def contains (f g : Flags) : Bool :=
  f.bits &&& g.bits == g.bits

/-- Drops the unknown bits. -/
def truncate (f : Flags) : Flags :=
  ⟨f.bits &&& 7⟩

def unknownBits (f : Flags) : UInt8 :=
  f.bits &&& ~~~7

def isKnown (f : Flags) : Bool :=
  f.unknownBits == 0

def isEmpty (f : Flags) : Bool :=
  f.bits == 0

/-- The flag that describes the order of two bytes. -/
def comparing (a b : UInt8) : Flags :=
  if a < b then less else if a == b then equal else greater

/-- Names the known flags that are set, then the remaining bits as one number. -/
def text (f : Flags) : String :=
  let names := (known.filter fun p => f.contains p.1).map Prod.snd
  let rest := if f.isKnown then [] else ["0x" ++ hexLower f.unknownBits.toNat]
  let parts := if f.isEmpty then ["0x0"] else names ++ rest
  "Flags(" ++ String.intercalate " | " parts ++ ")"

end Flags
end EightBit
