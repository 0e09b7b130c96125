import EightBit.Output

/-! Devices: one without limits, and one with limited room that takes a text in pieces. -/
namespace EightBit

/-- Takes every text whole. -/
inductive Unlimited where
  | device
  deriving DecidableEq, Inhabited

instance : Device Unlimited where
  write d text := (.took text.length, d)

/-- Takes at most `chunk` characters at once and `room` characters in total, if there is a limit. -/
structure Limited where
  room : Option Nat
  chunk : Nat
  /-- The answer to a text that finds no room. -/
  whenFull : Answer
  deriving DecidableEq

namespace Limited

def write (d : Limited) (text : List Char) : Answer × Limited :=
  match d.room with
  | none => (.took (min text.length d.chunk), d)
  | some 0 => (d.whenFull, d)
  | some room =>
    let n := min (min text.length d.chunk) room
    (.took n, { d with room := some (room - n) })

instance : Device Limited := ⟨write⟩

end Limited
end EightBit
