import EightBit.Machine.Basic

/-! The line that shows what a step is about to fetch. -/
namespace EightBit.Processor

variable {size : Nat}

/-- A cell in hexadecimal, or two dashes for a cell that does not exist. -/
def cellText (memory : Memory size) (i : Nat) : String :=
  match memory.get? i with
  | some value => hexUpper value.toNat
  | none => "--"

/-- The program counter, the three cells from it on and all registers. -/
def traceText (p : Processor) (memory : Memory size) : String :=
  let cells := [0, 1, 2].map fun k => cellText memory (p.pc.toNat + k)
  "TRACE: " ++ hexUpper p.pc.toNat ++ " | " ++ String.intercalate " " cells ++ " | "
    ++ p.registers.text

end EightBit.Processor
