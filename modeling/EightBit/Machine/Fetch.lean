import EightBit.Instruction
import EightBit.Machine.Basic

/-! Reading the instruction at the program counter. -/
namespace EightBit.Processor

variable {size : Nat}

/-- The `k`-th operand byte of an opcode, zero if the opcode has fewer operands. Addresses wrap
around at sixteen bits. -/
def fetchOperand (p : Processor) (memory : Memory size) (o : Opcode) (k : Nat) :
    Except Fault UInt8 :=
  if k ≤ o.operandCount then memory.read (p.pc + UInt16.ofNat k) else .ok 0

def fetch (p : Processor) (memory : Memory size) : Except Fault Instruction := do
  let code ← memory.read p.pc
  match Opcode.ofCode? code with
  | none => throw (.unknownOpcode code p.pc)
  | some o =>
    let a ← p.fetchOperand memory o 1
    let b ← p.fetchOperand memory o 2
    return o.instruction a b

end EightBit.Processor
