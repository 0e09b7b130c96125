import EightBit.Machine.Handler

/-! What an instruction will do, decided before anything is changed. -/
namespace EightBit

structure Effect where
  registers : Registers
  sp : UInt8
  /-- A cell on the stack and the byte that it takes. -/
  store : Option (UInt8 × UInt8)
  /-- A number that is printed on a line of its own. -/
  prints : Option UInt8
  transfer : Transfer
  /-- The log text, worked out after the effect has taken place. -/
  note : Unit → Except Fault String

namespace Instruction

variable {size : Nat}

/-- Goes on behind the instruction and changes nothing. -/
def passing (i : Instruction) (p : Processor) : Effect where
  registers := p.registers
  sp := p.sp
  store := none
  prints := none
  transfer := ⟨p.pc + UInt16.ofNat i.size, true⟩
  note := fun _ => .ok i.opcode.name

/-- A branch reads its target even if it is not taken. -/
def branch (i : Instruction) (p : Processor) (r : UInt8) (taken : Bool) : Except Fault Effect := do
  let target ← p.registers.get r
  let pass := i.passing p
  return { pass with
    transfer := if taken then ⟨target.toUInt16, true⟩ else pass.transfer
    note := fun _ => .ok (noteBranch i.opcode r target taken) }

/-- The effect on a machine with the given processor and memory, or the first check that fails.
Pushed values go up in memory and return addresses go down. -/
def effect (i : Instruction) (p : Processor) (memory : Memory size) : Except Fault Effect :=
  let pass := i.passing p
  match i with
  | hlt => return { pass with transfer := ⟨p.pc, false⟩ }
  | ret => do
    let target ← memory.read p.sp.toUInt16
    return { pass with
      sp := p.sp + 1
      transfer := ⟨target.toUInt16, true⟩
      note := fun _ => .ok ("RET " ++ decimal target.toNat) }
  | push r => do
    let value ← p.registers.get r
    memory.locate (p.sp + 1).toUInt16
    return { pass with
      sp := p.sp + 1
      store := some (p.sp + 1, value)
      note := fun _ => .ok (noteValue .push r value) }
  | pop r => do
    let value ← memory.read p.sp.toUInt16
    let registers ← p.registers.set r value
    return { pass with
      registers
      sp := p.sp - 1
      note := fun _ => .ok (noteValue .pop r value) }
  | prn r => do
    let value ← p.registers.get r
    return { pass with
      prints := some value
      note := fun _ => .ok (noteValue .prn r value) }
  | call r => do
    let target ← p.registers.get r
    let back := pass.transfer.next
    let byte ← returnByte back
    memory.locate (p.sp - 1).toUInt16
    return { pass with
      sp := p.sp - 1
      store := some (p.sp - 1, byte)
      transfer := ⟨target.toUInt16, true⟩
      note := fun _ =>
        .ok (noteValue .call r target ++ " (return to " ++ decimal back.toNat ++ ")") }
  | jmp r => do
    let target ← p.registers.get r
    return { pass with
      transfer := ⟨target.toUInt16, true⟩
      note := fun _ => .ok (noteValue .jmp r target) }
  | jeq r => i.branch p r (p.registers.flags.contains .equal)
  | jne r => i.branch p r (!p.registers.flags.contains .equal)
  | ldi r value => do
    let registers ← p.registers.set r value
    return { pass with
      registers
      note := fun _ => .ok ("LDI " ++ registerText r ++ " " ++ decimal value.toNat) }
  | arith _ a b => do
    -- The operation is looked up by its opcode, which can fail for other opcodes.
    let op ← Operation.ofOpcode i.opcode
    let registers ← op.apply p.registers a b
    return { pass with
      registers
      note := fun _ => noteOperation op a b registers }

end Instruction
end EightBit
