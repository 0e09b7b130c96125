import EightBit.Arithmetic

/-! Decoded instructions: an opcode together with the operand bytes that it uses. -/
namespace EightBit

/-- Operands name registers, apart from the second one of `ldi`, which is a value. -/
inductive Instruction where
  | hlt
  | ret
  | push (r : UInt8)
  | pop (r : UInt8)
  | prn (r : UInt8)
  | call (r : UInt8)
  | jmp (r : UInt8)
  | jeq (r : UInt8)
  | jne (r : UInt8)
  | ldi (r value : UInt8)
  | arith (op : Operation) (a b : UInt8)
  deriving DecidableEq, Inhabited

/-- The instruction with the given operand bytes; those beyond its operand count are ignored. -/
def Opcode.instruction (o : Opcode) (a b : UInt8) : Instruction :=
  match o with
  | .hlt => .hlt
  | .ret => .ret
  | .push => .push a
  | .pop => .pop a
  | .prn => .prn a
  | .call => .call a
  | .jmp => .jmp a
  | .jeq => .jeq a
  | .jne => .jne a
  | .ldi => .ldi a b
  | .add => .arith .add a b
  | .mul => .arith .mul a b
  | .cmp => .arith .cmp a b

namespace Instruction

def opcode : Instruction → Opcode
  | hlt => .hlt
  | ret => .ret
  | push _ => .push
  | pop _ => .pop
  | prn _ => .prn
  | call _ => .call
  | jmp _ => .jmp
  | jeq _ => .jeq
  | jne _ => .jne
  | ldi .. => .ldi
  | arith op .. => op.opcode

def operands : Instruction → List UInt8
  | hlt | ret => []
  | push r | pop r | prn r | call r | jmp r | jeq r | jne r => [r]
  | ldi r value => [r, value]
  | arith _ a b => [a, b]

/-- The bytes of the instruction in memory. -/
def encode (i : Instruction) : List UInt8 :=
  i.opcode.code :: i.operands

def size (i : Instruction) : Nat :=
  i.opcode.size

theorem opcode_instruction (o : Opcode) (a b : UInt8) : (o.instruction a b).opcode = o := by
  cases o <;> rfl

theorem encode_instruction (o : Opcode) (a b : UInt8) :
    (o.instruction a b).encode = o.code :: [a, b].take o.operandCount := by
  cases o <;> rfl

theorem length_operands (i : Instruction) : i.operands.length = i.opcode.operandCount := by
  cases i with
  | arith op => cases op <;> simp [operands, opcode, Operation.opcode, Opcode.operandCount_eq]
  | _ => simp [operands, opcode, Opcode.operandCount_eq]

theorem length_encode (i : Instruction) : i.encode.length = i.size := by
  simp [encode, size, Opcode.size, length_operands, Nat.add_comm]

end Instruction
end EightBit
