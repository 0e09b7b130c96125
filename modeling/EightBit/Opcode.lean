import EightBit.Numeral

/-! The thirteen opcodes, their bytes and their mnemonics. -/
namespace EightBit

inductive Opcode where
  | hlt | ret
  | push | pop | prn
  | call | jmp | jeq | jne
  | ldi
  | add | mul | cmp
  deriving DecidableEq, Inhabited

namespace Opcode

/-- Every opcode once, in ascending order of code. -/
def all : List Opcode :=
  [hlt, ret, push, pop, prn, call, jmp, jeq, jne, ldi, add, mul, cmp]

/-- The byte that stands for the opcode in memory. -/
def code : Opcode → UInt8
  | hlt => 0x01
  | ret => 0x11
  | push => 0x45
  | pop => 0x46
  | prn => 0x47
  | call => 0x50
  | jmp => 0x54
  | jeq => 0x55
  | jne => 0x56
  | ldi => 0x82
  | add => 0xA0
  | mul => 0xA2
  | cmp => 0xA7

def name : Opcode → String
  | hlt => "HLT"
  | ret => "RET"
  | push => "PUSH"
  | pop => "POP"
  | prn => "PRN"
  | call => "CALL"
  | jmp => "JMP"
  | jeq => "JEQ"
  | jne => "JNE"
  | ldi => "LDI"
  | add => "ADD"
  | mul => "MUL"
  | cmp => "CMP"

def ofCode? (byte : UInt8) : Option Opcode :=
  all.find? (·.code == byte)

/-- The text about a byte that is no code. -/
def unknownText (byte : UInt8) : String :=
  "No discriminant in enum `Instruction` matches the value `" ++ decimal byte.toNat ++ "`"

def ofName? (name : String) : Option Opcode :=
  all.find? (·.name == name)

/-- The top two bits of the code count the operand bytes. -/
def operandCount (o : Opcode) : Nat :=
  (o.code >>> 6).toNat

/-- Bytes taken in memory, operands included. -/
def size (o : Opcode) : Nat :=
  1 + o.operandCount

theorem mem_all (o : Opcode) : o ∈ all := by
  cases o <;> decide

theorem ofCode?_code (o : Opcode) : ofCode? o.code = some o := by
  cases o <;> decide

theorem code_of_ofCode? {byte : UInt8} {o : Opcode} (h : ofCode? byte = some o) :
    o.code = byte := by
  simpa using List.find?_some h

theorem operandCount_eq (o : Opcode) :
    o.operandCount = match o with
      | hlt | ret => 0
      | ldi | add | mul | cmp => 2
      | _ => 1 := by
  cases o <;> decide

theorem operandCount_le_two (o : Opcode) : o.operandCount ≤ 2 := by
  cases o <;> decide

end Opcode
end EightBit
