import EightBit.Instruction
import EightBit.Machine.Basic

/-! What each instruction does to a machine, step by step and in place. -/
namespace EightBit

/-- Where the processor goes after an instruction, and whether it goes on. -/
structure Transfer where
  next : UInt16
  proceed : Bool
  deriving DecidableEq

variable {size : Nat} {δ : Type}

namespace Machine

/-- What a computation in place answers, and the machine that it leaves. -/
def outcome {α : Type} (m : Machine size δ) (x : InPlace (Machine size δ) α) :
    Outcome size δ Fault α :=
  match x.run m with
  | .ok a m => ⟨.ok a, m⟩
  | .error fault m => ⟨.error fault, m⟩

/-- Works on the memory of a machine. -/
def onMemory (x : InPlace (Memory size) Unit) : InPlace (Machine size δ) Unit := fun m =>
  let ⟨processor, memory, output, log⟩ := m
  match x.run memory with
  | .ok () memory => .ok () { processor, memory, output, log }
  | .error fault memory => .error fault { processor, memory, output, log }

/-- Works on the registers of a machine. -/
def onRegisters (x : InPlace Registers Unit) : InPlace (Machine size δ) Unit := fun m =>
  match x.run m.processor.registers with
  | .ok () registers => .ok () { m with processor := { m.processor with registers } }
  | .error fault registers => .error fault { m with processor := { m.processor with registers } }

def getRegister (r : UInt8) : InPlace (Machine size δ) UInt8 := do
  liftExcept ((← get).processor.registers.get r)

def readCell (cell : UInt8) : InPlace (Machine size δ) UInt8 := do
  liftExcept ((← get).memory.read cell.toUInt16)

def writeCell (cell value : UInt8) : InPlace (Machine size δ) Unit :=
  onMemory (Memory.store cell.toUInt16 value)

def getSp : InPlace (Machine size δ) UInt8 :=
  return (← get).processor.sp

def setSp (sp : UInt8) : InPlace (Machine size δ) Unit :=
  modify fun m => { m with processor := { m.processor with sp } }

/-- What the device takes before it refuses the rest stays printed. -/
def printLine [Device δ] (n : Nat) : InPlace (Machine size δ) Unit := fun m =>
  let ⟨processor, memory, output, log⟩ := m
  match output.printLine n with
  | (.ok (), output) => .ok () { processor, memory, output, log }
  | (.error failure, output) => .error (.writeFailed failure) { processor, memory, output, log }

/-- Notes an instruction in the log. A text that is not asked for is not worked out. -/
def note (text : Unit → Except Fault String) : InPlace (Machine size δ) Unit := fun m =>
  match m.log.tryRecord .debug .processor text with
  | .ok log => .ok () { m with log }
  | .error fault => .error fault m

end Machine

namespace Instruction

open Machine

def registerText (r : UInt8) : String :=
  "R" ++ decimal r.toNat

/-- The text for an instruction on one register and the value that it deals with. -/
def noteValue (o : Opcode) (r value : UInt8) : String :=
  o.name ++ " " ++ registerText r ++ ": " ++ decimal value.toNat

/-- The text for an operation shows the first register and the flags as they are after it. -/
def noteOperation (op : Operation) (a b : UInt8) (registers : Registers) : Except Fault String :=
  match registers.get a with
  | .ok value =>
    .ok (op.opcode.name ++ " " ++ registerText a ++ " " ++ registerText b ++ ": "
      ++ decimal value.toNat ++ " " ++ registers.flags.text)
  | .error fault => .error fault

def noteBranch (o : Opcode) (r target : UInt8) (taken : Bool) : String :=
  noteValue o r target ++ " (taken: " ++ (if taken then "true" else "false") ++ ")"

/-- A return address has to fit into one cell of the stack. -/
def returnByte (address : UInt16) : Except Fault UInt8 :=
  if address.toNat < 256 then .ok address.toUInt8 else .error (.noSuchAddress address.toNat)

/-- Branches if the flag for equality is as told. The target is read even if it does not. -/
def handleBranch (o : Opcode) (r : UInt8) (equal : Bool) (pass : Transfer) :
    InPlace (Machine size δ) Transfer := do
  let target ← getRegister r
  let taken := (← get).processor.registers.flags.contains .equal == equal
  note fun _ => .ok (noteBranch o r target taken)
  return if taken then ⟨target.toUInt16, true⟩ else pass

/-- Does all that the instruction does, apart from moving the program counter. A fault leaves what
has been done before it. Pushed values go up in memory and return addresses go down. -/
def handle [Device δ] (i : Instruction) : InPlace (Machine size δ) Transfer := do
  let pc := (← get).processor.pc
  let pass : Transfer := ⟨pc + UInt16.ofNat i.size, true⟩
  match i with
  | hlt =>
    note fun _ => .ok i.opcode.name
    return ⟨pc, false⟩
  | ret =>
    let target ← readCell (← getSp)
    setSp ((← getSp) + 1)
    note fun _ => .ok ("RET " ++ decimal target.toNat)
    return ⟨target.toUInt16, true⟩
  | push r =>
    let value ← getRegister r
    let sp := (← getSp) + 1
    writeCell sp value
    setSp sp
    note fun _ => .ok (noteValue .push r value)
    return pass
  | pop r =>
    let value ← readCell (← getSp)
    onRegisters (Registers.assign r value)
    setSp ((← getSp) - 1)
    note fun _ => .ok (noteValue .pop r value)
    return pass
  | prn r =>
    let value ← getRegister r
    printLine value.toNat
    note fun _ => .ok (noteValue .prn r value)
    return pass
  | call r =>
    let target ← getRegister r
    let back := pass.next
    let byte ← liftExcept (returnByte back)
    let sp := (← getSp) - 1
    writeCell sp byte
    setSp sp
    note fun _ => .ok (noteValue .call r target ++ " (return to " ++ decimal back.toNat ++ ")")
    return ⟨target.toUInt16, true⟩
  | jmp r =>
    let target ← getRegister r
    note fun _ => .ok (noteValue .jmp r target)
    return ⟨target.toUInt16, true⟩
  | jeq r => handleBranch i.opcode r true pass
  | jne r => handleBranch i.opcode r false pass
  | ldi r value =>
    onRegisters (Registers.assign r value)
    note fun _ => .ok ("LDI " ++ registerText r ++ " " ++ decimal value.toNat)
    return pass
  | arith _ a b =>
    -- The operation is looked up by its opcode, which can fail for other opcodes.
    let op ← liftExcept (Operation.ofOpcode i.opcode)
    onRegisters (op.operate a b)
    let registers := (← get).processor.registers
    note fun _ => noteOperation op a b registers
    return pass

end Instruction
end EightBit
