import EightBit.Log
import EightBit.Memory
import EightBit.Output
import EightBit.Registers

/-! The state of a machine: processor, memory, output and log. -/
namespace EightBit

inductive Status where
  | running
  | halted
  | faulted (fault : Fault)
  deriving DecidableEq

/-- The stack pointer wraps around the 256 addresses that it can name. -/
structure Processor where
  pc : UInt16
  sp : UInt8
  registers : Registers
  status : Status
  deriving DecidableEq

/-- A processor that is about to run from `pc` on. -/
def Processor.startingAt (pc : UInt16) : Processor :=
  { pc, sp := 0, registers := .zero, status := .running }

structure Machine (size : Nat) (δ : Type) where
  processor : Processor
  memory : Memory size
  output : Output δ
  log : Log

/-- What an activity of the machine answers, and the machine that it leaves. -/
structure Outcome (size : Nat) (δ ε α : Type) where
  result : Except ε α
  machine : Machine size δ

namespace Machine

variable {size : Nat} {δ : Type}

def isRunning (m : Machine size δ) : Bool :=
  m.processor.status == .running

def record (m : Machine size δ) (level : Level) (text : Unit → String) : Machine size δ :=
  { m with log := m.log.record level .processor text }

end Machine
end EightBit
