import EightBit.Machine.Fetch
import EightBit.Machine.Handler
import EightBit.Machine.Trace

/-! One instruction, by itself and as a step of the machine. -/
namespace EightBit.Machine

variable {size : Nat} {δ : Type} [Device δ]

/-- Performs a decoded instruction without moving the program counter. -/
def perform (m : Machine size δ) (i : Instruction) : Outcome size δ Fault Transfer :=
  m.outcome i.handle

/-- Fetches the instruction at the program counter and performs it. -/
def performNext (m : Machine size δ) : Outcome size δ Fault Transfer :=
  match m.processor.fetch m.memory with
  | .ok i => m.perform i
  | .error fault => ⟨.error fault, m⟩

def advance (m : Machine size δ) (t : Transfer) : Machine size δ :=
  let status := if t.proceed then m.processor.status else .halted
  { m with processor := { m.processor with pc := t.next, status } }

/-- The program counter stays at the instruction that met the fault. -/
def fail (m : Machine size δ) (fault : Fault) : Machine size δ :=
  let pc := m.processor.pc
  let m := m.record .error fun _ => "Fault at 0x" ++ hexUpper pc.toNat ++ ": " ++ fault.message
  { m with processor := { m.processor with status := .faulted fault } }

def traced (m : Machine size δ) : Machine size δ :=
  let ⟨processor, memory, output, log⟩ := m
  let log := log.record .trace .processor fun _ => processor.traceText memory
  { processor, memory, output, log }

/-- One step. A machine that does not run any more stays as it is. -/
def step (m : Machine size δ) : Outcome size δ Fault Unit :=
  if m.isRunning then
    match m.traced.performNext with
    | ⟨.ok t, m⟩ => ⟨.ok (), m.advance t⟩
    | ⟨.error fault, m⟩ => ⟨.error fault, m.fail fault⟩
  else ⟨.ok (), m⟩

end EightBit.Machine
