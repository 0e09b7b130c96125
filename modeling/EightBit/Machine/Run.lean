import EightBit.Machine.Step

/-! Runs of many steps: to the end, and with the steps counted and perhaps limited. -/
namespace EightBit.Machine

variable {size : Nat} {δ : Type}

/-- What a run to the end answers on a machine that does not run any more. -/
def finish? (m : Machine size δ) : Option (Outcome size δ Fault Unit) :=
  match m.processor.status with
  | .running => none
  | .faulted fault => some ⟨.error fault, m⟩
  | .halted =>
    let pc := m.processor.pc
    some ⟨.ok (), m.record .info fun _ => "Program halted at 0x" ++ hexUpper pc.toNat⟩

variable [Device δ]

/-- Steps until the machine halts or meets a fault; `none` if `fuel` steps do not suffice. -/
def run (fuel : Nat) (m : Machine size δ) : Option (Outcome size δ Fault Unit) :=
  match m.finish? with
  | some outcome => some outcome
  | none =>
    match fuel with
    | 0 => none
    | fuel + 1 =>
      match m.step with
      | ⟨.ok (), m⟩ => m.run fuel
      | ⟨.error fault, m⟩ => some ⟨.error fault, m⟩

end EightBit.Machine

namespace EightBit

/-- Why a counted run ends without the machine having halted. -/
inductive Interruption where
  | fault (fault : Fault)
  | limit (steps : Nat) (pc : UInt16)
  deriving DecidableEq

def Interruption.message : Interruption → String
  | fault f => f.message
  | limit steps pc =>
    "stopped after " ++ decimal steps ++ " instructions at 0x" ++ hexUpper pc.toNat

namespace Machine

variable {size : Nat} {δ : Type} [Device δ]

/-- Steps while the machine runs and steps are left, and answers the number of successful steps,
`steps` of which were made before. -/
def countLimited (steps : Nat) (m : Machine size δ) :
    Nat → Outcome size δ Interruption Nat
  | 0 =>
    if m.isRunning then ⟨.error (.limit steps m.processor.pc), m⟩ else ⟨.ok steps, m⟩
  | left + 1 =>
    if m.isRunning then
      match m.step with
      | ⟨.ok (), m⟩ => m.countLimited (steps + 1) left
      | ⟨.error fault, m⟩ => ⟨.error (.fault fault), m⟩
    else ⟨.ok steps, m⟩

/-- Steps while the machine runs and answers the number of successful steps; `none` if `fuel`
steps do not suffice. -/
def countUnlimited (steps : Nat) (m : Machine size δ) :
    Nat → Option (Outcome size δ Interruption Nat)
  | 0 => if m.isRunning then none else some ⟨.ok steps, m⟩
  | fuel + 1 =>
    if m.isRunning then
      match m.step with
      | ⟨.ok (), m⟩ => m.countUnlimited (steps + 1) fuel
      | ⟨.error fault, m⟩ => some ⟨.error (.fault fault), m⟩
    else some ⟨.ok steps, m⟩

/-- A run of at most `limit` steps, or without a limit if that is zero. Only the latter needs
fuel. -/
def runCounted (fuel limit : Nat) (m : Machine size δ) :
    Option (Outcome size δ Interruption Nat) :=
  if limit = 0 then m.countUnlimited 0 fuel else some (m.countLimited 0 limit)

end Machine
end EightBit
