import EightBit.Registers

/-! Operations on two registers: wrapping addition and multiplication, and comparison. -/
namespace EightBit

inductive Operation where
  | add | mul | cmp
  deriving DecidableEq, Inhabited

namespace Operation

def opcode : Operation → Opcode
  | add => .add
  | mul => .mul
  | cmp => .cmp

def ofOpcode : Opcode → Except Fault Operation
  | .add => .ok add
  | .mul => .ok mul
  | .cmp => .ok cmp
  | o => .error (.notArithmetic o)

def name : Operation → String
  | add => "Add"
  | mul => "Mul"
  | cmp => "Cmp"

/-- Works on the registers in place. Both are read before the first one, or the flags, are set. A
comparison replaces all flags by the one for the order of the two values. -/
def operate (op : Operation) (a b : UInt8) : InPlace Registers Unit := do
  let x ← liftExcept ((← get).get a)
  let y ← liftExcept ((← get).get b)
  match op with
  | add => Registers.assign a (x + y)
  | mul => Registers.assign a (x * y)
  | cmp => modify fun registers => { registers with flags := .comparing x y }

def apply (op : Operation) (registers : Registers) (a b : UInt8) : Except Fault Registers :=
  (op.operate a b).leaves registers

theorem apply_eq (op : Operation) (registers : Registers) (a b : UInt8) :
    op.apply registers a b = (do
      let x ← registers.get a
      let y ← registers.get b
      match op with
      | add => registers.set a (x + y)
      | mul => registers.set a (x * y)
      | cmp => return { registers with flags := .comparing x y }) := by
  simp only [apply, operate, InPlace.leaves_get, InPlace.leaves_check]
  cases op <;> rfl

theorem ofOpcode_opcode (op : Operation) : ofOpcode op.opcode = .ok op := by
  cases op <;> rfl

end Operation
end EightBit
