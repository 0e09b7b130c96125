import EightBit.Flags
import EightBit.InPlace

/-! The register file: eight general-purpose registers and the condition flags. -/
namespace EightBit

structure Registers where
  values : Vector UInt8 8
  flags : Flags
  deriving DecidableEq

namespace Registers

def zero : Registers :=
  ⟨Vector.replicate 8 0, .zero⟩

def get (r : Registers) (index : UInt8) : Except Fault UInt8 :=
  match r.values[index.toNat]? with
  | some value => .ok value
  | none => .error (.noSuchRegister index)

/-- Sets a register in place. -/
def assign (index value : UInt8) : InPlace Registers Unit := do
  unless index < 8 do
    throw (.noSuchRegister index)
  modify fun r => { r with values := r.values.setIfInBounds index.toNat value }

def set (r : Registers) (index value : UInt8) : Except Fault Registers :=
  (assign index value).leaves r

/-- The eight values in hexadecimal; the flags are not shown. -/
def text (r : Registers) : String :=
  String.intercalate " " (r.values.toList.map fun value => hexUpper value.toNat)

variable {r s : Registers} {i j value : UInt8} {fault : Fault}

theorem get_eq_error_iff : r.get i = .error fault ↔ 8 ≤ i.toNat ∧ fault = .noSuchRegister i := by
  unfold get
  split
  next h =>
    have := (Vector.getElem?_eq_some_iff.mp h).1
    simp
    omega
  next h =>
    have := Vector.getElem?_eq_none_iff.mp h
    simp [this, eq_comm]

theorem run_assign (r : Registers) (i value : UInt8) : (assign i value).run r =
    if i < 8 then .ok () { r with values := r.values.setIfInBounds i.toNat value }
    else .error (.noSuchRegister i) r := by
  unfold assign
  split <;> rfl

theorem set_eq (r : Registers) (i value : UInt8) : r.set i value =
    if i < 8 then .ok { r with values := r.values.setIfInBounds i.toNat value }
    else .error (.noSuchRegister i) := by
  by_cases h : i < 8 <;> simp [set, InPlace.leaves, run_assign, h]

theorem set_eq_error_iff :
    r.set i value = .error fault ↔ 8 ≤ i.toNat ∧ fault = .noSuchRegister i := by
  rw [set_eq]
  by_cases h : i.toNat < 8
  · have : ¬ 8 ≤ i.toNat := by omega
    simp [UInt8.lt_iff_toNat_lt, h, this]
  · have : 8 ≤ i.toNat := by omega
    simp [UInt8.lt_iff_toNat_lt, h, this, eq_comm]

theorem flags_set (h : r.set i value = .ok s) : s.flags = r.flags := by
  rw [set_eq] at h
  split at h
  · cases h
    rfl
  · cases h

theorem get_set (h : r.set i value = .ok s) : s.get j = if i = j then .ok value else r.get j := by
  rw [set_eq] at h
  split at h
  next hi =>
    cases h
    rw [UInt8.lt_iff_toNat_lt] at hi
    by_cases hj : i = j
    · subst hj
      simp [get, show i.toNat < 8 from hi]
    · simp [get, hj, UInt8.toNat_inj]
  next => cases h

end Registers
end EightBit
