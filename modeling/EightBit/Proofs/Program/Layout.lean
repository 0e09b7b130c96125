import EightBit.Proofs.Machine.Fetching

/-! Programs in memory: what is fetched where the bytes of an instruction stand. -/
namespace EightBit

namespace Memory

variable {size : Nat} {m : Memory size} {a : Nat} {xs ys : List UInt8}

/-- The bytes stand in memory, one behind the other, from `a` on. -/
def Holds (m : Memory size) (a : Nat) (bytes : List UInt8) : Prop :=
  ∀ j < bytes.length, m.get? (a + j) = bytes[j]?

instance (m : Memory size) (a : Nat) (bytes : List UInt8) : Decidable (m.Holds a bytes) :=
  inferInstanceAs (Decidable (∀ j < bytes.length, _))

theorem holds_place (h : a + xs.length ≤ size) : (m.place a xs).Holds a xs := by
  intro j hj
  rw [get?_place, if_pos (by omega), Nat.add_sub_cancel_left]

theorem Holds.left (h : m.Holds a (xs ++ ys)) : m.Holds a xs := by
  intro j hj
  rw [h j (by simp; omega), List.getElem?_append_left hj]

theorem Holds.right (h : m.Holds a (xs ++ ys)) : m.Holds (a + xs.length) ys := by
  intro j hj
  have hget := h (xs.length + j) (by simp; omega)
  rwa [List.getElem?_append_right (by omega), Nat.add_sub_cancel_left, ← Nat.add_assoc] at hget

/-- A cell outside of the bytes may change. -/
theorem Holds.set (h : m.Holds a xs) {i : Nat} (hi : i < a ∨ a + xs.length ≤ i) (value : UInt8) :
    (m.set i value).Holds a xs := by
  intro j hj
  rw [get?_set, if_neg (by omega), h j hj]

end Memory

namespace Instruction

/-- An operand that the instruction does not have reads as zero. -/
theorem instruction_encode (i : Instruction) :
    i.opcode.instruction (i.encode[1]?.getD 0) (i.encode[2]?.getD 0) = i := by
  cases i with
  | arith op => cases op <;> rfl
  | _ => rfl

end Instruction

namespace Processor

variable {size : Nat} {p : Processor} {memory : Memory size} {i : Instruction}

/-- Where the bytes of an instruction stand, that instruction is fetched. -/
theorem fetch_of_holds (h : memory.Holds p.pc.toNat i.encode)
    (hend : p.pc.toNat + i.size ≤ 65536) : p.fetch memory = .ok i := by
  have hlength := i.length_encode
  have hcount : i.size = 1 + i.opcode.operandCount := rfl
  have hoperand : ∀ k, 0 < k →
      p.fetchOperand memory i.opcode k = .ok (i.encode[k]?.getD 0) := by
    intro k hk
    unfold fetchOperand
    split
    next hle =>
      have hpc : (p.pc + UInt16.ofNat k).toNat = p.pc.toNat + k := by
        rw [UInt16.toNat_add, UInt16.toNat_ofNat']
        omega
      have hlt : k < i.encode.length := by omega
      rw [Memory.read_eq_ok_iff, hpc, h k hlt, List.getElem?_eq_getElem hlt]
      rfl
    next hgt =>
      rw [List.getElem?_eq_none (by omega)]
      rfl
  have hcode : memory.get? p.pc.toNat = some i.opcode.code := h 0 (by omega)
  exact fetch_eq_ok_iff.mpr ⟨i.opcode, _, _, hcode, hoperand 1 (by decide), hoperand 2 (by decide),
    i.instruction_encode.symm⟩

end Processor
end EightBit
