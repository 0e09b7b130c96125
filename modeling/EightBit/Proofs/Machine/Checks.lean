import EightBit.Machine.Fetch
import EightBit.Proofs.Checked
import EightBit.Proofs.Machine.Effect

/-! The checks of a step: what it means that all of them succeed, and which faults they find. -/
namespace EightBit

variable {size : Nat} {p : Processor} {memory : Memory size} {fault : Fault} {i : Instruction}
  {e : Effect}

theorem Operation.apply_eq_ok_iff {op : Operation} {r s : Registers} {a b : UInt8} :
    op.apply r a b = .ok s ↔ ∃ x y, r.get a = .ok x ∧ r.get b = .ok y ∧
      match op with
      | add => r.set a (x + y) = .ok s
      | mul => r.set a (x * y) = .ok s
      | cmp => { r with flags := .comparing x y } = s := by
  rw [apply_eq]
  cases op <;> simp [bind_eq_ok_iff, pure, Except.pure]

theorem Registers.lt_eight_of_get {r : Registers} {index value : UInt8}
    (h : r.get index = .ok value) : index < 8 := by
  unfold get at h
  split at h
  next hv => exact UInt8.lt_iff_toNat_lt.mpr (Vector.getElem?_eq_some_iff.mp hv).1
  next => cases h

namespace Instruction

/-- The effect of an instruction that passes its checks, its note apart. -/
inductive Performs (p : Processor) (memory : Memory size) : Instruction → Effect → Prop where
  | hlt {note} : Performs p memory .hlt { passing .hlt p with transfer := ⟨p.pc, false⟩, note }
  | ret {target note} (hm : memory.get? p.sp.toNat = some target) :
    Performs p memory .ret
      { passing .ret p with sp := p.sp + 1, transfer := ⟨target.toUInt16, true⟩, note }
  | push {r value note} (hr : p.registers.get r = .ok value) (hs : (p.sp + 1).toNat < size) :
    Performs p memory (.push r)
      { passing (.push r) p with sp := p.sp + 1, store := some (p.sp + 1, value), note }
  | pop {r value registers note} (hm : memory.get? p.sp.toNat = some value)
      (hr : p.registers.set r value = .ok registers) :
    Performs p memory (.pop r) { passing (.pop r) p with registers, sp := p.sp - 1, note }
  | prn {r value note} (hr : p.registers.get r = .ok value) :
    Performs p memory (.prn r) { passing (.prn r) p with prints := some value, note }
  | call {r target byte note} (hr : p.registers.get r = .ok target)
      (hb : byte.toUInt16 = p.pc + 2) (hs : (p.sp - 1).toNat < size) :
    Performs p memory (.call r)
      { passing (.call r) p with
        sp := p.sp - 1
        store := some (p.sp - 1, byte)
        transfer := ⟨target.toUInt16, true⟩
        note }
  | jmp {r target note} (hr : p.registers.get r = .ok target) :
    Performs p memory (.jmp r)
      { passing (.jmp r) p with transfer := ⟨target.toUInt16, true⟩, note }
  | jeq {r target note} (hr : p.registers.get r = .ok target) :
    Performs p memory (.jeq r)
      { passing (.jeq r) p with
        transfer := if p.registers.flags.contains .equal then ⟨target.toUInt16, true⟩
          else (passing (.jeq r) p).transfer
        note }
  | jne {r target note} (hr : p.registers.get r = .ok target) :
    Performs p memory (.jne r)
      { passing (.jne r) p with
        transfer := if !p.registers.flags.contains .equal then ⟨target.toUInt16, true⟩
          else (passing (.jne r) p).transfer
        note }
  | ldi {r value registers note} (hr : p.registers.set r value = .ok registers) :
    Performs p memory (.ldi r value) { passing (.ldi r value) p with registers, note }
  | arith {op a b registers note} (hr : op.apply p.registers a b = .ok registers) :
    Performs p memory (.arith op a b) { passing (.arith op a b) p with registers, note }

theorem returnByte_eq_ok {address : UInt16} {byte : UInt8} (h : returnByte address = .ok byte) :
    byte.toUInt16 = address := by
  unfold returnByte at h
  split at h
  next hlt =>
    cases h
    apply UInt16.toNat_inj.mp
    simpa using hlt
  next => cases h

theorem lt_size_of_locate {cell : UInt8} (h : memory.locate cell.toUInt16 = .ok ()) :
    cell.toNat < size := by
  rwa [Memory.locate_eq_ok_iff, UInt8.toNat_toUInt16] at h

theorem next_passing_call (r : UInt8) (p : Processor) :
    (passing (.call r) p).transfer.next = p.pc + 2 := by
  simp [passing, Instruction.size, Opcode.size, Opcode.operandCount_eq, opcode]

theorem performs_of_effect (h : i.effect p memory = .ok e) : Performs p memory i e := by
  cases i with
  | hlt =>
    cases h
    exact .hlt
  | ret =>
    simp only [effect, bind_eq_ok_iff, Memory.read_eq_ok_iff] at h
    obtain ⟨target, hm, h⟩ := h
    cases h
    exact .ret hm
  | push r =>
    simp only [effect, bind_eq_ok_iff] at h
    obtain ⟨value, hr, _, hs, h⟩ := h
    cases h
    exact .push hr (lt_size_of_locate hs)
  | pop r =>
    simp only [effect, bind_eq_ok_iff, Memory.read_eq_ok_iff] at h
    obtain ⟨value, hm, registers, hr, h⟩ := h
    cases h
    exact .pop hm hr
  | prn r =>
    simp only [effect, bind_eq_ok_iff] at h
    obtain ⟨value, hr, h⟩ := h
    cases h
    exact .prn hr
  | call r =>
    simp only [effect, bind_eq_ok_iff] at h
    obtain ⟨target, hr, byte, hb, _, hs, h⟩ := h
    cases h
    exact .call hr (next_passing_call r p ▸ returnByte_eq_ok hb) (lt_size_of_locate hs)
  | jmp r =>
    simp only [effect, bind_eq_ok_iff] at h
    obtain ⟨target, hr, h⟩ := h
    cases h
    exact .jmp hr
  | jeq r =>
    simp only [effect, branch, bind_eq_ok_iff] at h
    obtain ⟨target, hr, h⟩ := h
    cases h
    exact .jeq hr
  | jne r =>
    simp only [effect, branch, bind_eq_ok_iff] at h
    obtain ⟨target, hr, h⟩ := h
    cases h
    exact .jne hr
  | ldi r value =>
    simp only [effect, bind_eq_ok_iff] at h
    obtain ⟨registers, hr, h⟩ := h
    cases h
    exact .ldi hr
  | arith op a b =>
    simp only [effect, opcode, Operation.ofOpcode_opcode, bind_eq_ok_iff, Except.ok.injEq,
      exists_eq_left'] at h
    obtain ⟨registers, hr, h⟩ := h
    cases h
    exact .arith hr

/-- Only an instruction that prints offers anything to the device. -/
theorem prn_of_prints {value : UInt8} (he : i.effect p memory = .ok e)
    (hv : e.prints = some value) : ∃ r, i = .prn r ∧ p.registers.get r = .ok value := by
  cases performs_of_effect he <;> simp_all [passing]

theorem noteValue_eq (o : Opcode) (r value : UInt8) : noteValue o r value =
    o.name ++ (" " ++ registerText r ++ ": " ++ decimal value.toNat) := by
  simp [noteValue, String.append_assoc]

/-- The first register of an operation exists still when the operation is noted. -/
theorem get_of_apply {op : Operation} {r s : Registers} {a b : UInt8}
    (h : op.apply r a b = .ok s) : ∃ value, s.get a = .ok value := by
  obtain ⟨x, y, hx, hy, hs⟩ := Operation.apply_eq_ok_iff.mp h
  cases op with
  | add | mul => exact ⟨_, by simpa using Registers.get_set (j := a) hs⟩
  | cmp => exact ⟨x, hs ▸ hx⟩

/-- A note never fails, and starts with the name of the opcode. -/
theorem note_of_effect (h : i.effect p memory = .ok e) :
    ∃ rest, e.note () = .ok (i.opcode.name ++ rest) := by
  cases i with
  | hlt =>
    cases h
    exact ⟨"", by simp [passing]⟩
  | ret =>
    simp only [effect, bind_eq_ok_iff] at h
    obtain ⟨target, _, h⟩ := h
    cases h
    exact ⟨" " ++ decimal target.toNat, by rw [← String.append_assoc]; rfl⟩
  | push r =>
    simp only [effect, bind_eq_ok_iff] at h
    obtain ⟨value, _, _, _, h⟩ := h
    cases h
    exact ⟨_, congrArg _ (noteValue_eq _ _ _)⟩
  | pop r =>
    simp only [effect, bind_eq_ok_iff] at h
    obtain ⟨value, _, _, _, h⟩ := h
    cases h
    exact ⟨_, congrArg _ (noteValue_eq _ _ _)⟩
  | prn r | jmp r =>
    simp only [effect, bind_eq_ok_iff] at h
    obtain ⟨value, _, h⟩ := h
    cases h
    exact ⟨_, congrArg _ (noteValue_eq _ _ _)⟩
  | call r =>
    simp only [effect, bind_eq_ok_iff] at h
    obtain ⟨target, _, _, _, _, _, h⟩ := h
    cases h
    exact ⟨_, by simp only [noteValue_eq, String.append_assoc]; rfl⟩
  | jeq r | jne r =>
    simp only [effect, branch, bind_eq_ok_iff] at h
    obtain ⟨target, _, h⟩ := h
    cases h
    exact ⟨_, by simp only [noteBranch, noteValue_eq, String.append_assoc]; rfl⟩
  | ldi r value =>
    simp only [effect, bind_eq_ok_iff] at h
    obtain ⟨registers, _, h⟩ := h
    cases h
    exact ⟨" " ++ registerText r ++ " " ++ decimal value.toNat, by
      simp only [← String.append_assoc]; rfl⟩
  | arith op a b =>
    simp only [effect, opcode, Operation.ofOpcode_opcode, bind_eq_ok_iff, Except.ok.injEq,
      exists_eq_left'] at h
    obtain ⟨registers, hr, h⟩ := h
    cases h
    obtain ⟨value, hv⟩ := get_of_apply hr
    exact ⟨_, by simp only [noteOperation, hv, String.append_assoc]; rfl⟩

/-- The cell of the stack that the instruction works on. -/
def stackCell? (i : Instruction) (p : Processor) : Option UInt8 :=
  match i with
  | push _ => some (p.sp + 1)
  | pop _ | ret => some p.sp
  | call _ => some (p.sp - 1)
  | _ => none

/-- What can be wrong for a decoded instruction before it takes effect, in the order in which it is
checked. -/
def hazards (i : Instruction) (size : Nat) (p : Processor) : List Hazard :=
  match i with
  | hlt => []
  | ret => [.address size p.sp.toNat]
  | push r => [.register r, .address size ((p.sp.toNat + 1) % 256)]
  -- Only here the cell is looked for before the register.
  | pop r => [.address size p.sp.toNat, .register r]
  | call r =>
    -- The return address has to fit into a cell before the cell has to exist.
    [.register r, .address 256 ((p.pc.toNat + 2) % 65536),
      .address size ((p.sp.toNat + 255) % 256)]
  | prn r | jmp r | jeq r | jne r | ldi r _ => [.register r]
  | arith _ a b => [.register a, .register b]

end Instruction

namespace Checked

/-- A register that was read can be set. -/
theorem set_of_get {r : Registers} {index x : UInt8} (h : r.get index = .ok x) (value : UInt8) :
    Checked (r.set index value) [] := by
  have hlt := Registers.lt_eight_of_get h
  rw [Registers.set_eq, if_pos hlt]
  exact ok _

theorem returnByte (a : UInt16) :
    Checked (Instruction.returnByte a) [.address 256 a.toNat] := by
  apply single
  intro fault
  by_cases h : a.toNat < 256
  · have hge : ¬ 256 ≤ a.toNat := Nat.not_le.mpr h
    simp [Instruction.returnByte, Hazard.address, h, hge]
  · have hge : 256 ≤ a.toNat := Nat.le_of_not_lt h
    simp [Instruction.returnByte, Hazard.address, h, hge, eq_comm]

theorem branch (r : UInt8) (taken : Bool) : Checked (i.branch p r taken) [.register r] :=
  (get _ r).bind fun _ _ => ok _

/-- The second read and the checks of the result meet no more than the two registers. -/
theorem apply (op : Operation) (r : Registers) (a b : UInt8) :
    Checked (op.apply r a b) [.register a, .register b] := by
  rw [Operation.apply_eq]
  refine (get r a).bind fun x hx => ?_
  rw [← List.append_nil [Hazard.register b]]
  refine (get r b).bind fun y _ => ?_
  cases op with
  | add => exact set_of_get hx _
  | mul => exact set_of_get hx _
  | cmp => exact ok _

theorem effect (i : Instruction) (p : Processor) (memory : Memory size) :
    Checked (i.effect p memory) (i.hazards size p) := by
  cases i with
  | hlt => exact ok _
  | ret =>
    have hsp := read memory p.sp.toUInt16
    rw [UInt8.toNat_toUInt16] at hsp
    exact hsp.bind fun _ _ => ok _
  | push r =>
    have hsp := locate memory (p.sp + 1).toUInt16
    rw [UInt8.toNat_toUInt16, UInt8.toNat_add] at hsp
    exact (get _ r).bind fun _ _ => hsp.bind fun _ _ => ok _
  | pop r =>
    have hsp := read memory p.sp.toUInt16
    rw [UInt8.toNat_toUInt16] at hsp
    exact hsp.bind fun value _ => (set _ r value).bind fun _ _ => ok _
  | prn r => exact (get _ r).bind fun _ _ => ok _
  | call r =>
    have hsp := locate memory (p.sp - 1).toUInt16
    rw [UInt8.toNat_toUInt16, UInt8.toNat_sub, Nat.add_comm] at hsp
    have hback := returnByte (p.pc + 2)
    rw [UInt16.toNat_add] at hback
    refine (get _ r).bind fun _ _ => ?_
    rw [Instruction.next_passing_call]
    exact hback.bind fun _ _ => hsp.bind fun _ _ => ok _
  | jmp r => exact (get _ r).bind fun _ _ => ok _
  | jeq r => exact branch r _
  | jne r => exact branch r _
  | ldi r value => exact (set _ r value).bind fun _ _ => ok _
  | arith op a b =>
    simp only [Instruction.effect, Instruction.opcode, Operation.ofOpcode_opcode]
    exact (apply op _ a b).bind fun _ _ => ok _

end Checked

namespace Instruction

/-- An instruction that fails names a register, its cell of the stack, or a return address that is
too large. -/
theorem fault_of_effect (h : i.effect p memory = .error fault) :
    (∃ r, fault = .noSuchRegister r) ∨
    (∃ cell, i.stackCell? p = some cell ∧ size ≤ cell.toNat ∧ fault = .noSuchAddress cell.toNat) ∨
    ∃ r, i = .call r ∧ 256 ≤ (p.pc + 2).toNat ∧ fault = .noSuchAddress (p.pc + 2).toNat := by
  obtain ⟨c, hc, hf⟩ := ((Checked.effect i p memory fault).mp h).exists_mem
  cases i with
  | hlt => cases hc
  | ret =>
    obtain rfl := List.mem_singleton.mp hc
    exact .inr (.inl ⟨p.sp, rfl, hf⟩)
  | push r =>
    rcases List.mem_cons.mp hc with rfl | hc
    · exact .inl ⟨r, hf.2⟩
    · obtain rfl := List.mem_singleton.mp hc
      exact .inr (.inl ⟨p.sp + 1, rfl, hf⟩)
  | pop r =>
    rcases List.mem_cons.mp hc with rfl | hc
    · exact .inr (.inl ⟨p.sp, rfl, hf⟩)
    · obtain rfl := List.mem_singleton.mp hc
      exact .inl ⟨r, hf.2⟩
  | call r =>
    rcases List.mem_cons.mp hc with rfl | hc
    · exact .inl ⟨r, hf.2⟩
    rcases List.mem_cons.mp hc with rfl | hc
    · exact .inr (.inr ⟨r, rfl, hf⟩)
    · obtain rfl := List.mem_singleton.mp hc
      refine .inr (.inl ⟨p.sp - 1, rfl, ?_⟩)
      rw [UInt8.toNat_sub, Nat.add_comm]
      exact hf
  | prn r | jmp r | jeq r | jne r | ldi r =>
    obtain rfl := List.mem_singleton.mp hc
    exact .inl ⟨r, hf.2⟩
  | arith op a b =>
    rcases List.mem_cons.mp hc with rfl | hc
    · exact .inl ⟨a, hf.2⟩
    · obtain rfl := List.mem_singleton.mp hc
      exact .inl ⟨b, hf.2⟩

end Instruction

/-- A check that only ever finds an address or a register index too large. -/
def OnlyBounds {α : Type} (x : Except Fault α) : Prop :=
  ∀ fault, x = .error fault → fault.isOutOfBounds = true

theorem OnlyBounds.effect (i : Instruction) (p : Processor) (memory : Memory size) :
    OnlyBounds (i.effect p memory) := by
  intro fault h
  rcases Instruction.fault_of_effect h with ⟨r, rfl⟩ | ⟨cell, _, _, rfl⟩ | ⟨r, _, _, rfl⟩ <;> rfl

end EightBit
