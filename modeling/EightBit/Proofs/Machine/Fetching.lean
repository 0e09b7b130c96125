import EightBit.Proofs.Machine.Checks

/-! What a fetch reads, and the address that it reports if it fails. -/
namespace EightBit.Processor

variable {size : Nat} {p : Processor} {memory : Memory size} {o : Opcode} {i : Instruction}
  {fault : Fault} {a : UInt8} {k : Nat}

theorem fetchOperand_eq_error (h : p.fetchOperand memory o k = .error fault) :
    k ≤ o.operandCount ∧ size ≤ (p.pc + UInt16.ofNat k).toNat ∧
      fault = .noSuchAddress (p.pc + UInt16.ofNat k).toNat := by
  unfold fetchOperand at h
  split at h
  next hk => exact ⟨hk, Memory.read_eq_error_iff.mp h⟩
  next => cases h

theorem lt_size_of_fetchOperand (h : p.fetchOperand memory o k = .ok a)
    (hk : k ≤ o.operandCount) : (p.pc + UInt16.ofNat k).toNat < size := by
  rw [fetchOperand, if_pos hk] at h
  exact Memory.lt_size_of_get? (Memory.read_eq_ok_iff.mp h)

/-- A fetch succeeds if there is an opcode at the program counter and all its operands exist. -/
theorem fetch_eq_ok_iff : p.fetch memory = .ok i ↔ ∃ o a b,
    memory.get? p.pc.toNat = some o.code ∧ p.fetchOperand memory o 1 = .ok a ∧
      p.fetchOperand memory o 2 = .ok b ∧ i = o.instruction a b := by
  simp only [fetch, bind_eq_ok_iff, Memory.read_eq_ok_iff]
  constructor
  · rintro ⟨code, hcode, h⟩
    cases ho : Opcode.ofCode? code with
    | none => simp [ho, throw, throwThe, MonadExceptOf.throw] at h
    | some o =>
      simp only [ho, bind_eq_ok_iff] at h
      obtain ⟨a, ha, b, hb, h⟩ := h
      cases h
      exact ⟨o, a, b, by rw [hcode, Opcode.code_of_ofCode? ho], ha, hb, rfl⟩
  · rintro ⟨o, a, b, hcode, ha, hb, rfl⟩
    refine ⟨o.code, hcode, ?_⟩
    simp only [Opcode.ofCode?_code, bind_eq_ok_iff]
    exact ⟨a, ha, b, hb, rfl⟩

/-- A fetch that fails meets the first of its addresses that does not exist, or a byte that is no
opcode. -/
theorem fetch_eq_error (h : p.fetch memory = .error fault) :
    (∃ k ≤ 2, size ≤ (p.pc + UInt16.ofNat k).toNat ∧
      (∀ j < k, (p.pc + UInt16.ofNat j).toNat < size) ∧
      fault = .noSuchAddress (p.pc + UInt16.ofNat k).toNat) ∨
    ∃ code, fault = .unknownOpcode code p.pc := by
  simp only [fetch, bind_eq_error_iff, Memory.read_eq_ok_iff] at h
  rcases h with h | ⟨code, hcode, h⟩
  · have := Memory.read_eq_error_iff.mp h
    exact .inl ⟨0, by omega, by simpa using this.1, by simp, by simpa using this.2⟩
  have h0 : (p.pc + UInt16.ofNat 0).toNat < size := by
    simpa using Memory.lt_size_of_get? hcode
  cases ho : Opcode.ofCode? code with
  | none =>
    simp only [ho] at h
    cases h
    exact .inr ⟨code, rfl⟩
  | some o =>
    simp only [ho, bind_eq_error_iff] at h
    rcases h with h | ⟨a, ha, h | ⟨b, hb, h⟩⟩
    · obtain ⟨_, hge, rfl⟩ := fetchOperand_eq_error h
      refine .inl ⟨1, by omega, hge, fun j hj => ?_, rfl⟩
      obtain rfl : j = 0 := by omega
      exact h0
    · obtain ⟨hk, hge, rfl⟩ := fetchOperand_eq_error h
      have h1 := lt_size_of_fetchOperand ha (by omega)
      refine .inl ⟨2, Nat.le_refl 2, hge, fun j hj => ?_, rfl⟩
      obtain rfl | rfl : j = 0 ∨ j = 1 := by omega
      · exact h0
      · exact h1
    · cases h

/-- All bytes of an instruction that is fetched lie in memory. -/
theorem lt_size_of_fetch (h : p.fetch memory = .ok i) {j : Nat} (hj : j < i.size) :
    (p.pc + UInt16.ofNat j).toNat < size := by
  obtain ⟨o, a, b, hcode, ha, hb, rfl⟩ := fetch_eq_ok_iff.mp h
  rw [Instruction.size, Instruction.opcode_instruction, Opcode.size] at hj
  have hcount := o.operandCount_le_two
  obtain rfl | rfl | rfl : j = 0 ∨ j = 1 ∨ j = 2 := by omega
  · simpa using Memory.lt_size_of_get? hcode
  · exact lt_size_of_fetchOperand ha (by omega)
  · exact lt_size_of_fetchOperand hb (by omega)

end EightBit.Processor
