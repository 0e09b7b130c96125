import EightBit.Output.Limited
import EightBit.Proofs.Machine.Fetching
import EightBit.Proofs.Machine.History

/-! Machines whose memory holds every address of the stack and fewer cells than the program counter
can name: the program counter stays inside of the memory or just behind it. -/
namespace EightBit

namespace Instruction

variable {size : Nat} {p : Processor} {memory : Memory size} {i : Instruction} {e : Effect}

/-- An instruction goes to the one behind it, into the first 256 cells, or it halts. -/
theorem next_of_performs (h : i.Performs p memory e) :
    e.transfer.next = p.pc + UInt16.ofNat i.size ∨ e.transfer.next.toNat < 256 ∨
      i = .hlt ∧ e.transfer.next = p.pc := by
  have hbyte : ∀ b : UInt8, b.toUInt16.toNat < 256 := fun b => by simpa using b.toNat_lt
  cases h with
  | hlt => exact .inr (.inr ⟨rfl, rfl⟩)
  | ret | call | jmp => exact .inr (.inl (hbyte _))
  | jeq | jne =>
    dsimp only
    split
    · exact .inr (.inl (hbyte _))
    · exact .inl rfl
  | _ => exact .inl rfl

end Instruction

namespace Machine

/-- Addresses counted up from one that is inside, or just behind the last cell, do not wrap around
before they leave the memory. -/
theorem toNat_add_of_inside {size : Nat} (hs : size ≤ 65535) {pc : UInt16} (hpc : pc.toNat ≤ size)
    {k : Nat} (h : ∀ j < k, (pc + UInt16.ofNat j).toNat < size) :
    (pc + UInt16.ofNat k).toNat = pc.toNat + k ∧ pc.toNat + k ≤ size := by
  induction k with
  | zero => simpa using hpc
  | succ k ih =>
    obtain ⟨hk, _⟩ := ih fun j hj => h j (by omega)
    have hlt := h k (by omega)
    rw [UInt16.toNat_add, UInt16.toNat_ofNat']
    omega

section

variable {size : Nat} {δ : Type} [Device δ] {m : Machine size δ} {i : Instruction} {a : Nat}
  (hs : 256 ≤ size) (hs' : size ≤ 65535) (hpc : m.processor.pc.toNat ≤ size)
include hs hs' hpc

theorem pc_step_le : m.step.machine.processor.pc.toNat ≤ size := by
  by_cases hrun : m.isRunning = true
  · have hs := stepped_step (isRunning_iff.mp hrun)
    generalize m.step = outcome at hs ⊢
    cases hs with
    | @done i e output text hf he =>
      have hend := toNat_add_of_inside hs' hpc fun j hj => Processor.lt_size_of_fetch hf hj
      show e.transfer.next.toNat ≤ size
      rcases Instruction.next_of_performs (Instruction.performs_of_effect he) with hn | hn | ⟨_, hn⟩
      · rw [hn]
        omega
      · omega
      · rwa [hn]
    | _ => exact hpc
  · rw [step_of_not_running (by simpa using hrun)]
    exact hpc

/-- The address of a fault is the first one behind the memory, or the return address of a call that
does not fit into a cell. -/
theorem address_of_step (h : m.step.result = .error (.noSuchAddress a)) :
    (m.instruction? = none ∧ a = size) ∨
      ∃ r, m.instruction? = some (.call r) ∧ a = m.processor.pc.toNat + 2 ∧ 256 ≤ a ∧ a ≤ size := by
  have hrun := isRunning_of_error h
  rcases fault_of_step (isRunning_iff.mp hrun) h with hf | ⟨i, hf, he⟩ | ⟨_, failure, _, hw⟩
  · refine .inl ⟨by simp [instruction?, hf, Except.toOption], ?_⟩
    rcases Processor.fetch_eq_error hf with ⟨k, _, hge, hlt, ha⟩ | ⟨code, ha⟩
    · obtain ⟨hk, _⟩ := toNat_add_of_inside hs' hpc hlt
      cases ha
      omega
    · cases ha
  · have hi := instruction?_of_fetch (isRunning_iff.mp hrun) hf
    rcases Instruction.fault_of_effect he with ⟨r, ha⟩ | ⟨cell, _, hge, _⟩ | ⟨r, rfl, hge, ha⟩
    · cases ha
    · have := cell.toNat_lt
      omega
    · have hsize : (Instruction.call r).size = 2 := (Instruction.length_encode _).symm
      obtain ⟨hback, hend⟩ := toNat_add_of_inside hs' hpc fun j hj =>
        Processor.lt_size_of_fetch hf hj
      rw [hsize] at hback hend
      cases ha
      exact .inr ⟨r, hi, hback, hge, hback ▸ hend⟩
  · cases hw

theorem pc_after_le (n : Nat) : (m.after n).processor.pc.toNat ≤ size := by
  induction n with
  | zero => exact hpc
  | succ n ih => exact pc_step_le hs hs' ih

end

/-- No step ever finds that an opcode is no operation. -/
theorem ne_notArithmetic_of_step {size : Nat} {δ : Type} [Device δ] {m : Machine size δ}
    {fault : Fault} (h : m.step.result = .error fault) (o : Opcode) : fault ≠ .notArithmetic o := by
  rintro rfl
  rcases fault_of_step (isRunning_iff.mp (isRunning_of_error h)) h with
    hf | ⟨i, _, he⟩ | ⟨_, _, _, hw⟩
  · rcases Processor.fetch_eq_error hf with ⟨_, _, _, _, hk⟩ | ⟨_, hk⟩ <;> cases hk
  · rcases Instruction.fault_of_effect he with ⟨_, hk⟩ | ⟨_, _, _, hk⟩ | ⟨_, _, _, hk⟩ <;> cases hk
  · cases hw

/-- From a program counter inside of the memory or just behind it, none ever leads further out, as
long as all stack addresses exist and the address behind the memory can be named. The only address
that an instruction then reports is the return address of a call, which is never a cell of the
stack, no opcode is taken for an operation by mistake, and all addresses that are reported lie
between 256 and the cell behind the last one. A standard machine can report only that cell. -/
theorem reachable_faults :
    (∀ (size : Nat) (δ : Type) [Device δ] (m : Machine size δ), 256 ≤ size → size ≤ 65535 →
      m.processor.pc.toNat ≤ size → ∀ n,
        (m.after n).processor.pc.toNat ≤ size ∧
        (∀ i a, (m.after n).instruction? = some i →
          (m.after n).step.result = .error (.noSuchAddress a) →
          (∃ r, i = .call r) ∧ a = (m.after n).processor.pc.toNat + 2 ∧
            ∀ cell, i.stackCell? (m.after n).processor = some cell → a ≠ cell.toNat) ∧
        (∀ o, (m.after n).step.result ≠ .error (.notArithmetic o)) ∧
        ∀ a, (m.after n).step.result = .error (.noSuchAddress a) → 256 ≤ a ∧ a ≤ size) ∧
    ∀ (δ : Type) [Device δ] (m : Machine 256 δ), m.processor = .startingAt 0 →
      ∀ n a, (m.after n).step.result = .error (.noSuchAddress a) → a = 0x100 := by
  have haddress : ∀ {size : Nat} {δ : Type} [Device δ] {m : Machine size δ} {n a : Nat},
      256 ≤ size → size ≤ 65535 → m.processor.pc.toNat ≤ size →
      (m.after n).step.result = .error (.noSuchAddress a) → 256 ≤ a ∧ a ≤ size := by
    intro size δ _ m n a hs hs' hpc h
    rcases address_of_step hs hs' (pc_after_le hs hs' hpc n) h with ⟨_, rfl⟩ | ⟨_, _, _, hge, hle⟩
    · exact ⟨hs, Nat.le_refl _⟩
    · exact ⟨hge, hle⟩
  constructor
  · intro size δ _ m hs hs' hpc n
    have hpc' := pc_after_le hs hs' hpc n
    refine ⟨hpc', ?_, ?_, ?_⟩
    · intro i a hi h
      rcases address_of_step hs hs' hpc' h with ⟨hn, _⟩ | ⟨r, hr, ha, hge, _⟩
      · rw [hn] at hi
        cases hi
      · cases hi.symm.trans hr
        refine ⟨⟨r, rfl⟩, ha, ?_⟩
        intro cell _
        have := cell.toNat_lt
        omega
    · intro o h
      exact ne_notArithmetic_of_step h o rfl
    · intro a h
      exact haddress hs hs' hpc h
  · intro δ _ m hm n a h
    obtain ⟨hge, hle⟩ := haddress (by decide) (by decide) (by simp [hm, Processor.startingAt]) h
    omega

/-- Jumps to a call in the last two cells. -/
def caller : Machine 256 Unlimited where
  processor := .startingAt 0
  memory := (Memory.zero.place 0 [0x82, 0, 254, 0x54, 0]).place 254 [0x50, 0]
  output := ⟨.device, ""⟩
  log := .empty .off

theorem caller_reports_cell_behind :
    caller.processor = .startingAt 0 ∧ caller.processor.pc.toNat ≤ 256 ∧
    (caller.after 2).instruction? = some (.call 0) ∧
    (caller.after 2).step.result = .error (.noSuchAddress 0x100) ∧
    (caller.after 2).processor.pc.toNat ≤ 256 ∧
    (∀ cell, (Instruction.call 0).stackCell? (caller.after 2).processor = some cell →
      0x100 ≠ cell.toNat) ∧
    ∀ n a, (caller.after n).step.result = .error (.noSuchAddress a) → a = 0x100 := by
  have hi : (caller.after 2).instruction? = some (.call 0) := by decide +kernel
  have hf : (caller.after 2).step.result = .error (.noSuchAddress 0x100) :=
    result_of_faulted (by decide +kernel) (by decide +kernel)
  obtain ⟨hall, hstandard⟩ := reachable_faults
  obtain ⟨hpc, hcell, _, _⟩ :=
    hall 256 Unlimited caller (by decide) (by decide) (by decide) 2
  obtain ⟨_, _, hne⟩ := hcell _ _ hi hf
  exact ⟨rfl, by decide, hi, hf, hpc, hne, hstandard Unlimited caller rfl⟩

end Machine

end EightBit
