import EightBit.Proofs.Machine.Hazards
import EightBit.Proofs.Machine.History

/-! The addresses that faults name. A step names an address of the memory only for the return
address of a call, which has to fit into a cell however large the memory is. -/
namespace EightBit

namespace Instruction

variable {size : Nat} {p : Processor} {memory : Memory size} {r target : UInt8} {a : Nat}

theorem get_of_call_address (h : (call r).effect p memory = .error (.noSuchAddress a)) :
    ∃ target, p.registers.get r = .ok target := by
  cases hr : p.registers.get r with
  | ok target => exact ⟨target, rfl⟩
  | error fault =>
    obtain ⟨_, rfl⟩ := Registers.get_eq_error_iff.mp hr
    simp only [effect, hr, bind, Except.bind] at h
    cases h

/-- A call looks for room for its return address before it looks for its cell of the stack. -/
theorem effect_call_of_far (hr : p.registers.get r = .ok target) (h : 256 ≤ (p.pc + 2).toNat) :
    (call r).effect p memory = .error (.noSuchAddress (p.pc + 2).toNat) := by
  have hreturn : returnByte (p.pc + 2) = .error (.noSuchAddress (p.pc + 2).toNat) :=
    if_neg (Nat.not_lt.mpr h)
  simp only [effect, hr, next_passing_call, hreturn, bind, Except.bind]

end Instruction

namespace Machine

variable {size : Nat} {δ : Type} [Device δ] {m : Machine size δ} {a : Nat} {r target : UInt8}

/-- The only address of the memory that a step can name is a return address. -/
theorem call_of_existing_address (h : m.step.result = .error (.noSuchAddress a)) (ha : a < size) :
    ∃ r target, m.instruction? = some (.call r) ∧ m.processor.registers.get r = .ok target ∧
      a = (m.processor.pc + 2).toNat ∧ 256 ≤ a := by
  have hr := isRunning_iff.mp (isRunning_of_error h)
  rcases fault_of_step hr h with hf | ⟨i, hf, he⟩ | ⟨_, _, _, hw⟩
  · rcases Processor.fetch_eq_error hf with ⟨k, _, hge, _, hk⟩ | ⟨_, hcode⟩
    · cases hk
      omega
    · cases hcode
  · rcases Instruction.fault_of_effect he with ⟨_, hk⟩ | ⟨cell, _, hge, hk⟩ | ⟨r, rfl, hge, hk⟩
    · cases hk
    · cases hk
      omega
    · cases hk
      obtain ⟨target, hget⟩ := Instruction.get_of_call_address he
      exact ⟨r, target, instruction?_of_fetch hr hf, hget, rfl, hge⟩
  · cases hw

theorem step_of_far_call (hi : m.instruction? = some (.call r))
    (hget : m.processor.registers.get r = .ok target) (h : 256 ≤ (m.processor.pc + 2).toNat) :
    m.step.result = .error (.noSuchAddress (m.processor.pc + 2).toNat) := by
  obtain ⟨hr, hf⟩ := fetch_of_instruction? hi
  rw [result_step hr, hf]
  simp only [Instruction.effect_call_of_far hget h, bind, Except.bind]

/-- On every run, an address that a fault names is not one of the memory, unless the step is a call
whose return address is larger than 255 and still an address of the memory. -/
theorem names_existing_address_iff (m : Machine size δ) (n a : Nat) :
    ((m.after n).step.result = .error (.noSuchAddress a) ∧ a < size) ↔
      ∃ r target, (m.after n).instruction? = some (.call r) ∧
        (m.after n).processor.registers.get r = .ok target ∧
        a = ((m.after n).processor.pc.toNat + 2) % 65536 ∧ 256 ≤ a ∧ a < size := by
  have hback : ((m.after n).processor.pc + 2).toNat =
      ((m.after n).processor.pc.toNat + 2) % 65536 := UInt16.toNat_add _ _
  constructor
  · rintro ⟨h, ha⟩
    obtain ⟨r, target, hi, hget, rfl, hge⟩ := call_of_existing_address h ha
    exact ⟨r, target, hi, hget, hback, hge, ha⟩
  · rintro ⟨r, target, hi, hget, rfl, hge, ha⟩
    rw [← hback] at hge ha ⊢
    exact ⟨step_of_far_call hi hget hge, ha⟩

/-- Calls from the last two of the first 256 cells of a memory of 512 cells. -/
def farCaller : Machine 512 Unlimited where
  processor := .startingAt 254
  memory := Memory.zero.place 254 [0x50, 0]
  output := ⟨.device, ""⟩
  log := .empty .off

theorem call_names_existing_address : ¬ ∀ n a,
    (farCaller.after n).step.result = .error (.noSuchAddress a) → 512 ≤ a := by
  intro h
  have hi : farCaller.instruction? = some (.call 0) := by decide +kernel
  have hget : farCaller.processor.registers.get 0 = .ok 0 := rfl
  have hstep : farCaller.step.result = .error (.noSuchAddress 256) :=
    step_of_far_call hi hget (by decide)
  have := h 0 256 hstep
  omega

end Machine
end EightBit
