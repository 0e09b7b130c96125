import EightBit.Output.Limited
import EightBit.Proofs.Machine.Fetching
import EightBit.Proofs.Machine.Step

/-! A step that meets a fault leaves everything as it was, up to what an instruction that prints
has printed already. Instructions work in place, so none of them may change anything before a check
that can still fail. -/
namespace EightBit.Machine

variable {size : Nat} {δ : Type} {m : Machine size δ} {fault : Fault}

/-- Neither a check nor the fetch blames the device. -/
theorem ne_writeFailed_of_isOutOfBounds (h : fault.isOutOfBounds = true) (failure : WriteFailure) :
    fault ≠ .writeFailed failure := by
  rintro rfl
  cases h

theorem ne_writeFailed_of_fetch (h : m.processor.fetch m.memory = .error fault)
    (failure : WriteFailure) : fault ≠ .writeFailed failure := by
  rcases Processor.fetch_eq_error h with ⟨k, _, _, _, rfl⟩ | ⟨code, rfl⟩ <;> simp

/-- A step of a running machine answers a fault exactly if it leaves the machine with that fault.
Then nothing else has changed but what was printed before a refusal: a beginning of the line for
the register that was to be printed. -/
theorem step_fault_atomic [Device δ] (hr : m.processor.status = .running) (fault : Fault) :
    (m.step.result = .error fault ↔ m.step.machine.processor.status = .faulted fault) ∧
    (m.step.result = .error fault →
      m.step.machine.processor.pc = m.processor.pc ∧
      m.step.machine.processor.sp = m.processor.sp ∧
      m.step.machine.processor.registers = m.processor.registers ∧
      m.step.machine.memory = m.memory ∧
      ((∀ failure, fault ≠ .writeFailed failure) → m.step.machine.output = m.output) ∧
      ∀ failure, fault = .writeFailed failure → ∃ r value accepted,
        m.processor.fetch m.memory = .ok (.prn r) ∧ r < 8 ∧
        m.processor.registers.get r = .ok value ∧
        accepted <+: Output.lineOf value.toNat ∧
        m.step.machine.output.printed = m.output.printed ++ String.ofList accepted) := by
  have hs := stepped_step hr
  generalize m.step = outcome at hs ⊢
  cases hs with
  | unfetched hf =>
    refine ⟨by simp [fail], fun h => ?_⟩
    cases h
    refine ⟨rfl, rfl, rfl, rfl, fun _ => rfl, fun failure h => ?_⟩
    exact (ne_writeFailed_of_fetch hf failure h).elim
  | refused hf he =>
    refine ⟨by simp [fail], fun h => ?_⟩
    cases h
    refine ⟨rfl, rfl, rfl, rfl, fun _ => rfl, fun failure h => ?_⟩
    have hb := OnlyBounds.effect _ _ _ _ he
    exact (ne_writeFailed_of_isOutOfBounds hb failure h).elim
  | @unprinted i e failure output hf he ho =>
    refine ⟨by simp [fail], fun h => ?_⟩
    cases h
    refine ⟨rfl, rfl, rfl, rfl, fun h => (h failure rfl).elim, fun _ _ => ?_⟩
    obtain ⟨value, hv, hl⟩ := Output.prints_of_emit_error ho
    obtain ⟨r, rfl, hg⟩ := Instruction.prn_of_prints he hv
    obtain ⟨accepted, hp, ht, _⟩ := m.output.printLine_takes_prefix value.toNat
    rw [hl] at ht
    exact ⟨r, value, accepted, hf, Registers.lt_eight_of_get hg, hg, hp, ht⟩
  | @done i e output text hf he ho hn =>
    have hne : (m.completed e output text).processor.status ≠ .faulted fault := by
      simp only [completed]
      split <;> simp
    exact ⟨by simp [hne], by simp⟩

/-- A machine that is to print a register on a device with room for a single character. -/
def crampedPrinter : Machine 2 Limited where
  processor := { Processor.startingAt 0 with registers := ⟨Vector.replicate 8 200, .zero⟩ }
  memory := ⟨#v[0x47, 5]⟩
  output := ⟨⟨some 1, 8, .refused .storageFull⟩, ""⟩
  log := .empty .off

theorem crampedPrinter_fault_atomic :
    crampedPrinter.processor.status = .running ∧
    crampedPrinter.step.result = .error (.writeFailed .storageFull) ∧
    crampedPrinter.step.machine.processor.status = .faulted (.writeFailed .storageFull) ∧
    crampedPrinter.step.machine.memory = crampedPrinter.memory ∧
    ∃ r value accepted, crampedPrinter.processor.fetch crampedPrinter.memory = .ok (.prn r) ∧
      crampedPrinter.processor.registers.get r = .ok value ∧
      accepted <+: Output.lineOf value.toNat ∧
      crampedPrinter.step.machine.output.printed = String.ofList accepted := by
  have hresult : crampedPrinter.step.result = .error (.writeFailed .storageFull) := by rfl
  obtain ⟨hiff, hkeep⟩ := step_fault_atomic (m := crampedPrinter) rfl (.writeFailed .storageFull)
  obtain ⟨_, _, _, hmem, _, hprn⟩ := hkeep hresult
  obtain ⟨r, value, accepted, hf, _, hg, hp, ht⟩ := hprn _ rfl
  exact ⟨rfl, hresult, hiff.mp hresult, hmem, r, value, accepted, hf, hg, hp, ht⟩

end EightBit.Machine
