import EightBit.Proofs.Machine.History
import EightBit.Proofs.Program.Command
import EightBit.Proofs.Program.Layout

/-! Straight programs pass all checks, so the machine runs through them, wherever they stand in
memory. -/
namespace EightBit

namespace Machine

open Command Output

variable {size : Nat} {δ : Type} [Device δ] {m m' m'' : Machine size δ} {c : Command}
  {P : List Command}

/-- The second machine is what the program makes of the first. -/
structure Passes (m : Machine size δ) (P : List Command) (m' : Machine size δ) : Prop where
  processor : m'.processor =
    { m.processor with
      pc := m.processor.pc + UInt16.ofNat (code P).length
      registers := applyAll P m.processor.registers }
  memory : m'.memory = m.memory
  takesAll : TakesAll m'.output.device
  printed : m'.output.printed = m.output.printed ++ String.ofList (lines P m.processor.registers)

theorem Passes.nil (hall : TakesAll m.output.device) : m.Passes [] m where
  processor := by simp [code, applyAll]
  memory := rfl
  takesAll := hall
  printed := by simp [lines]

theorem Passes.cons (h : m.Passes [c] m') (h' : m'.Passes P m'') : m.Passes (c :: P) m'' where
  processor := by
    rw [h'.processor, h.processor]
    simp [code, applyAll, UInt16.add_assoc]
  memory := h'.memory.trans h.memory
  takesAll := h'.takesAll
  printed := by
    rw [h'.printed, h.printed, h.processor]
    simp [lines, applyAll, String.append_assoc]

/-- One command takes one step. -/
theorem passes_step (hr : m.isRunning = true) (hall : TakesAll m.output.device)
    (hf : m.processor.fetch m.memory = .ok c.instruction) : m.Passes [c] m.step.machine := by
  obtain ⟨note, he⟩ := c.effect_instruction m.processor m.memory
  obtain ⟨text, hn⟩ := Instruction.note_of_effect he
  obtain ⟨d, ho, hd⟩ := emit_of_takesAll hall m.output.printed (c.prints? m.processor.registers)
  rw [step_eq_of_stepped (isRunning_iff.mp hr) (.done hf he ho hn)]
  refine ⟨?_, ?_, hd, ?_⟩
  · simp [completed, Instruction.passing, code, applyAll, isRunning_iff.mp hr,
      Instruction.length_encode]
  · simp [completed, commit, Instruction.passing]
  · simp [completed, lines]

/-- Where the code of a program stands, the machine runs through it. -/
theorem passes_after (hr : m.isRunning = true) (hall : TakesAll m.output.device)
    (hcode : m.memory.Holds m.processor.pc.toNat (code P))
    (hend : m.processor.pc.toNat + (code P).length < 65536) :
    (∀ k ≤ P.length, (m.after k).isRunning = true) ∧ m.Passes P (m.after P.length) := by
  induction P generalizing m with
  | nil =>
    refine ⟨?_, .nil hall⟩
    intro k hk
    obtain rfl := Nat.le_zero.mp hk
    exact hr
  | cons c P ih =>
    have hsplit : code (c :: P) = c.instruction.encode ++ code P := List.flatMap_cons
    rw [hsplit, List.length_append, Instruction.length_encode] at hend
    rw [hsplit] at hcode
    have hf := Processor.fetch_of_holds hcode.left (by omega)
    have hstep := passes_step hr hall hf
    have hpc : m.step.machine.processor.pc.toNat =
        m.processor.pc.toNat + c.instruction.encode.length := by
      simp only [hstep.processor, code, List.flatMap_cons, List.flatMap_nil, List.append_nil]
      rw [UInt16.toNat_add, UInt16.toNat_ofNat', Instruction.length_encode]
      omega
    have hr' : m.step.machine.isRunning = true := by
      rw [isRunning_iff, hstep.processor]
      exact isRunning_iff.mp hr
    obtain ⟨hruns, hpasses⟩ := ih hr' hstep.takesAll
      (by rw [hstep.memory, hpc]; exact hcode.right)
      (by rw [hpc, Instruction.length_encode]; omega)
    constructor
    · intro k hk
      cases k with
      | zero => exact hr
      | succ k =>
        rw [← after_step]
        exact hruns k (by simpa using hk)
    · rw [List.length_cons, ← after_step]
      exact hstep.cons hpasses

/-- Behind a program the machine fetches what stands there. -/
theorem passes_to {i : Instruction} (hr : m.isRunning = true) (hall : TakesAll m.output.device)
    (hcode : m.memory.Holds m.processor.pc.toNat (code P ++ i.encode))
    (hend : m.processor.pc.toNat + (code P).length + i.size ≤ 65536) :
    (∀ k ≤ P.length, (m.after k).isRunning = true) ∧ m.Passes P (m.after P.length) ∧
      (m.after P.length).processor.fetch (m.after P.length).memory = .ok i := by
  have hsize : i.size = 1 + i.opcode.operandCount := rfl
  obtain ⟨hruns, hpasses⟩ := passes_after hr hall hcode.left (by omega)
  have hpc : (m.after P.length).processor.pc.toNat =
      m.processor.pc.toNat + (code P).length := by
    simp only [hpasses.processor]
    rw [UInt16.toNat_add, UInt16.toNat_ofNat']
    omega
  have hlast : (m.after P.length).memory.Holds (m.after P.length).processor.pc.toNat i.encode := by
    rw [hpasses.memory, hpc]
    exact hcode.right
  exact ⟨hruns, hpasses, Processor.fetch_of_holds hlast (by omega)⟩

end Machine
end EightBit
