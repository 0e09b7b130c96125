import EightBit.Proofs.Machine.Ending
import EightBit.Proofs.Printing.Limited
import EightBit.Proofs.Program.Straight

/-! Assembled programs run to their end and show what they calculate. -/
namespace EightBit

namespace Command

/-- The bytes of a program that halts at its end. -/
def assemble (P : List Command) : List UInt8 :=
  code P ++ Instruction.hlt.encode

end Command

namespace Machine

open Command Output

variable {size : Nat} {δ : Type} [Device δ] {m : Machine size δ} {P : List Command}

/-- At its last instruction the machine stops, and all else is as it was. -/
theorem step_of_hlt (hr : m.isRunning = true) (hf : m.processor.fetch m.memory = .ok .hlt) :
    m.step.machine.processor = { m.processor with status := .halted } ∧
      m.step.machine.memory = m.memory ∧ m.step.machine.output = m.output := by
  have he : Instruction.hlt.effect m.processor m.memory =
      .ok { Instruction.hlt.passing m.processor with transfer := ⟨m.processor.pc, false⟩ } := rfl
  obtain ⟨text, hstep⟩ := step_of_silent (isRunning_iff.mp hr) hf he rfl
  rw [hstep]
  exact ⟨rfl, rfl, rfl⟩

/-- The machine runs through an assembled program and halts at its last byte. -/
theorem reaches_of_assemble (hr : m.isRunning = true) (hall : TakesAll m.output.device)
    (hcode : m.memory.Holds m.processor.pc.toNat (assemble P))
    (hend : m.processor.pc.toNat + (code P).length < 65536) :
    m.Reaches (P.length + 1) .halted ∧
      (m.after (P.length + 1)).processor =
        { m.processor with
          pc := m.processor.pc + UInt16.ofNat (code P).length
          registers := applyAll P m.processor.registers
          status := .halted } ∧
      (m.after (P.length + 1)).memory = m.memory ∧
      (m.after (P.length + 1)).output.printed =
        m.output.printed ++ String.ofList (lines P m.processor.registers) := by
  have hsize : Instruction.hlt.size = 1 := (Instruction.length_encode _).symm
  obtain ⟨hruns, hpasses, hfetch⟩ := passes_to hr hall hcode (by omega)
  obtain ⟨hprocessor, hmemory, houtput⟩ := step_of_hlt (hruns P.length (Nat.le_refl _)) hfetch
  refine ⟨⟨?_, ?_⟩, ?_, ?_, ?_⟩
  · intro j hj
    exact hruns j (by omega)
  · rw [after, hprocessor]
  · rw [after, hprocessor, hpasses.processor]
  · rw [after, hmemory, hpasses.memory]
  · rw [after, houtput, hpasses.printed]

/-- A program that is written anywhere into memory and started there runs to its end. The values
that it leaves, prints and compares are the residues of those that it calculates with numbers of
any size. -/
theorem run_assembled (P : List Command) (hr : m.isRunning = true)
    (hall : TakesAll m.output.device)
    (hfits : m.processor.pc.toNat + (assemble P).length ≤ min size 65536) :
    ∃ memory, m.memory.writeBlock m.processor.pc (assemble P) = .ok memory ∧
    ∃ m' : Machine size δ,
      (∀ fuel, P.length < fuel → run fuel { m with memory } = some ⟨.ok (), m'⟩) ∧
      m'.processor.status = .halted ∧
      m'.processor.pc.toNat + 1 = m.processor.pc.toNat + (assemble P).length ∧
      m'.processor.sp = m.processor.sp ∧
      m'.memory = memory ∧
      (∀ r : Fin 8, m'.processor.registers.values[r].toNat =
        (calculateAll P (.startingAt m.processor.registers)).values r % 256) ∧
      m'.output.printed = m.output.printed ++
        String.ofList (calculateAll P (.startingAt m.processor.registers)).text ∧
      m'.processor.registers.flags =
        (calculateAll P (.startingAt m.processor.registers)).flags m.processor.registers.flags := by
  have hlength : (assemble P).length = (code P).length + 1 := by
    simp [assemble, Instruction.encode, Instruction.operands]
  have hwrite : m.memory.writeBlock m.processor.pc (assemble P) =
      .ok (m.memory.place m.processor.pc.toNat (assemble P)) := by
    rw [Memory.writeBlock_eq]
    exact if_pos (by omega)
  refine ⟨_, hwrite, ?_⟩
  generalize hmemory : m.memory.place m.processor.pc.toNat (assemble P) = memory
  have hcode : memory.Holds m.processor.pc.toNat (assemble P) :=
    hmemory ▸ Memory.holds_place (by omega)
  have hend : m.processor.pc.toNat + (code P).length < 65536 := by omega
  obtain ⟨hreach, hprocessor, hmem, hprinted⟩ :=
    reaches_of_assemble (m := { m with memory }) hr hall hcode hend
  have hshows := Calculation.shows_startingAt m.processor.registers
  have hfinal := shows_applyAll P hshows
  have htext := text_calculateAll P hshows
  obtain ⟨log, hrun⟩ := run_of_halted hreach
  refine ⟨_, hrun, hreach.status, ?_, ?_, hmem, ?_, ?_, ?_⟩
  · simp only [hprocessor]
    rw [UInt16.toNat_add, UInt16.toNat_ofNat']
    omega
  · simp only [hprocessor]
  · intro r
    simp only [hprocessor]
    exact hfinal.values r
  · simp only [hprinted]
    rw [htext]
    rfl
  · simp only [hprocessor]
    exact hfinal.flags

/-- Doubles 200, compares the sum with another register and prints it. -/
def doubling : List Command :=
  [.load 0 200, .operate .add 0 0, .operate .cmp 0 1, .print 0]

/-- A memory that the program fits into behind the first byte. -/
def desk : Machine 13 Unlimited where
  processor := .startingAt 1
  memory := .zero
  output := ⟨.device, ""⟩
  log := .empty .off

theorem doubling_runs :
    desk.isRunning = true ∧ TakesAll desk.output.device ∧
    desk.processor.pc.toNat + (assemble doubling).length ≤ min 13 65536 ∧
    ∃ memory, desk.memory.writeBlock desk.processor.pc (assemble doubling) = .ok memory ∧
    ∃ m' : Machine 13 Unlimited, run 5 { desk with memory } = some ⟨.ok (), m'⟩ ∧
      m'.processor.pc.toNat + 1 = 13 ∧
      m'.processor.registers.values[0].toNat = 144 ∧
      m'.output.printed = "144\n" ∧
      m'.processor.registers.flags = .greater := by
  have hr : desk.isRunning = true := by decide
  have hall : TakesAll desk.output.device := takesAll_unlimited _
  have hfits : desk.processor.pc.toNat + (assemble doubling).length ≤ min 13 65536 := by decide
  obtain ⟨memory, hwrite, m', hrun, _, hpc, _, _, hvalues, hprinted, hflags⟩ :=
    run_assembled doubling hr hall hfits
  exact ⟨hr, hall, hfits, memory, hwrite, m', hrun 5 (by decide), hpc, hvalues 0, hprinted, hflags⟩

end Machine
end EightBit
