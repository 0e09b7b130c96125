import EightBit.Proofs.Machine.Ending
import EightBit.Proofs.Machine.Inside
import Mathlib.Tactic.ByContra

/-! A machine that does not transfer control moves on through its memory, so it soon comes to its
end, whatever it writes there. -/
namespace EightBit

namespace Instruction

/-- Whether the instruction goes elsewhere than behind itself, given the flags. -/
def transfers (i : Instruction) (flags : Flags) : Bool :=
  match i with
  | ret | call _ | jmp _ => true
  | jeq _ => flags.contains .equal
  | jne _ => !flags.contains .equal
  | _ => false

variable {size : Nat} {p : Processor} {memory : Memory size} {i : Instruction} {e : Effect}

theorem transfer_of_performs (h : i.Performs p memory e) (hi : i ≠ .hlt)
    (ht : i.transfers p.registers.flags = false) : e.transfer = (i.passing p).transfer := by
  cases h with
  | hlt => exact (hi rfl).elim
  | ret | call | jmp => cases ht
  | jeq hr =>
    have hflag : p.registers.flags.contains .equal = false := ht
    simp [hflag]
  | jne hr =>
    have hflag : (!p.registers.flags.contains .equal) = false := ht
    simp [hflag]
  | _ => rfl

/-- Only instructions that halt or return are made of a single byte. -/
theorem two_le_size {flags : Flags} (hi : i ≠ .hlt) (ht : i.transfers flags = false) :
    2 ≤ i.size := by
  rw [size, Opcode.size, Opcode.operandCount_eq]
  cases i with
  | hlt => exact (hi rfl).elim
  | ret => cases ht
  | arith op => cases op <;> simp [opcode, Operation.opcode]
  | _ => simp [opcode]

end Instruction

namespace Machine

variable {size : Nat} {δ : Type} [Device δ]

/-- The next step succeeds with an instruction that goes on behind itself. -/
def Proceeds (m : Machine size δ) : Prop :=
  ∃ i, m.executed? = some i ∧ i ≠ .hlt ∧ i.transfers m.processor.registers.flags = false

/-- The next step succeeds with an instruction that goes elsewhere. -/
def Transfers (m : Machine size δ) : Prop :=
  ∃ i, m.executed? = some i ∧ i.transfers m.processor.registers.flags = true

variable {m : Machine size δ} {n : Nat}

/-- A step that neither proceeds nor transfers control is the last one. -/
theorem stopped_of_neither (hp : ¬ m.Proceeds) (ht : ¬ m.Transfers) :
    m.step.machine.isRunning = false := by
  cases hrun : m.isRunning with
  | false => rwa [step_of_not_running hrun]
  | true =>
    rcases status_step (isRunning_iff.mp hrun) with ⟨hok, _⟩ | ⟨fault, _, hf⟩
    · obtain ⟨i, hi⟩ := exists_executed hrun hok
      obtain rfl : i = .hlt := by
        by_contra hne
        cases hflag : i.transfers m.processor.registers.flags with
        | false => exact hp ⟨i, hi, hne, hflag⟩
        | true => exact ht ⟨i, hi, hflag⟩
      obtain ⟨e, output, text, he, hm⟩ := performs_of_executed hi
      rw [hm]
      cases he with
      | hlt => rfl
    · simp [isRunning, hf]

section

variable (hs : size ≤ 65535)
include hs

/-- All bytes of the instruction lie in memory, so the address behind it does not wrap around. -/
theorem pc_step_of_proceeds (h : m.Proceeds) : ∃ i, m.executed? = some i ∧ 2 ≤ i.size ∧
    m.step.machine.processor.pc.toNat = m.processor.pc.toNat + i.size ∧
    m.processor.pc.toNat + i.size ≤ size := by
  obtain ⟨i, hi, hne, hflag⟩ := h
  obtain ⟨e, output, text, he, hm⟩ := performs_of_executed hi
  obtain ⟨_, hf⟩ := fetch_of_instruction? (executed?_eq_some_iff.mp hi).1
  have hsize := Instruction.two_le_size hne hflag
  have hpc : m.processor.pc.toNat < size := by
    simpa using Processor.lt_size_of_fetch hf (j := 0) (by omega)
  obtain ⟨hnext, hend⟩ := toNat_add_of_inside hs (Nat.le_of_lt hpc) fun j hj =>
    Processor.lt_size_of_fetch hf hj
  refine ⟨i, hi, hsize, ?_, hend⟩
  rw [hm, ← hnext]
  simp [completed, Instruction.transfer_of_performs he hne hflag, Instruction.passing]

theorem pc_after_of_proceeds (h : ∀ k < n, (m.after k).Proceeds) :
    m.processor.pc.toNat + 2 * n ≤ (m.after n).processor.pc.toNat ∧
      (0 < n → (m.after n).processor.pc.toNat ≤ size) := by
  induction n with
  | zero => simp [after]
  | succ n ih =>
    obtain ⟨hle, _⟩ := ih fun k hk => h k (by omega)
    obtain ⟨i, _, hsize, hnext, hend⟩ := pc_step_of_proceeds hs (h n (Nat.lt_succ_self n))
    rw [after, hnext]
    constructor
    · omega
    · intro _
      exact hend

/-- Each of the steps takes at least two bytes of the memory. -/
theorem le_half_of_proceeds (h : ∀ k < n, (m.after k).Proceeds) : n ≤ size / 2 := by
  obtain ⟨hle, hsize⟩ := pc_after_of_proceeds hs h
  omega

/-- A machine that runs for longer than its memory lasts has transferred control. -/
theorem exists_transfer (hr : (m.after (size / 2 + 1)).isRunning = true) :
    ∃ k < size / 2 + 1, (m.after k).Transfers := by
  by_contra hnone
  have hproceeds : ∀ k < size / 2 + 1, (m.after k).Proceeds := by
    intro k hk
    by_contra hp
    have hstop : (m.after (k + 1)).isRunning = false :=
      stopped_of_neither hp fun ht => hnone ⟨k, hk, ht⟩
    rw [after_of_stopped hstop hk, hstop] at hr
    cases hr
  have := le_half_of_proceeds hs hproceeds
  omega

end

/-- On a memory whose every address can be named, each step that goes on behind its instruction
takes the program counter at least two cells further, without wrapping around. So there are no more
such steps in a row than half the cells. A machine that does not transfer control stops within one
step more, and one that never stops transfers control again and again, after no more steps than
that. Nothing is assumed of the memory, which may change under way. -/
theorem progress_without_transfer (hs : size ≤ 65535) (m : Machine size δ) :
    (∀ k, (m.after k).Proceeds → ∃ i, (m.after k).executed? = some i ∧ 2 ≤ i.size ∧
      (m.after (k + 1)).processor.pc.toNat = (m.after k).processor.pc.toNat + i.size) ∧
    (∀ a n, (∀ k, a ≤ k → k < a + n → (m.after k).Proceeds) → n ≤ size / 2) ∧
    ((∀ k ≤ size / 2, ¬ (m.after k).Transfers) → ∃ k ≤ size / 2 + 1, ∃ s,
      m.Reaches k s ∧ s ≠ .running ∧ m.run (size / 2 + 1) = (m.after k).finish?) ∧
    ((∀ k, (m.after k).isRunning = true) →
      ∀ a, ∃ k, a ≤ k ∧ k < a + (size / 2 + 1) ∧ (m.after k).Transfers) := by
  refine ⟨?_, ?_, ?_, ?_⟩
  · intro k hk
    obtain ⟨i, hi, hsize, hnext, _⟩ := pc_step_of_proceeds hs hk
    exact ⟨i, hi, hsize, hnext⟩
  · intro a n h
    apply le_half_of_proceeds (m := m.after a) hs
    intro k hk
    rw [after_add]
    exact h (a + k) (by omega) (by omega)
  · intro hnone
    obtain ⟨k, hk, s, hreach, hend⟩ := m.exists_reaches (size / 2 + 1)
    have hstop : s ≠ .running := by
      rintro rfl
      obtain rfl := hend rfl
      obtain ⟨j, hj, ht⟩ := exists_transfer hs (isRunning_iff.mpr hreach.status)
      exact hnone j (by omega) ht
    exact ⟨k, hk, s, hreach, hstop, run_of_reaches hreach hk hstop⟩
  · intro hr a
    obtain ⟨k, hk, ht⟩ := exists_transfer (m := m.after a) hs (by rw [after_add]; exact hr _)
    rw [after_add] at ht
    exact ⟨a + k, by omega, by omega, ht⟩

/-- Pushes a byte of the code that it runs into next, and prints until its memory ends. -/
def runner : Machine 7 Unlimited where
  processor :=
    { pc := 0
      sp := 3
      registers := ⟨#v[0x47, 0, 0, 0, 0, 0, 0, 0], .zero⟩
      status := .running }
  memory := ⟨#v[0x45, 0, 0x47, 0, 0, 0, 0x47]⟩
  output := ⟨.device, ""⟩
  log := .empty .off

theorem runner_stops_at_end_of_memory :
    (∀ k < 3, (runner.after k).Proceeds) ∧ (runner.after 1).memory ≠ runner.memory ∧
    7 ≤ 65535 ∧ (∀ k ≤ 3, ¬ (runner.after k).Transfers) ∧
    ∃ k ≤ 4, ∃ s, runner.Reaches k s ∧ s ≠ .running ∧ runner.run 4 = (runner.after k).finish? := by
  have h0 : runner.executed? = some (.push 0) := by decide +kernel
  have h1 : (runner.after 1).executed? = some (.prn 0) := by decide +kernel
  have h2 : (runner.after 2).executed? = some (.prn 0) := by decide +kernel
  have h3 : (runner.after 3).executed? = none := by decide +kernel
  obtain ⟨_, _, hstop, _⟩ := progress_without_transfer (by decide) runner
  have hnone : ∀ k ≤ 3, ¬ (runner.after k).Transfers := by
    rintro k hk ⟨i, hi, ht⟩
    obtain rfl | rfl | rfl | rfl : k = 0 ∨ k = 1 ∨ k = 2 ∨ k = 3 := by omega
    · cases h0.symm.trans hi
      cases ht
    · cases h1.symm.trans hi
      cases ht
    · cases h2.symm.trans hi
      cases ht
    · cases h3.symm.trans hi
  refine ⟨?_, by decide +kernel, by decide, hnone, hstop hnone⟩
  intro k hk
  obtain rfl | rfl | rfl : k = 0 ∨ k = 1 ∨ k = 2 := by omega
  · exact ⟨_, h0, by decide, rfl⟩
  · exact ⟨_, h1, by decide, rfl⟩
  · exact ⟨_, h2, by decide, rfl⟩

end Machine
end EightBit
