import EightBit.Output.Limited
import EightBit.Proofs.Machine.History
import EightBit.Proofs.Program.Command

/-! The flags are those of the last comparison, whatever was done since, and branches go by them. -/
namespace EightBit

theorem Flags.contains_equal_ofOrdering (x y : UInt8) :
    (ofOrdering (compare x.toNat y.toNat)).contains .equal = decide (x = y) := by
  cases h : compare x.toNat y.toNat with
  | eq =>
    have heq : x = y := UInt8.toNat_inj.mp (Nat.compare_eq_eq.mp h)
    rw [decide_eq_true heq]
    rfl
  | lt | gt =>
    have hne : x ≠ y := by
      rintro rfl
      simp at h
    rw [decide_eq_false hne]
    rfl

namespace Instruction

variable {size : Nat} {p : Processor} {memory : Memory size} {i : Instruction} {e : Effect}
  {r a b : UInt8}

/-- Only a comparison sets the flags. -/
theorem flags_of_performs (h : i.Performs p memory e) (hi : ∀ a b, i ≠ .arith .cmp a b) :
    e.registers.flags = p.registers.flags := by
  cases h with
  | pop hm hr => exact Registers.flags_set hr
  | ldi hr => exact Registers.flags_set hr
  | @arith op a b registers note hr =>
    obtain ⟨x, y, hx, hy, hs⟩ := Operation.apply_eq_ok_iff.mp hr
    cases op with
    | add | mul => exact Registers.flags_set hs
    | cmp => exact (hi a b rfl).elim
  | _ => rfl

theorem flags_of_performs_comparison (h : (Instruction.arith .cmp a b).Performs p memory e) :
    ∃ x y, p.registers.get a = .ok x ∧ p.registers.get b = .ok y ∧
      e.registers.flags = .ofOrdering (compare x.toNat y.toNat) := by
  cases h with
  | arith hr =>
    obtain ⟨x, y, hx, hy, rfl⟩ := Operation.apply_eq_ok_iff.mp hr
    exact ⟨x, y, hx, hy, Flags.comparing_eq x y⟩

/-- A branch that is taken if the equal flag is as wanted. -/
def BranchesOn (i : Instruction) (r : UInt8) (wanted : Bool) : Prop :=
  (i = .jeq r ∧ wanted = true) ∨ (i = .jne r ∧ wanted = false)

theorem BranchesOn.next_passing {wanted : Bool} (h : i.BranchesOn r wanted) :
    (i.passing p).transfer.next = p.pc + 2 := by
  have hsize : i.size = 2 := by
    rw [← length_encode]
    rcases h with ⟨rfl, _⟩ | ⟨rfl, _⟩ <;> rfl
  simp [passing, hsize]

/-- A branch goes to its target if the equal flag is as wanted, and on otherwise. -/
theorem next_of_branch {wanted : Bool} (h : i.Performs p memory e) (hi : i.BranchesOn r wanted) :
    ∃ target, p.registers.get r = .ok target ∧ e.transfer.next =
      if p.registers.flags.contains .equal = wanted then target.toUInt16 else p.pc + 2 := by
  have hpass := hi.next_passing (p := p)
  rcases hi with ⟨rfl, rfl⟩ | ⟨rfl, rfl⟩
  · cases h with
    | jeq hr =>
      refine ⟨_, hr, ?_⟩
      cases p.registers.flags.contains .equal <;> simp [hpass]
  · cases h with
    | jne hr =>
      refine ⟨_, hr, ?_⟩
      cases p.registers.flags.contains .equal <;> simp [hpass]

end Instruction

namespace Machine

variable {size : Nat} {δ : Type} [Device δ] {m : Machine size δ} {i : Instruction}
  {r a b x y : UInt8}

theorem flags_step_of_no_comparison (h : ¬ ∃ a b, m.executed? = some (.arith .cmp a b)) :
    m.step.machine.processor.registers.flags = m.processor.registers.flags := by
  apply registers_step_kept Registers.flags
  intro i e hi hp
  apply Instruction.flags_of_performs hp
  rintro a b rfl
  exact h ⟨a, b, hi⟩

theorem flags_step_of_comparison (h : m.executed? = some (.arith .cmp a b)) :
    ∃ x y, m.processor.registers.get a = .ok x ∧ m.processor.registers.get b = .ok y ∧
      m.step.machine.processor.registers.flags = .ofOrdering (compare x.toNat y.toNat) := by
  obtain ⟨e, output, text, hp, hm⟩ := performs_of_executed h
  rw [hm]
  exact Instruction.flags_of_performs_comparison hp

theorem pc_step_of_branch {wanted : Bool} (hi : m.executed? = some i) (hb : i.BranchesOn r wanted)
    (hf : m.processor.registers.flags = .ofOrdering (compare x.toNat y.toNat)) :
    ∃ target, m.processor.registers.get r = .ok target ∧ m.step.machine.processor.pc =
      if decide (x = y) = wanted then target.toUInt16 else m.processor.pc + 2 := by
  obtain ⟨e, output, text, hp, hm⟩ := performs_of_executed hi
  obtain ⟨target, hr, hnext⟩ := Instruction.next_of_branch hp hb
  rw [hf, Flags.contains_equal_ofOrdering] at hnext
  rw [hm]
  exact ⟨target, hr, hnext⟩

/-- As long as no comparison was made the flags are those of the start, whatever their bits.
Afterwards they are the one flag for the order of the two bytes that were compared last, as these
were then, and branches go by whether they were equal. -/
theorem flags_tell_last_comparison (m : Machine size δ) (n : Nat) :
    ((∀ k < n, ¬ ∃ a b, (m.after k).executed? = some (.arith .cmp a b)) ∧
      (m.after n).processor.registers.flags = m.processor.registers.flags) ∨
    ∃ k < n, ∃ a b x y, (m.after k).executed? = some (.arith .cmp a b) ∧
      (∀ j, k < j → j < n → ¬ ∃ a b, (m.after j).executed? = some (.arith .cmp a b)) ∧
      (m.after k).processor.registers.get a = .ok x ∧
      (m.after k).processor.registers.get b = .ok y ∧
      (m.after n).processor.registers.flags = .ofOrdering (compare x.toNat y.toNat) ∧
      (∀ r, (m.after n).executed? = some (.jeq r) →
        ∃ target, (m.after n).processor.registers.get r = .ok target ∧
          (m.after (n + 1)).processor.pc =
            if x = y then target.toUInt16 else (m.after n).processor.pc + 2) ∧
      ∀ r, (m.after n).executed? = some (.jne r) →
        ∃ target, (m.after n).processor.registers.get r = .ok target ∧
          (m.after (n + 1)).processor.pc =
            if x ≠ y then target.toUInt16 else (m.after n).processor.pc + 2 := by
  rcases kept_or_last_set (fun m : Machine size δ => m.processor.registers.flags)
    (fun m => flags_step_of_no_comparison (m := m)) m n with
    hnone | ⟨k, hk, ⟨a, b, hcmp⟩, hlast, hsame⟩
  · exact .inl hnone
  · obtain ⟨x, y, hx, hy, hset⟩ := flags_step_of_comparison hcmp
    have hflags := hsame.trans hset
    refine .inr ⟨k, hk, a, b, x, y, hcmp, hlast, hx, hy, hflags, ?_, ?_⟩
    · intro r hi
      simpa [after] using pc_step_of_branch hi (.inl ⟨rfl, rfl⟩) hflags
    · intro r hi
      simpa [after] using pc_step_of_branch hi (.inr ⟨rfl, rfl⟩) hflags

/-- Compares two registers that are equal, changes one of them and branches. At the start all bits
of the flags are set. -/
def chooser : Machine 16 Unlimited where
  processor :=
    { pc := 0
      sp := 0
      registers := ⟨#v[5, 5, 9, 0, 0, 0, 0, 0], ⟨0xFF⟩⟩
      status := .running }
  memory := Memory.zero.place 0 [0xA7, 0, 1, 0xA0, 0, 0, 0x55, 2]
  output := ⟨.device, ""⟩
  log := .empty .off

theorem chooser_branches :
    (chooser.after 0).executed? = some (.arith .cmp 0 1) ∧
    (chooser.after 1).executed? = some (.arith .add 0 0) ∧
    (chooser.after 2).executed? = some (.jeq 2) ∧
    (chooser.after 2).processor.registers.get 0 = .ok 10 ∧
    (chooser.after 2).processor.registers.flags = .equal ∧
    (chooser.after 3).processor.pc = 9 := by
  have hcmp : (chooser.after 0).executed? = some (.arith .cmp 0 1) := by decide +kernel
  have hadd : (chooser.after 1).executed? = some (.arith .add 0 0) := by decide +kernel
  have hjeq : (chooser.after 2).executed? = some (.jeq 2) := by decide +kernel
  refine ⟨hcmp, hadd, hjeq, by rfl, ?_⟩
  rcases flags_tell_last_comparison chooser 2 with
    ⟨hnone, _⟩ | ⟨k, hk, a, b, x, y, hlast, _, hx, hy, hflags, hbranch, _⟩
  · exact (hnone 0 (by decide) ⟨0, 1, hcmp⟩).elim
  · obtain rfl | rfl : k = 0 ∨ k = 1 := by omega
    · cases hcmp.symm.trans hlast
      cases hx
      cases hy
      obtain ⟨target, ht, hpc⟩ := hbranch 2 hjeq
      have hnine : (chooser.after 2).processor.registers.get 2 = .ok 9 := by rfl
      cases hnine.symm.trans ht
      exact ⟨hflags, hpc⟩
    · cases hadd.symm.trans hlast

end Machine
end EightBit
