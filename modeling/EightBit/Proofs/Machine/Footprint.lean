import EightBit.Proofs.Machine.Truncation
import EightBit.Proofs.Stack.Discipline

/-! What a run can have changed. Cells change where values are pushed and return addresses are put,
registers where an instruction names them, and output is made by the instructions that print. -/
namespace EightBit

theorem Opcode.eq_of_closer {o c : Opcode} (h : o.closer? = some c) : o = .push ∨ o = .call := by
  cases o <;> cases h
  · exact .inl rfl
  · exact .inr rfl

theorem Registers.get_of_set_ne {r s : Registers} {i j value : UInt8}
    (h : r.set i value = .ok s) (hij : i ≠ j) : s.get j = r.get j := by
  rw [get_set h, if_neg hij]

namespace Instruction

variable {size : Nat} {p : Processor} {memory : Memory size} {i : Instruction} {e : Effect}
  {r : UInt8}

/-- The register that takes what the instruction brings. -/
def target? : Instruction → Option UInt8
  | pop r | ldi r _ | arith .add r _ | arith .mul r _ => some r
  | _ => none

theorem get_of_performs (h : i.Performs p memory e) (hi : i.target? ≠ some r) :
    e.registers.get r = p.registers.get r := by
  cases h with
  | pop hm hr => exact Registers.get_of_set_ne hr fun heq => hi (congrArg some heq)
  | ldi hr => exact Registers.get_of_set_ne hr fun heq => hi (congrArg some heq)
  | @arith op a b registers note hr =>
    obtain ⟨x, y, hx, hy, hs⟩ := Operation.apply_eq_ok_iff.mp hr
    cases op with
    | add | mul => exact Registers.get_of_set_ne hs fun heq => hi (congrArg some heq)
    | cmp => exact hs ▸ rfl
  | _ => rfl

end Instruction

namespace Machine

variable {size : Nat} {δ : Type} [Device δ] {m : Machine size δ} {c n : Nat} {r : UInt8}

/-- The cell that the next step writes: where a push or a call leaves the stack pointer. -/
def written? (m : Machine size δ) : Option Nat :=
  match m.executed? with
  | some (.push _) | some (.call _) => some m.step.machine.processor.sp.toNat
  | _ => none

theorem written?_eq_some_iff : m.written? = some c ↔ ∃ i, m.executed? = some i ∧
    (∃ o, i.opcode.closer? = some o) ∧ m.step.machine.processor.sp.toNat = c := by
  unfold written?
  cases m.executed? with
  | none => simp
  | some i =>
    cases i with
    | arith op a b => cases op <;> simp [Instruction.opcode, Operation.opcode, Opcode.closer?]
    | _ => simp [Instruction.opcode, Opcode.closer?]

theorem lt_256_of_written (h : m.written? = some c) : c < 256 := by
  obtain ⟨i, _, _, rfl⟩ := written?_eq_some_iff.mp h
  exact m.step.machine.processor.sp.toNat_lt

theorem get?_step_of_not_written (h : m.written? ≠ some c) :
    m.step.machine.memory.get? c = m.memory.get? c := by
  cases hi : m.executed? with
  | none =>
    obtain ⟨_, _, hm⟩ := step_of_not_executed hi
    rw [hm]
  | some i =>
    obtain ⟨hi', hok⟩ := executed?_eq_some_iff.mp hi
    apply get?_step_of_not_stored hok
    intro hopens hsp
    obtain ⟨o, close, ho, hclose⟩ := opens_iff.mp hopens
    obtain ⟨j, hj, rfl⟩ := instruction_of_stackOpcode ho
    cases hi'.symm.trans hj
    exact h (written?_eq_some_iff.mpr ⟨i, hi, ⟨close, hclose⟩, hsp⟩)

/-- A cell that is written holds what its instruction puts on the stack. -/
theorem get?_step_of_written (h : m.written? = some c) : ∃ i byte, m.executed? = some i ∧
    i.stored? m.processor = some byte.toUInt16 ∧ m.step.machine.memory.get? c = some byte := by
  obtain ⟨i, hi, ⟨o, ho⟩, rfl⟩ := written?_eq_some_iff.mp h
  obtain ⟨hi', hok⟩ := executed?_eq_some_iff.mp hi
  obtain ⟨j, byte, hj, hstored, hget⟩ := get?_step_of_opens hok (opens_of_closer hi' ho)
  cases hi'.symm.trans hj
  exact ⟨i, byte, hi, hstored, hget⟩

theorem get_step_of_not_target (h : ¬ ∃ i, m.executed? = some i ∧ i.target? = some r) :
    m.step.machine.processor.registers.get r = m.processor.registers.get r := by
  apply registers_step_kept (Registers.get · r)
  intro i e hi hp
  apply Instruction.get_of_performs hp
  intro ht
  exact h ⟨i, hi, ht⟩

theorem output_step_of_not_prn (h : ∀ r, m.instruction? ≠ some (.prn r)) :
    m.step.machine.output = m.output := by
  rw [output_step]
  cases hp : m.prints? with
  | none => rfl
  | some value =>
    obtain ⟨r, hi, _⟩ := prn_of_prints? hp
    exact (h r hi).elim

theorem sp_step_of_executed (m : Machine size δ) : (m.step.machine.processor.sp.toNat : Int) =
    (m.processor.sp.toNat + Stack.height (m.executed?.toList.map Instruction.opcode)) % 256 := by
  cases hi : m.executed? with
  | none =>
    obtain ⟨status, hp, _⟩ := step_of_not_executed hi
    have hlt := m.processor.sp.toNat_lt
    rw [hp]
    simp [Stack.height, Stack.openValues, Stack.openAddresses]
    omega
  | some i =>
    obtain ⟨e, output, text, hp, hm⟩ := performs_of_executed hi
    rw [hm]
    exact Instruction.sp_of_performs hp

/-- Over any run, faults included, the stack pointer follows the instructions that succeed. -/
theorem sp_after_executed (m : Machine size δ) (n : Nat) :
    ((m.after n).processor.sp.toNat : Int) =
      (m.processor.sp.toNat + Stack.height ((m.executed n).map Instruction.opcode)) % 256 := by
  induction n with
  | zero =>
    have hlt := m.processor.sp.toNat_lt
    simp [after, executed, Stack.height, Stack.openValues, Stack.openAddresses]
    omega
  | succ n ih =>
    have hstep := sp_step_of_executed (m.after n)
    rw [executed_succ, List.map_append, Stack.height_append]
    rw [after, hstep, ih]
    omega

/-- How many of the first `n` steps perform an instruction with this opcode. -/
def tally (m : Machine size δ) (n : Nat) (o : Opcode) : Nat :=
  ((m.executed n).map Instruction.opcode).count o

theorem sp_after_tally (m : Machine size δ) (n : Nat) :
    ((m.after n).processor.sp.toNat : Int) =
      (m.processor.sp.toNat + (m.tally n .push + m.tally n .ret) -
        (m.tally n .pop + m.tally n .call)) % 256 := by
  have hsp := sp_after_executed m n
  simp only [Stack.height, Stack.openValues, Stack.openAddresses] at hsp
  simp only [tally]
  omega

/-- A cell is as at the start, or as the last step that wrote it has left it. -/
theorem cell_kept_or_written (m : Machine size δ) (n c : Nat) :
    ((∀ k < n, (m.after k).written? ≠ some c) ∧
      (m.after n).memory.get? c = m.memory.get? c) ∨
    ∃ k < n, (m.after k).written? = some c ∧
      (∀ j, k < j → j < n → (m.after j).written? ≠ some c) ∧
      (m.after n).memory.get? c = (m.after (k + 1)).memory.get? c :=
  kept_or_last_set (fun m : Machine size δ => m.memory.get? c)
    (fun _ => get?_step_of_not_written) m n

/-- The stack pointer names no cell from 256 on. -/
theorem get?_after_of_ge (hc : 256 ≤ c) : (m.after n).memory.get? c = m.memory.get? c := by
  rcases cell_kept_or_written m n c with ⟨_, hkept⟩ | ⟨k, _, hw, _⟩
  · exact hkept
  · have := lt_256_of_written hw
    omega

theorem memory_after_of_no_opener
    (h : ∀ i ∈ m.executed n, i.opcode ≠ .push ∧ i.opcode ≠ .call) :
    (m.after n).memory = m.memory := by
  apply Memory.ext_get?
  intro c
  rcases cell_kept_or_written m n c with ⟨_, hkept⟩ | ⟨k, hk, hw, _⟩
  · exact hkept
  · obtain ⟨i, hi, ⟨o, ho⟩, _⟩ := written?_eq_some_iff.mp hw
    obtain ⟨hpush, hcall⟩ := h i (mem_executed_iff.mpr ⟨k, hk, hi⟩)
    rcases Opcode.eq_of_closer ho with hop | hop
    · exact (hpush hop).elim
    · exact (hcall hop).elim

theorem exists_target_of_get_ne
    (h : (m.after n).processor.registers.get r ≠ m.processor.registers.get r) :
    ∃ i ∈ m.executed n, i.target? = some r := by
  rcases kept_or_last_set (fun m : Machine size δ => m.processor.registers.get r)
    (fun _ => get_step_of_not_target) m n with ⟨_, hkept⟩ | ⟨k, hk, ⟨i, hi, ht⟩, _⟩
  · exact (h hkept).elim
  · exact ⟨i, mem_executed_iff.mpr ⟨k, hk, hi⟩, ht⟩

/-- What a run leaves of a machine, told by the instructions that it performs with success. A cell
is as at the start, or it holds what the last push or call put there that left the stack pointer at
it: a register's value or the address behind the call. So no cell from 256 on ever changes, and
none at all without a push or a call. A register is as at the start unless an instruction named it
as its target, and only a print gives anything to the device. The stack pointer counts pushes and
returns up, and pops and calls down. -/
theorem run_footprint (m : Machine size δ) (n : Nat) :
    (∀ c, ((∀ k < n, (m.after k).written? ≠ some c) ∧
        (m.after n).memory.get? c = m.memory.get? c) ∨
      ∃ k < n, ∃ i byte, (m.after k).executed? = some i ∧ (m.after k).written? = some c ∧
        (∀ j, k < j → j < n → (m.after j).written? ≠ some c) ∧
        i.stored? (m.after k).processor = some byte.toUInt16 ∧
        (m.after n).memory.get? c = some byte) ∧
    (∀ c, 256 ≤ c → (m.after n).memory.get? c = m.memory.get? c) ∧
    ((∀ i ∈ m.executed n, i.opcode ≠ .push ∧ i.opcode ≠ .call) →
      (m.after n).memory = m.memory) ∧
    (∀ r, (m.after n).processor.registers.get r ≠ m.processor.registers.get r →
      ∃ i ∈ m.executed n, i.target? = some r) ∧
    (∀ k < n, (m.after (k + 1)).output ≠ (m.after k).output →
      ∃ r, (m.after k).instruction? = some (.prn r)) ∧
    ((m.after n).processor.sp.toNat : Int) =
      (m.processor.sp.toNat + (m.tally n .push + m.tally n .ret) -
        (m.tally n .pop + m.tally n .call)) % 256 := by
  refine ⟨?_, ?_, ?_, ?_, ?_, sp_after_tally m n⟩
  · intro c
    rcases cell_kept_or_written m n c with hkept | ⟨k, hk, hw, hlast, hend⟩
    · exact .inl hkept
    · obtain ⟨i, byte, hi, hstored, hget⟩ := get?_step_of_written hw
      exact .inr ⟨k, hk, i, byte, hi, hw, hlast, hstored, hend.trans hget⟩
  · intro c hc
    exact get?_after_of_ge hc
  · intro hnone
    exact memory_after_of_no_opener hnone
  · intro r hr
    exact exists_target_of_get_ne hr
  · intro k _ hout
    by_contra hprn
    apply hout
    apply output_step_of_not_prn
    intro r hr
    exact hprn ⟨r, hr⟩

/-- Pushes a value twice and calls a subroutine that pops. The return address goes to the cell of
the first value. -/
def stacker : Machine 16 Unlimited where
  processor :=
    { pc := 0
      sp := 11
      registers := ⟨#v[7, 8, 0, 0, 0, 0, 0, 0], .zero⟩
      status := .running }
  memory := Memory.zero.place 0 [0x45, 0, 0x45, 0, 0x50, 1, 0x01, 0, 0x46, 2]
  output := ⟨.device, ""⟩
  log := .empty .off

theorem stacker_footprint :
    stacker.executed 4 = [.push 0, .push 0, .call 1, .pop 2] ∧
    (stacker.after 0).written? = some 12 ∧ (stacker.after 2).written? = some 12 ∧
    (stacker.after 4).memory.get? 12 = some 6 ∧
    (stacker.after 4).processor.registers.get 2 = .ok 6 ∧
    (∃ i ∈ stacker.executed 4, i.target? = some 2) ∧
    ((stacker.after 4).processor.sp.toNat : Int) = 11 := by
  have hword : stacker.executed 4 = [.push 0, .push 0, .call 1, .pop 2] := by decide +kernel
  have hfirst : (stacker.after 0).written? = some 12 := by decide +kernel
  have hcall : (stacker.after 2).written? = some 12 := by decide +kernel
  have hpop : (stacker.after 3).written? = none := by decide +kernel
  obtain ⟨hcells, _, _, hregisters, _, hsp⟩ := run_footprint stacker 4
  refine ⟨hword, hfirst, hcall, ?_, by rfl, ?_, ?_⟩
  · rcases hcells 12 with ⟨hnone, _⟩ | ⟨k, hk, i, byte, hi, hw, hlast, hstored, hget⟩
    · exact (hnone 2 (by decide) hcall).elim
    · have hge : 2 ≤ k := by
        by_contra hlt
        exact hlast 2 (by omega) (by decide) hcall
      obtain rfl | rfl : k = 2 ∨ k = 3 := by omega
      · have hsix : (stacker.after 2).executed? = some (.call 1) := by decide +kernel
        cases hsix.symm.trans hi
        have hbyte : byte.toUInt16 = 6 := by
          have hpc : (stacker.after 2).processor.pc = 4 := by decide +kernel
          simpa [Instruction.stored?, hpc] using hstored.symm
        rw [hget, UInt8.toUInt16_inj.mp (show byte.toUInt16 = (6 : UInt8).toUInt16 from hbyte)]
      · cases hpop.symm.trans hw
  · apply hregisters
    have hstart : stacker.processor.registers.get 2 = .ok 0 := by rfl
    have hend : (stacker.after 4).processor.registers.get 2 = .ok 6 := by rfl
    rw [hstart, hend]
    simp
  · have htally : ∀ o, stacker.tally 4 o = [Opcode.push, .push, .call, .pop].count o := by
      intro o
      rw [tally, hword]
      rfl
    have hstart : stacker.processor.sp.toNat = 11 := by rfl
    simpa [htally, hstart] using hsp

end Machine
end EightBit
