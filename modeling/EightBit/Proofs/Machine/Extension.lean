import EightBit.Proofs.Machine.Reading

/-! A larger memory that begins with the cells of a smaller one does the same, as long as the
smaller one suffices. -/
namespace EightBit

theorem Instruction.stackCell_lt_size {size : Nat} {p : Processor} {memory : Memory size}
    {i : Instruction} {e : Effect} {cell : UInt8} (h : i.Performs p memory e)
    (hc : i.stackCell? p = some cell) : cell.toNat < size := by
  cases h with
  | ret hm | pop hm =>
    cases hc
    exact Memory.lt_size_of_get? hm
  | push _ hs | call _ _ hs =>
    cases hc
    exact hs
  | _ => cases hc

namespace Machine

variable {size size' : Nat} {δ : Type}

/-- In step, with a memory that begins with the same cells. What comes behind them is free. -/
structure Extended (m : Machine size δ) (m' : Machine size' δ) : Prop where
  inStep : m.InStep m'
  cells : ∀ c < size, m'.memory.get? c = m.memory.get? c

theorem Extended.size_le {m : Machine size δ} {m' : Machine size' δ} (h : m.Extended m') :
    size ≤ size' := by
  by_contra hlt
  have hcell := h.cells size' (by omega)
  rw [Memory.get?_eq_none_iff.mpr (Nat.le_refl size')] at hcell
  have := Memory.get?_eq_none_iff.mp hcell.symm
  omega

variable [Device δ] {m : Machine size δ} {m' : Machine size' δ} {c n : Nat}

/-- A step that succeeds finds all that it reads. -/
theorem lt_size_of_reads (hok : m.step.result = .ok ()) (hc : c ∈ m.reads) : c < size := by
  unfold reads at hc
  split at hc
  next hrun =>
    have hs := stepped_step (isRunning_iff.mp hrun)
    generalize m.step = outcome at hs hok
    cases hs with
    | done hf he =>
      rw [Processor.opcode?_of_fetch hf] at hc
      rcases List.mem_append.mp hc with hcode | hstack
      · obtain ⟨k, hk, rfl⟩ := List.mem_map.mp hcode
        exact Processor.lt_size_of_fetch hf (List.mem_range.mp hk)
      · split at hstack
        next hcloses =>
          obtain ⟨byte, hbyte, _⟩ :=
            Instruction.taken_of_performs (Instruction.performs_of_effect he) hcloses
          cases List.mem_singleton.mp hstack
          exact Memory.lt_size_of_get? hbyte
        next => cases hstack
    | _ => cases hok
  next => cases hc

theorem lt_size_of_written (h : m.written? = some c) : c < size := by
  obtain ⟨_, _, _, _, hget⟩ := get?_step_of_written h
  exact Memory.lt_size_of_get? hget

theorem Extended.sameStep (h : m.Extended m') (hok : m.step.result = .ok ()) : m.SameStep m' := by
  apply h.inStep.sameStep
  · intro c hc
    exact h.cells c (lt_size_of_reads hok hc)
  · intro i cell hi hcell
    obtain ⟨e, _, _, hp, _⟩ := performs_of_instruction hok hi
    have hlt := Instruction.stackCell_lt_size hp hcell
    have hle := h.size_le
    constructor <;> omega

/-- A successful step is the same on the larger memory, and does not touch what the smaller one
does not have. -/
theorem Extended.step (h : m.Extended m') (hok : m.step.result = .ok ()) :
    m'.step.result = .ok () ∧ m.step.machine.Extended m'.step.machine ∧
      ∀ c, size ≤ c → m'.step.machine.memory.get? c = m'.memory.get? c := by
  have hsame := h.sameStep hok
  refine ⟨hsame.result.trans hok, ⟨hsame.next, ?_⟩, ?_⟩
  · intro c hc
    exact hsame.get?_step h.inStep.processor (.inl (h.cells c hc))
  · intro c hc
    apply get?_step_of_not_written
    intro hw
    have := lt_size_of_written (hsame.written?.symm.trans hw)
    omega

theorem Extended.after (h : m.Extended m') (hok : m.Succeeds n) :
    (m.after n).Extended (m'.after n) ∧
      ∀ c, size ≤ c → (m'.after n).memory.get? c = m'.memory.get? c := by
  induction n with
  | zero => exact ⟨h, fun _ _ => rfl⟩
  | succ n ih =>
    obtain ⟨hext, hbehind⟩ := ih (hok.mono n.le_succ)
    obtain ⟨_, hnext, hkeep⟩ := hext.step (hok n (Nat.lt_succ_self n))
    refine ⟨hnext, ?_⟩
    intro c hc
    exact (hkeep c hc).trans (hbehind c hc)

/-- What succeeds on a memory succeeds on every larger one that begins with the same cells, with the
same processor and output after each step and, traces apart, the same log. The larger memory goes
on beginning with the cells of the smaller one, and its other cells stay as they are. -/
theorem larger_memory_simulates (h : m.Extended m') (n : Nat) (hok : m.Succeeds n) :
    m'.Succeeds n ∧ ∀ k ≤ n, (m.after k).Extended (m'.after k) ∧
      ∀ c, size ≤ c → (m'.after k).memory.get? c = m'.memory.get? c := by
  constructor
  · intro k hk
    obtain ⟨hext, _⟩ := h.after (hok.mono (Nat.le_of_lt hk))
    exact (hext.step (hok k hk)).1
  · intro k hk
    exact h.after (hok.mono hk)

/-- Pushes the code with which it is to halt into the last of three cells. -/
def finisher : Machine 3 Unlimited where
  processor :=
    { pc := 0
      sp := 1
      registers := ⟨#v[1, 0, 0, 0, 0, 0, 0, 0], .zero⟩
      status := .running }
  memory := ⟨#v[0x45, 0, 0]⟩
  output := ⟨.device, ""⟩
  log := .empty (.upTo .trace)

/-- The same with two cells more, which the traces show. -/
def roomyFinisher : Machine 5 Unlimited where
  processor := finisher.processor
  memory := ⟨#v[0x45, 0, 0, 0x47, 9]⟩
  output := finisher.output
  log := finisher.log

theorem roomyFinisher_simulates :
    finisher.Extended roomyFinisher ∧ finisher.Succeeds 2 ∧ roomyFinisher.Succeeds 2 ∧
    (roomyFinisher.after 2).processor.status = .halted ∧
    (roomyFinisher.after 2).log.untraced = (finisher.after 2).log.untraced ∧
    (roomyFinisher.after 2).memory.get? 2 = some 1 ∧
    (roomyFinisher.after 2).memory.get? 3 = some 0x47 := by
  have hext : finisher.Extended roomyFinisher :=
    ⟨⟨rfl, rfl, rfl, rfl⟩, by decide⟩
  have hok : finisher.Succeeds 2 := by
    intro k hk
    obtain rfl | rfl : k = 0 ∨ k = 1 := by omega
    · rfl
    · rfl
  obtain ⟨hsucceeds, hsteps⟩ := larger_memory_simulates hext 2 hok
  obtain ⟨hend, hbehind⟩ := hsteps 2 (by decide)
  refine ⟨hext, hok, hsucceeds, ?_, hend.inStep.log.untraced, ?_, ?_⟩
  · rw [hend.inStep.processor]
    decide +kernel
  · rw [hend.cells 2 (by decide)]
    decide +kernel
  · rw [hbehind 3 (by decide)]
    decide

end Machine
end EightBit
