import EightBit.Proofs.Machine.Step

/-! The machine after any number of steps, and the instructions that its steps perform. -/
namespace EightBit.Machine

variable {size : Nat} {δ : Type}

/-- The instruction that the next step performs, if the machine runs and there is one. -/
def instruction? (m : Machine size δ) : Option Instruction :=
  if m.isRunning then (m.processor.fetch m.memory).toOption else none

variable [Device δ]

/-- The machine after `n` steps, the idle ones of a stopped machine included. -/
def after (m : Machine size δ) : Nat → Machine size δ
  | 0 => m
  | n + 1 => (m.after n).step.machine

/-- The instruction that the next step performs with success. -/
def executed? (m : Machine size δ) : Option Instruction :=
  match m.step.result with
  | .ok () => m.instruction?
  | .error _ => none

/-- The instructions that the first `n` steps perform with success, in order. -/
def executed (m : Machine size δ) (n : Nat) : List Instruction :=
  (List.range n).filterMap fun k => (m.after k).executed?

/-- None of the first `n` steps meets a fault. -/
def Succeeds (m : Machine size δ) (n : Nat) : Prop :=
  ∀ k < n, (m.after k).step.result = .ok ()

variable {m : Machine size δ} {i : Instruction} {fault : Fault} {n : Nat}

omit [Device δ] in
theorem isRunning_iff : m.isRunning = true ↔ m.processor.status = .running := by
  simp [isRunning]

omit [Device δ] in
theorem instruction?_of_fetch (hr : m.processor.status = .running)
    (h : m.processor.fetch m.memory = .ok i) : m.instruction? = some i := by
  simp [instruction?, isRunning_iff.mpr hr, h, Except.toOption]

omit [Device δ] in
theorem fetch_of_instruction? (h : m.instruction? = some i) :
    m.processor.status = .running ∧ m.processor.fetch m.memory = .ok i := by
  unfold instruction? at h
  split at h
  next hrun =>
    refine ⟨isRunning_iff.mp hrun, ?_⟩
    cases hf : m.processor.fetch m.memory <;> simp_all [Except.toOption]
  next => cases h

theorem after_add (m : Machine size δ) (a b : Nat) : (m.after a).after b = m.after (a + b) := by
  induction b with
  | zero => rfl
  | succ b ih => rw [after, ih, ← Nat.add_assoc, after]

theorem after_step (m : Machine size δ) (n : Nat) : m.step.machine.after n = m.after (n + 1) := by
  rw [Nat.add_comm, ← after_add]
  rfl

theorem Succeeds.mono {k : Nat} (h : m.Succeeds n) (hk : k ≤ n) : m.Succeeds k := by
  intro j hj
  exact h j (by omega)

theorem step_eq {result : Except Fault Unit} (h : m.step.result = result) :
    m.step = ⟨result, m.step.machine⟩ := by
  rw [← h]

theorem step_of_not_running (h : m.isRunning = false) : m.step = ⟨.ok (), m⟩ := by
  simp [step, h]

/-- A machine that has stopped stays as it is. -/
theorem after_of_stopped {a b : Nat} (h : (m.after a).isRunning = false) (hab : a ≤ b) :
    m.after b = m.after a := by
  obtain ⟨k, rfl⟩ := Nat.exists_eq_add_of_le hab
  induction k with
  | zero => rfl
  | succ k ih => rw [← Nat.add_assoc, after, ih (by omega), step_of_not_running h]

theorem isRunning_of_error (h : m.step.result = .error fault) : m.isRunning = true := by
  cases hrun : m.isRunning with
  | true => rfl
  | false =>
    rw [step_of_not_running hrun] at h
    cases h

/-- Steps that leave the machine running have succeeded. -/
theorem succeeds_of_running (h : ∀ k ≤ n, (m.after k).isRunning = true) : m.Succeeds n := by
  intro k hk
  rcases status_step (isRunning_iff.mp (h k (by omega))) with ⟨hok, _⟩ | ⟨fault, _, hf⟩
  · exact hok
  · have hnext := isRunning_iff.mp (h (k + 1) hk)
    rw [after, hf] at hnext
    cases hnext

/-- A successful step is idle or completes the effect of an instruction. -/
theorem success_cases (h : m.step.result = .ok ()) :
    (m.instruction? = none ∧ m.step.machine = m) ∨
    ∃ i e output text, m.instruction? = some i ∧ i.effect m.processor m.memory = .ok e ∧
      m.output.emit e.prints = (.ok (), output) ∧ m.step.machine = m.completed e output text := by
  by_cases hrun : m.isRunning = true
  · have hr : m.processor.status = .running := by simpa [isRunning] using hrun
    have hs := stepped_step hr
    generalize m.step = outcome at hs h ⊢
    cases hs with
    | @done i e output text hf he ho hn =>
      exact .inr ⟨i, e, output, text, instruction?_of_fetch hr hf, he, ho, rfl⟩
    | _ => cases h
  · simp only [Bool.not_eq_true] at hrun
    exact .inl ⟨by simp [instruction?, hrun], by rw [step_of_not_running hrun]⟩

theorem step_of_no_instruction (h : m.step.result = .ok ()) (hi : m.instruction? = none) :
    m.step.machine = m := by
  rcases success_cases h with ⟨_, hm⟩ | ⟨i, _, _, _, hs, _⟩
  · exact hm
  · simp [hi] at hs

theorem performs_of_instruction (h : m.step.result = .ok ()) (hi : m.instruction? = some i) :
    ∃ e output text, i.Performs m.processor m.memory e ∧
      m.step.machine = m.completed e output text := by
  rcases success_cases h with ⟨hn, _⟩ | ⟨j, e, output, text, hj, he, _, hm⟩
  · simp [hi] at hn
  · cases hi.symm.trans hj
    exact ⟨e, output, text, Instruction.performs_of_effect he, hm⟩

theorem executed?_eq_some_iff :
    m.executed? = some i ↔ m.instruction? = some i ∧ m.step.result = .ok () := by
  unfold executed?
  cases m.step.result <;> simp

theorem filterMap_range_succ {α : Type} (f : Nat → Option α) (n : Nat) :
    (List.range (n + 1)).filterMap f = (List.range n).filterMap f ++ (f n).toList := by
  rw [List.range_succ, List.filterMap_append, List.filterMap_cons, List.filterMap_nil]
  cases f n <;> rfl

theorem exists_executed (hr : m.isRunning = true) (hok : m.step.result = .ok ()) :
    ∃ i, m.executed? = some i := by
  have hs := stepped_step (isRunning_iff.mp hr)
  unfold executed?
  generalize m.step = outcome at hs hok ⊢
  cases hs with
  | done hf => exact ⟨_, instruction?_of_fetch (isRunning_iff.mp hr) hf⟩
  | _ => cases hok

theorem executed_succ (m : Machine size δ) (n : Nat) :
    m.executed (n + 1) = m.executed n ++ (m.after n).executed?.toList :=
  filterMap_range_succ _ n

theorem mem_executed_iff : i ∈ m.executed n ↔ ∃ k < n, (m.after k).executed? = some i := by
  simp [executed, List.mem_filterMap]

theorem performs_of_executed (h : m.executed? = some i) :
    ∃ e output text, i.Performs m.processor m.memory e ∧
      m.step.machine = m.completed e output text := by
  obtain ⟨hi, hok⟩ := executed?_eq_some_iff.mp h
  exact performs_of_instruction hok hi

theorem length_executed (hr : ∀ k < n, (m.after k).isRunning = true) (hok : m.Succeeds n) :
    (m.executed n).length = n := by
  induction n with
  | zero => rfl
  | succ n ih =>
    obtain ⟨i, hi⟩ := exists_executed (hr n (Nat.lt_succ_self n)) (hok n (Nat.lt_succ_self n))
    rw [executed_succ, hi, List.length_append, ih (fun k hk => hr k (by omega)) (hok.mono n.le_succ)]
    rfl

/-- A step that performs no instruction is idle or meets a fault. Either way it leaves the memory
and, but for its status, the processor. -/
theorem step_of_not_executed (h : m.executed? = none) :
    ∃ status, m.step.machine.processor = { m.processor with status } ∧
      m.step.machine.memory = m.memory := by
  cases hrun : m.isRunning with
  | false =>
    rw [step_of_not_running hrun]
    exact ⟨m.processor.status, rfl, rfl⟩
  | true =>
    have hr := isRunning_iff.mp hrun
    have hs := stepped_step hr
    unfold executed? at h
    generalize m.step = outcome at hs h ⊢
    cases hs with
    | done hf =>
      rw [instruction?_of_fetch hr hf] at h
      cases h
    | _ => exact ⟨_, rfl, rfl⟩

/-- What an instruction that succeeds keeps of the registers, a step keeps. -/
theorem registers_step_kept {α : Type} (f : Registers → α)
    (h : ∀ i e, m.executed? = some i → i.Performs m.processor m.memory e →
      f e.registers = f m.processor.registers) :
    f m.step.machine.processor.registers = f m.processor.registers := by
  cases hi : m.executed? with
  | none =>
    obtain ⟨status, hp, _⟩ := step_of_not_executed hi
    rw [hp]
  | some i =>
    obtain ⟨e, output, text, hp, hm⟩ := performs_of_executed hi
    rw [hm]
    exact h i e hi hp

/-- What some steps set and all others keep is as it was at the start, or as the last of the steps
that set it has left it. -/
theorem kept_or_last_set {α : Type} (f : Machine size δ → α) {P : Machine size δ → Prop}
    (hkeep : ∀ m, ¬ P m → f m.step.machine = f m) (m : Machine size δ) (n : Nat) :
    ((∀ k < n, ¬ P (m.after k)) ∧ f (m.after n) = f m) ∨
    ∃ k < n, P (m.after k) ∧ (∀ j, k < j → j < n → ¬ P (m.after j)) ∧
      f (m.after n) = f (m.after (k + 1)) := by
  induction n with
  | zero => exact .inl ⟨by simp, rfl⟩
  | succ n ih =>
    by_cases hset : P (m.after n)
    · refine .inr ⟨n, by omega, hset, ?_, rfl⟩
      intro j hnj hjn
      omega
    · have hsame : f (m.after (n + 1)) = f (m.after n) := hkeep _ hset
      have hnot : ∀ j < n + 1, (j < n → ¬ P (m.after j)) → ¬ P (m.after j) := by
        intro j hj hbefore
        rcases Nat.lt_succ_iff_lt_or_eq.mp hj with hlt | rfl
        · exact hbefore hlt
        · exact hset
      rcases ih with ⟨hnone, hstart⟩ | ⟨k, hkn, hk, hlast, hend⟩
      · exact .inl ⟨fun j hj => hnot j hj (hnone j), hsame.trans hstart⟩
      · refine .inr ⟨k, by omega, hk, ?_, hsame.trans hend⟩
        intro j hkj hj
        exact hnot j hj (hlast j hkj)

end EightBit.Machine
