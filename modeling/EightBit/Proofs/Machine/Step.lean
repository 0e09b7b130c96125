import EightBit.Proofs.Machine.Checks
import EightBit.Proofs.Machine.Handling

/-! The ways in which one step of a running machine can end. -/
namespace EightBit.Machine

variable {size : Nat} {δ : Type}

/-- The machine that a successful step leaves, given the output and the text of the note. -/
def completed (m : Machine size δ) (e : Effect) (output : Output δ) (text : String) :
    Machine size δ where
  processor :=
    { pc := e.transfer.next
      sp := e.sp
      registers := e.registers
      status := if e.transfer.proceed then .running else .halted }
  memory := (m.commit e).memory
  output
  log := (m.log.record .trace .processor fun _ => m.processor.traceText m.memory).record
    .debug .processor fun _ => text

variable [Device δ]

/-- A step fails at the fetch, at a check or at the device, or it succeeds. -/
inductive Stepped (m : Machine size δ) : Outcome size δ Fault Unit → Prop where
  | unfetched {fault} (hf : m.processor.fetch m.memory = .error fault) :
    Stepped m ⟨.error fault, m.traced.fail fault⟩
  | refused {i fault} (hf : m.processor.fetch m.memory = .ok i)
      (he : i.effect m.processor m.memory = .error fault) :
    Stepped m ⟨.error fault, m.traced.fail fault⟩
  | unprinted {i e failure output} (hf : m.processor.fetch m.memory = .ok i)
      (he : i.effect m.processor m.memory = .ok e)
      (ho : m.output.emit e.prints = (.error failure, output)) :
    Stepped m ⟨.error (.writeFailed failure),
      { m.traced with output }.fail (.writeFailed failure)⟩
  | done {i e output text} (hf : m.processor.fetch m.memory = .ok i)
      (he : i.effect m.processor m.memory = .ok e)
      (ho : m.output.emit e.prints = (.ok (), output)) (hn : e.note () = .ok text) :
    Stepped m ⟨.ok (), m.completed e output text⟩

variable {m : Machine size δ} {i : Instruction} {e : Effect} {fault : Fault}

omit [Device δ] in
theorem complete_of_note {text : String} (h : e.note () = .ok text) : m.complete e =
    ⟨.ok e.transfer,
      { m.commit e with log := m.log.record .debug .processor fun _ => text }⟩ := by
  have hn : e.note = fun _ => .ok text := funext fun _ => h
  simp only [complete, log_commit, hn, Log.tryRecord_ok]

theorem perform_eq (m : Machine size δ) (i : Instruction) :
    m.perform i = m.enact (i.effect m.processor m.memory) :=
  m.enacts_handle i

/-- An instruction that is refused leaves the machine as it is. -/
theorem perform_of_refusal (he : i.effect m.processor m.memory = .error fault) :
    m.perform i = ⟨.error fault, m⟩ := by
  rw [perform_eq, he]
  rfl

theorem perform_of_effect (he : i.effect m.processor m.memory = .ok e) : m.perform i =
    match m.output.emit e.prints with
    | (.ok (), output) => complete { m with output } e
    | (.error failure, output) => ⟨.error (.writeFailed failure), { m with output }⟩ := by
  rw [perform_eq, he]
  rfl

theorem perform_of_success {output : Output δ} {text : String}
    (he : i.effect m.processor m.memory = .ok e)
    (ho : m.output.emit e.prints = (.ok (), output)) (hn : e.note () = .ok text) :
    m.perform i = ⟨.ok e.transfer,
      { m.commit e with output, log := m.log.record .debug .processor fun _ => text }⟩ := by
  rw [perform_of_effect he]
  simp only [ho]
  exact complete_of_note hn

theorem stepped_step (hr : m.processor.status = .running) : Stepped m m.step := by
  have hrun : m.isRunning = true := by simp [isRunning, hr]
  rw [step, if_pos hrun]
  cases hf : m.processor.fetch m.memory with
  | error fault =>
    have hp : m.traced.performNext = ⟨.error fault, m.traced⟩ := by
      simp [performNext, traced, hf]
    rw [hp]
    exact .unfetched hf
  | ok i =>
    have hp : m.traced.performNext = m.traced.perform i := by simp [performNext, traced, hf]
    rw [hp]
    cases he : i.effect m.processor m.memory with
    | error fault =>
      rw [perform_of_refusal (m := m.traced) he]
      exact .refused hf he
    | ok e =>
      rw [perform_of_effect (m := m.traced) he]
      rcases ho : m.output.emit e.prints with ⟨failure | _, output⟩
      · have ht : m.traced.output.emit e.prints = (.error failure, output) := ho
        rw [ht]
        exact .unprinted hf he ho
      · have ht : m.traced.output.emit e.prints = (.ok (), output) := ho
        obtain ⟨rest, hn⟩ := Instruction.note_of_effect he
        simp only [ht, complete_of_note hn]
        have hdone := Stepped.done hf he ho hn
        simpa [completed, advance, commit, traced, hr] using hdone

theorem Stepped.unique {o o' : Outcome size δ Fault Unit} (h : Stepped m o) (h' : Stepped m o') :
    o = o' := by
  cases h <;> cases h' <;> simp_all

/-- One way in which the step of a running machine can end is the way in which it ends. -/
theorem step_eq_of_stepped {o : Outcome size δ Fault Unit} (hr : m.processor.status = .running)
    (h : Stepped m o) : m.step = o :=
  (stepped_step hr).unique h

/-- An instruction that prints nothing does not fail at the device. -/
theorem step_of_silent (hr : m.processor.status = .running)
    (hf : m.processor.fetch m.memory = .ok i) (he : i.effect m.processor m.memory = .ok e)
    (hp : e.prints = none) : ∃ text, m.step = ⟨.ok (), m.completed e m.output text⟩ := by
  obtain ⟨rest, hn⟩ := Instruction.note_of_effect he
  have ho : m.output.emit e.prints = (.ok (), m.output) := by
    rw [hp]
    rfl
  exact ⟨_, step_eq_of_stepped hr (.done hf he ho hn)⟩

/-- The fault of a step comes from the fetch, from a check of the instruction or from the device. -/
theorem fault_of_step (hr : m.processor.status = .running) (h : m.step.result = .error fault) :
    m.processor.fetch m.memory = .error fault ∨
    (∃ i, m.processor.fetch m.memory = .ok i ∧
      i.effect m.processor m.memory = .error fault) ∨
    ∃ i failure, m.processor.fetch m.memory = .ok i ∧ fault = .writeFailed failure := by
  have hs := stepped_step hr
  generalize m.step = outcome at hs h
  cases hs with
  | unfetched hf =>
    cases h
    exact .inl hf
  | refused hf he =>
    cases h
    exact .inr (.inl ⟨_, hf, he⟩)
  | unprinted hf =>
    cases h
    exact .inr (.inr ⟨_, _, hf, rfl⟩)
  | done => cases h

/-- A step of a running machine succeeds and leaves it running or halted, or it answers the fault
with which the machine stops. -/
theorem status_step (hr : m.processor.status = .running) :
    (m.step.result = .ok () ∧ ∀ fault, m.step.machine.processor.status ≠ .faulted fault) ∨
    ∃ fault, m.step.result = .error fault ∧
      m.step.machine.processor.status = .faulted fault := by
  have hs := stepped_step hr
  generalize m.step = outcome at hs ⊢
  cases hs with
  | @done i e output text =>
    refine .inl ⟨rfl, fun fault => ?_⟩
    simp only [completed]
    split <;> simp
  | _ => exact .inr ⟨_, rfl, rfl⟩

theorem result_of_faulted (hr : m.processor.status = .running)
    (h : m.step.machine.processor.status = .faulted fault) : m.step.result = .error fault := by
  rcases status_step hr with ⟨_, hne⟩ | ⟨fault', hres, hf⟩
  · exact (hne fault h).elim
  · cases h.symm.trans hf
    exact hres

end EightBit.Machine
