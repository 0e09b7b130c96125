import EightBit.Proofs.Machine.Fetching
import EightBit.Proofs.Machine.Footprint

/-! Machines with different memories do the same as long as their memories agree on the cells that
are read. -/
namespace EightBit

namespace Log

/-- The entries but for those that show what is about to be fetched. -/
def untraced (log : Log) : Array Entry :=
  log.entries.filter fun e => e.level ≠ .trace

/-- The same verbosity and the same entries, traces apart. -/
structure SameUntraced (log log' : Log) : Prop where
  verbosity : log'.verbosity = log.verbosity
  untraced : log'.untraced = log.untraced

variable {log log' : Log}

theorem untraced_record (level : Level) (origin : Origin) (text : Unit → String) :
    (log.record level origin text).untraced = log.untraced ++
      if log.verbosity.admits level ∧ level ≠ .trace then #[⟨level, origin, text ()⟩] else #[] := by
  unfold untraced record
  split
  next ha => by_cases ht : level = .trace <;> simp [ha, ht]
  next ha => simp [ha]

theorem SameUntraced.record (h : log.SameUntraced log') (level : Level) (origin : Origin)
    (text : Unit → String) :
    (log.record level origin text).SameUntraced (log'.record level origin text) := by
  refine ⟨by simpa using h.verbosity, ?_⟩
  rw [untraced_record, untraced_record, h.untraced, h.verbosity]

/-- Traces may differ in their texts. -/
theorem SameUntraced.recordTrace (h : log.SameUntraced log') (origin : Origin)
    (text text' : Unit → String) :
    (log.record .trace origin text).SameUntraced (log'.record .trace origin text') := by
  refine ⟨by simpa using h.verbosity, ?_⟩
  simp [untraced_record, h.untraced]

end Log

section Congruence

variable {size size' : Nat} {p : Processor} {memory : Memory size} {memory' : Memory size'}
  {i : Instruction} {address : UInt16}

theorem Memory.read_congr (h : memory'.get? address.toNat = memory.get? address.toNat) :
    memory'.read address = memory.read address := by
  rw [read, h, read]

theorem Memory.locate_congr (h : address.toNat < size' ↔ address.toNat < size) :
    memory'.locate address = memory.locate address := by
  simp [locate, h]

namespace Processor

/-- The opcode at the program counter. -/
def opcode? (p : Processor) (memory : Memory size) : Option Opcode :=
  (memory.get? p.pc.toNat).bind Opcode.ofCode?

/-- The cells that are read on behalf of an opcode at the program counter: its own, those of its
operands, and the one that it takes off the stack. Without an opcode only the first is read. -/
def cellsFor (p : Processor) : Option Opcode → List Nat
  | none => [p.pc.toNat]
  | some o =>
    (List.range o.size).map (fun k => (p.pc + UInt16.ofNat k).toNat) ++
      if o = .pop ∨ o = .ret then [p.sp.toNat] else []

theorem mem_cellsFor_of_lt {o : Opcode} {k : Nat} (hk : k < o.size) :
    (p.pc + UInt16.ofNat k).toNat ∈ p.cellsFor (some o) := by
  apply List.mem_append_left
  exact List.mem_map.mpr ⟨k, List.mem_range.mpr hk, rfl⟩

theorem pc_mem_cellsFor (o : Option Opcode) : p.pc.toNat ∈ p.cellsFor o := by
  cases o with
  | none => exact List.mem_singleton.mpr rfl
  | some o =>
    have hpos : 0 < o.size := by
      rw [Opcode.size]
      omega
    simpa using p.mem_cellsFor_of_lt hpos

theorem sp_mem_cellsFor {o : Opcode} (h : o = .pop ∨ o = .ret) :
    p.sp.toNat ∈ p.cellsFor (some o) := by
  apply List.mem_append_right
  simp [h]

theorem opcode?_of_fetch (h : p.fetch memory = .ok i) : p.opcode? memory = some i.opcode := by
  obtain ⟨o, a, b, hcode, _, _, rfl⟩ := fetch_eq_ok_iff.mp h
  simp [opcode?, hcode, Opcode.ofCode?_code, Instruction.opcode_instruction]

theorem fetchOperand_congr {o : Opcode} {k : Nat}
    (h : ∀ c ∈ p.cellsFor (some o), memory'.get? c = memory.get? c) :
    p.fetchOperand memory' o k = p.fetchOperand memory o k := by
  unfold fetchOperand
  split
  next hk =>
    apply Memory.read_congr
    apply h
    apply mem_cellsFor_of_lt
    rw [Opcode.size]
    omega
  next => rfl

/-- A fetch depends on the cells of the opcode and its operands. -/
theorem fetch_congr
    (h : ∀ c ∈ p.cellsFor (p.opcode? memory), memory'.get? c = memory.get? c) :
    p.fetch memory' = p.fetch memory := by
  have hread := Memory.read_congr (h _ (pc_mem_cellsFor _))
  unfold fetch
  rw [hread]
  cases hcode : memory.read p.pc with
  | error fault => rfl
  | ok code =>
    cases ho : Opcode.ofCode? code with
    | none => simp only [bind, Except.bind, ho]
    | some o =>
      have hopcode : p.opcode? memory = some o := by
        rw [opcode?, Memory.read_eq_ok_iff.mp hcode]
        exact ho
      rw [hopcode] at h
      simp only [bind, Except.bind, ho, fetchOperand_congr h]

end Processor

/-- An effect depends on the cell that is taken off the stack, and on the room for one that is put
there. -/
theorem Instruction.effect_congr
    (hread : i.opcode = .pop ∨ i.opcode = .ret → memory'.get? p.sp.toNat = memory.get? p.sp.toNat)
    (hroom : ∀ cell, i.stackCell? p = some cell → (cell.toNat < size' ↔ cell.toNat < size)) :
    i.effect p memory' = i.effect p memory := by
  have hlocate : ∀ cell, i.stackCell? p = some cell →
      memory'.locate cell.toUInt16 = memory.locate cell.toUInt16 := by
    intro cell hc
    apply Memory.locate_congr
    simpa using hroom cell hc
  have htake : i.opcode = .pop ∨ i.opcode = .ret →
      memory'.read p.sp.toUInt16 = memory.read p.sp.toUInt16 := by
    intro ho
    apply Memory.read_congr
    simpa using hread ho
  cases i with
  | ret => simp only [effect, htake (.inr rfl)]
  | pop r => simp only [effect, htake (.inl rfl)]
  | push r => simp only [effect, hlocate _ rfl]
  | call r => simp only [effect, hlocate _ rfl]
  | _ => rfl

end Congruence

namespace Machine

section

variable {size size' : Nat} {δ : Type}

/-- The cells that the next step reads. A machine that has stopped reads none. -/
def reads (m : Machine size δ) : List Nat :=
  if m.isRunning then m.processor.cellsFor (m.processor.opcode? m.memory) else []

/-- The same processor, the same output and, traces apart, the same log. Memories may differ, even
in size. -/
structure InStep (m : Machine size δ) (m' : Machine size' δ) : Prop where
  processor : m'.processor = m.processor
  output : m'.output = m.output
  log : m.log.SameUntraced m'.log

variable {m : Machine size δ} {m' : Machine size' δ} {i : Instruction}

theorem InStep.isRunning (h : m.InStep m') : m'.isRunning = m.isRunning := by
  rw [Machine.isRunning, h.processor, Machine.isRunning]

theorem InStep.traced (h : m.InStep m') : m.traced.InStep m'.traced := by
  refine ⟨h.processor, h.output, ?_⟩
  exact h.log.recordTrace .processor (fun _ => m.processor.traceText m.memory)
    fun _ => m'.processor.traceText m'.memory

theorem InStep.withOutput (h : m.InStep m') (output : Output δ) :
    { m with output }.InStep { m' with output } :=
  ⟨h.processor, rfl, h.log⟩

theorem InStep.fail (h : m.InStep m') (fault : Fault) : (m.fail fault).InStep (m'.fail fault) := by
  refine ⟨?_, h.output, ?_⟩
  · simp only [Machine.fail, record, h.processor]
  · simp only [Machine.fail, record, h.processor]
    exact h.log.record _ _ _

theorem InStep.completed (h : m.InStep m') (e : Effect) (output : Output δ) (text : String) :
    (m.completed e output text).InStep (m'.completed e output text) := by
  refine ⟨rfl, rfl, ?_⟩
  exact h.traced.log.record .debug .processor fun _ => text

theorem InStep.fetch (h : m.InStep m') (hrun : m.isRunning = true)
    (hreads : ∀ c ∈ m.reads, m'.memory.get? c = m.memory.get? c) :
    m'.processor.fetch m'.memory = m.processor.fetch m.memory := by
  rw [reads, if_pos hrun] at hreads
  rw [h.processor]
  exact Processor.fetch_congr hreads

theorem InStep.instruction? (h : m.InStep m')
    (hreads : ∀ c ∈ m.reads, m'.memory.get? c = m.memory.get? c) :
    m'.instruction? = m.instruction? := by
  rw [Machine.instruction?, Machine.instruction?, h.isRunning]
  split
  next hrun => rw [h.fetch hrun hreads]
  next => rfl

theorem InStep.effect (h : m.InStep m') (hi : m.instruction? = some i)
    (hreads : ∀ c ∈ m.reads, m'.memory.get? c = m.memory.get? c)
    (hroom : ∀ cell, i.stackCell? m.processor = some cell →
      (cell.toNat < size' ↔ cell.toNat < size)) :
    i.effect m'.processor m'.memory = i.effect m.processor m.memory := by
  obtain ⟨hr, hf⟩ := fetch_of_instruction? hi
  rw [reads, if_pos (isRunning_iff.mpr hr), Processor.opcode?_of_fetch hf] at hreads
  rw [h.processor]
  apply Instruction.effect_congr
  · intro ho
    exact hreads _ (Processor.sp_mem_cellsFor ho)
  · exact hroom

end

section

variable {size size' : Nat} {δ : Type} [Device δ]

/-- The next steps answer the same, perform the same instruction and leave machines in step. -/
structure SameStep (m : Machine size δ) (m' : Machine size' δ) : Prop where
  result : m'.step.result = m.step.result
  executed? : m'.executed? = m.executed?
  next : m.step.machine.InStep m'.step.machine

variable {m : Machine size δ} {m' : Machine size' δ} {c n : Nat}

/-- Machines in step take the same step if their memories agree on what it reads, and in whether
there is room on the stack for what it puts there. -/
theorem InStep.sameStep (h : m.InStep m')
    (hreads : ∀ c ∈ m.reads, m'.memory.get? c = m.memory.get? c)
    (hroom : ∀ i cell, m.instruction? = some i → i.stackCell? m.processor = some cell →
      (cell.toNat < size' ↔ cell.toNat < size)) : m.SameStep m' := by
  suffices hboth : m'.step.result = m.step.result ∧ m.step.machine.InStep m'.step.machine by
    obtain ⟨hresult, hnext⟩ := hboth
    refine ⟨hresult, ?_, hnext⟩
    rw [executed?, executed?, hresult, h.instruction? hreads]
  cases hrun : m.isRunning with
  | false =>
    rw [step_of_not_running hrun, step_of_not_running (h.isRunning.trans hrun)]
    exact ⟨rfl, h⟩
  | true =>
    have hr := isRunning_iff.mp hrun
    have hr' := isRunning_iff.mp (h.isRunning.trans hrun)
    have hfetch := h.fetch hrun hreads
    have heffect : ∀ i, m.processor.fetch m.memory = .ok i →
        i.effect m'.processor m'.memory = i.effect m.processor m.memory := by
      intro i hf
      have hi := instruction?_of_fetch hr hf
      exact h.effect hi hreads fun cell => hroom i cell hi
    have hs := stepped_step hr
    generalize m.step = outcome at hs ⊢
    cases hs with
    | unfetched hf =>
      rw [step_eq_of_stepped hr' (.unfetched (hfetch.trans hf))]
      exact ⟨rfl, h.traced.fail _⟩
    | refused hf he =>
      rw [step_eq_of_stepped hr' (.refused (hfetch.trans hf) ((heffect _ hf).trans he))]
      exact ⟨rfl, h.traced.fail _⟩
    | unprinted hf he ho =>
      rw [← h.output] at ho
      rw [step_eq_of_stepped hr' (.unprinted (hfetch.trans hf) ((heffect _ hf).trans he) ho)]
      exact ⟨rfl, (h.traced.withOutput _).fail _⟩
    | done hf he ho hn =>
      rw [← h.output] at ho
      rw [step_eq_of_stepped hr' (.done (hfetch.trans hf) ((heffect _ hf).trans he) ho hn)]
      exact ⟨rfl, h.completed _ _ _⟩

theorem SameStep.written? (h : m.SameStep m') : m'.written? = m.written? := by
  rw [Machine.written?, Machine.written?, h.executed?, h.next.processor]

/-- After the same step the memories agree on what it has written, and on all that they agreed on
before. -/
theorem SameStep.get?_step (h : m.SameStep m') (hp : m'.processor = m.processor)
    (hc : m'.memory.get? c = m.memory.get? c ∨ m.written? = some c) :
    m'.step.machine.memory.get? c = m.step.machine.memory.get? c := by
  by_cases hw : m.written? = some c
  · obtain ⟨i, byte, hi, hstored, hget⟩ := get?_step_of_written hw
    obtain ⟨i', byte', hi', hstored', hget'⟩ := get?_step_of_written (h.written?.trans hw)
    cases hi.symm.trans (h.executed?.symm.trans hi')
    rw [hp] at hstored'
    have hbytes := Option.some.inj (hstored.symm.trans hstored')
    rw [hget, hget', UInt8.toUInt16_inj.mp hbytes]
  · have hw' : m'.written? ≠ some c := by rwa [h.written?]
    rw [get?_step_of_not_written hw, get?_step_of_not_written hw']
    exact hc.resolve_right hw

/-- One of the first `n` steps reads the cell, and none of the steps before has written it. -/
def ReadsFirst (m : Machine size δ) (n c : Nat) : Prop :=
  ∃ k < n, c ∈ (m.after k).reads ∧ ∀ j < k, (m.after j).written? ≠ some c

/-- One of the first `n` steps writes the cell. -/
def Writes (m : Machine size δ) (n c : Nat) : Prop :=
  ∃ k < n, (m.after k).written? = some c

theorem ReadsFirst.mono {k : Nat} (h : m.ReadsFirst k c) (hk : k ≤ n) : m.ReadsFirst n c := by
  obtain ⟨j, hj, hread⟩ := h
  exact ⟨j, by omega, hread⟩

theorem writes_succ : m.Writes (n + 1) c ↔ m.Writes n c ∨ (m.after n).written? = some c := by
  constructor
  · rintro ⟨k, hk, hw⟩
    rcases Nat.lt_succ_iff_lt_or_eq.mp hk with hlt | rfl
    · exact .inl ⟨k, hlt, hw⟩
    · exact .inr hw
  · rintro (⟨k, hk, hw⟩ | hw)
    · exact ⟨k, by omega, hw⟩
    · exact ⟨n, by omega, hw⟩

variable {l : Machine size δ}

theorem sameStep_of_readsFirst (h : (m.after n).InStep (l.after n))
    (hcells : ∀ c, l.memory.get? c = m.memory.get? c ∨ m.Writes n c →
      (l.after n).memory.get? c = (m.after n).memory.get? c)
    (hreads : ∀ c, m.ReadsFirst (n + 1) c → l.memory.get? c = m.memory.get? c) :
    (m.after n).SameStep (l.after n) := by
  refine h.sameStep ?_ fun _ _ _ _ => Iff.rfl
  intro c hc
  apply hcells
  by_cases hw : m.Writes n c
  · exact .inr hw
  · refine .inl (hreads c ⟨n, Nat.lt_succ_self n, hc, ?_⟩)
    intro j hj hwj
    exact hw ⟨j, hj, hwj⟩

theorem InStep.after_of_readsFirst (h : m.InStep l)
    (hreads : ∀ c, m.ReadsFirst n c → l.memory.get? c = m.memory.get? c) :
    (m.after n).InStep (l.after n) ∧
      ∀ c, l.memory.get? c = m.memory.get? c ∨ m.Writes n c →
        (l.after n).memory.get? c = (m.after n).memory.get? c := by
  induction n with
  | zero =>
    refine ⟨h, ?_⟩
    rintro c (hc | ⟨k, hk, _⟩)
    · exact hc
    · omega
  | succ n ih =>
    obtain ⟨hin, hcells⟩ := ih fun c hc => hreads c (hc.mono n.le_succ)
    have hsame := sameStep_of_readsFirst hin hcells hreads
    refine ⟨hsame.next, ?_⟩
    intro c hc
    apply hsame.get?_step hin.processor
    rcases hc with hc | hc
    · exact .inl (hcells c (.inl hc))
    · rcases writes_succ.mp hc with hw | hw
      · exact .inl (hcells c (.inr hw))
      · exact .inr hw

/-- A run depends on the cells that it reads before it has written them, and on no others. Another
memory that holds the same there gives the same answers, the same processor and output after each
step and, traces apart, the same log; in the end the memories agree on what they agreed on at the
start and on all that was written. -/
theorem run_depends_on_reads (h : m.InStep l) (n : Nat)
    (hreads : ∀ c, m.ReadsFirst n c → l.memory.get? c = m.memory.get? c) :
    (∀ k < n, (l.after k).step.result = (m.after k).step.result) ∧
    (∀ k ≤ n, (m.after k).InStep (l.after k)) ∧
    ∀ c, l.memory.get? c = m.memory.get? c ∨ m.Writes n c →
      (l.after n).memory.get? c = (m.after n).memory.get? c := by
  have hbefore : ∀ k ≤ n, ∀ c, m.ReadsFirst k c → l.memory.get? c = m.memory.get? c := by
    intro k hk c hc
    exact hreads c (hc.mono hk)
  refine ⟨?_, ?_, (h.after_of_readsFirst hreads).2⟩
  · intro k hk
    obtain ⟨hin, hcells⟩ := h.after_of_readsFirst (hbefore k (by omega))
    exact (sameStep_of_readsFirst hin hcells (hbefore (k + 1) hk)).result
  · intro k hk
    exact (h.after_of_readsFirst (hbefore k hk)).1

/-- Pushes a value and pops it into another register. -/
def bouncer : Machine 16 Unlimited where
  processor :=
    { pc := 0
      sp := 11
      registers := ⟨#v[7, 0, 0, 0, 0, 0, 0, 0], .zero⟩
      status := .running }
  memory := Memory.zero.place 0 [0x45, 0, 0x46, 1, 0x01]
  output := ⟨.device, ""⟩
  log := .empty .off

/-- The same with another byte in the cell that is pushed before it is popped, and in a cell that
no step reads. -/
def littered : Machine 16 Unlimited :=
  { bouncer with memory := (bouncer.memory.set 12 9).set 15 9 }

theorem littered_in_step : bouncer.InStep littered ∧ littered.memory.get? 12 = some 9 ∧
    (∀ c, bouncer.ReadsFirst 3 c → littered.memory.get? c = bouncer.memory.get? c) ∧
    (littered.after 2).step.result = .ok () ∧
    (littered.after 3).processor.registers.get 1 = .ok 7 ∧
    (littered.after 3).memory.get? 12 = some 7 := by
  have hstart : bouncer.InStep littered := ⟨rfl, rfl, rfl, rfl⟩
  have hreads : ∀ c, bouncer.ReadsFirst 3 c →
      littered.memory.get? c = bouncer.memory.get? c := by
    have hsteps : ∀ k < 3, ∀ c ∈ (bouncer.after k).reads,
        (∀ j < k, (bouncer.after j).written? ≠ some c) →
        littered.memory.get? c = bouncer.memory.get? c := by decide +kernel
    rintro c ⟨k, hk, hc, hfirst⟩
    exact hsteps k hk c hc hfirst
  have hwrites : bouncer.Writes 3 12 := ⟨0, by decide, by decide +kernel⟩
  obtain ⟨hresults, hsteps, hcells⟩ := run_depends_on_reads hstart 3 hreads
  refine ⟨hstart, by decide, hreads, ?_, ?_, ?_⟩
  · exact (hresults 2 (by decide)).trans (by rfl)
  · rw [(hsteps 3 (by decide)).processor]
    rfl
  · rw [hcells 12 (.inr hwrites)]
    decide +kernel

end

end Machine
end EightBit
