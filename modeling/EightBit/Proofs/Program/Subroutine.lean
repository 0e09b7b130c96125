import EightBit.Proofs.Printing.Limited
import EightBit.Proofs.Program.Straight

/-! Subroutines without branches: calling one does what its commands do where the call stands, and
leaves nothing behind but the return address on the stack. -/
namespace EightBit

namespace Instruction

variable {size : Nat} {p : Processor} {r target : UInt8}

/-- A call from the first 254 cells can always store where to return to, if the stack has all its
cells. -/
theorem effect_call (memory : Memory size) (hr : p.registers.get r = .ok target)
    (hback : (p.pc + 2).toNat < 256) (hs : 256 ≤ size) : ∃ note,
    (call r).effect p memory = .ok { (call r).passing p with
      sp := p.sp - 1
      store := some (p.sp - 1, (p.pc + 2).toUInt8)
      transfer := ⟨target.toUInt16, true⟩
      note } := by
  have hbyte : returnByte (p.pc + 2) = .ok (p.pc + 2).toUInt8 := if_pos hback
  have hcell : memory.locate (p.sp - 1).toUInt16 = .ok () := by
    have hlt := (p.sp - 1).toNat_lt
    rw [Memory.locate_eq_ok_iff, UInt8.toNat_toUInt16]
    omega
  simp only [effect, next_passing_call, hr, hbyte, hcell]
  exact ⟨_, rfl⟩

theorem effect_ret {memory : Memory size} (hm : memory.get? p.sp.toNat = some target) :
    ∃ note, ret.effect p memory = .ok { ret.passing p with
      sp := p.sp + 1
      transfer := ⟨target.toUInt16, true⟩
      note } := by
  have hread : memory.read p.sp.toUInt16 = .ok target := by
    rw [Memory.read_eq_ok_iff, UInt8.toNat_toUInt16, hm]
  simp only [effect, hread]
  exact ⟨_, rfl⟩

end Instruction

namespace Machine

open Command Output

variable {size : Nat} {δ : Type} [Device δ] {m : Machine size δ} {c : Command} {P : List Command}

/-- Performs decoded instructions one after the other, up to the first that fails or halts. -/
def performAll (m : Machine size δ) : List Instruction → Outcome size δ Fault Unit
  | [] => ⟨.ok (), m⟩
  | i :: is =>
    match m.perform i with
    | ⟨.ok t, m⟩ => if t.proceed then (m.advance t).performAll is else ⟨.ok (), m.advance t⟩
    | ⟨.error fault, m⟩ => ⟨.error fault, m⟩

/-- A command that does not come from memory has the same effect. -/
theorem passes_perform (c : Command) (hall : TakesAll m.output.device) : ∃ t m',
    m.perform c.instruction = ⟨.ok t, m'⟩ ∧ t.proceed = true ∧ m.Passes [c] (m'.advance t) := by
  obtain ⟨note, he⟩ := c.effect_instruction m.processor m.memory
  obtain ⟨text, hn⟩ := Instruction.note_of_effect he
  obtain ⟨d, ho, hd⟩ := emit_of_takesAll hall m.output.printed (c.prints? m.processor.registers)
  refine ⟨_, _, perform_of_success he ho hn, rfl, ?_, ?_, hd, ?_⟩
  · simp [advance, processor_commit, Instruction.passing, code, applyAll,
      Instruction.length_encode]
  · simp [advance, memory_commit, Instruction.passing]
  · simp [advance, lines]

theorem passes_performAll (P : List Command) (hall : TakesAll m.output.device) : ∃ m',
    m.performAll (P.map Command.instruction) = ⟨.ok (), m'⟩ ∧ m.Passes P m' := by
  induction P generalizing m with
  | nil => exact ⟨m, rfl, .nil hall⟩
  | cons c P ih =>
    obtain ⟨t, m', hperform, hproceed, hfirst⟩ := passes_perform c hall
    obtain ⟨m'', hrest, hpasses⟩ := ih hfirst.takesAll
    refine ⟨m'', ?_, hfirst.cons hpasses⟩
    rw [List.map_cons, performAll, hperform]
    simp only [hproceed, if_true]
    exact hrest

/-- A call goes to the subroutine and leaves the return address on the stack. -/
theorem step_of_call {r target : UInt8} (hr : m.isRunning = true)
    (hf : m.processor.fetch m.memory = .ok (.call r))
    (ht : m.processor.registers.get r = .ok target) (hback : (m.processor.pc + 2).toNat < 256)
    (hs : 256 ≤ size) :
    m.step.machine.processor =
        { m.processor with pc := target.toUInt16, sp := m.processor.sp - 1 } ∧
      m.step.machine.memory =
        m.memory.set (m.processor.sp - 1).toNat (m.processor.pc + 2).toUInt8 ∧
      m.step.machine.output = m.output := by
  obtain ⟨note, he⟩ := Instruction.effect_call m.memory ht hback hs
  obtain ⟨text, hstep⟩ := step_of_silent (isRunning_iff.mp hr) hf he rfl
  rw [hstep]
  simp [completed, memory_commit, Instruction.passing, isRunning_iff.mp hr]

/-- A return goes to the address on the stack. -/
theorem step_of_ret {back : UInt8} (hr : m.isRunning = true)
    (hf : m.processor.fetch m.memory = .ok .ret)
    (hb : m.memory.get? m.processor.sp.toNat = some back) :
    m.step.machine.processor =
        { m.processor with pc := back.toUInt16, sp := m.processor.sp + 1 } ∧
      m.step.machine.memory = m.memory ∧ m.step.machine.output = m.output := by
  obtain ⟨note, he⟩ := Instruction.effect_ret hb
  obtain ⟨text, hstep⟩ := step_of_silent (isRunning_iff.mp hr) hf he rfl
  rw [hstep]
  simp [completed, memory_commit, Instruction.passing, isRunning_iff.mp hr]

/-- A subroutine ends at the address on the stack after all its commands and a return. -/
theorem returns_after {back : UInt8} (hr : m.isRunning = true) (hall : TakesAll m.output.device)
    (hcode : m.memory.Holds m.processor.pc.toNat (code P ++ Instruction.ret.encode))
    (hend : m.processor.pc.toNat + (code P).length < 65536)
    (hb : m.memory.get? m.processor.sp.toNat = some back) :
    (m.after (P.length + 1)).processor =
        { m.processor with
          pc := back.toUInt16
          sp := m.processor.sp + 1
          registers := applyAll P m.processor.registers } ∧
      (m.after (P.length + 1)).memory = m.memory ∧
      (m.after (P.length + 1)).output.printed =
        m.output.printed ++ String.ofList (lines P m.processor.registers) := by
  have hsize : Instruction.ret.size = 1 := (Instruction.length_encode _).symm
  obtain ⟨hruns, hpasses, hfetch⟩ := passes_to hr hall hcode (by omega)
  have hcell : (m.after P.length).memory.get? (m.after P.length).processor.sp.toNat =
      some back := by
    rw [hpasses.memory, hpasses.processor]
    exact hb
  obtain ⟨hprocessor, hmemory, houtput⟩ :=
    step_of_ret (hruns P.length (Nat.le_refl _)) hfetch hcell
  refine ⟨?_, ?_, ?_⟩
  · rw [after, hprocessor, hpasses.processor]
  · rw [after, hmemory, hpasses.memory]
  · rw [after, houtput, hpasses.printed]

/-- A call of a subroutine that the stack does not reach into is over after all its commands and a
return. The machine runs on behind the call, with the stack pointer that it had, and the registers,
the flags and the output are those that the commands by themselves leave. In memory only the cell
below the stack pointer may have changed, which holds the return address. -/
theorem call_performs_commands (P : List Command) {r target : UInt8} (hr : m.isRunning = true)
    (hall : TakesAll m.output.device) (hs : 256 ≤ size) (hpc : m.processor.pc.toNat + 2 ≤ 255)
    (hcall : m.memory.Holds m.processor.pc.toNat (Instruction.call r).encode)
    (ht : m.processor.registers.get r = .ok target)
    (hbody : m.memory.Holds target.toNat (code P ++ Instruction.ret.encode))
    (hend : target.toNat + (code P).length < min size 65536)
    (hcell : (m.processor.sp - 1).toNat < target.toNat ∨
      target.toNat + (code P).length < (m.processor.sp - 1).toNat) :
    ∃ m' : Machine size δ, m.performAll (P.map Command.instruction) = ⟨.ok (), m'⟩ ∧
      (m.after (P.length + 2)).processor.status = .running ∧
      (m.after (P.length + 2)).processor.pc.toNat = m.processor.pc.toNat + 2 ∧
      (m.after (P.length + 2)).processor.sp = m.processor.sp ∧
      (m.after (P.length + 2)).processor.registers = m'.processor.registers ∧
      (m.after (P.length + 2)).output.printed = m'.output.printed ∧
      (∃ byte, (m.after (P.length + 2)).memory.get? (m.processor.sp - 1).toNat = some byte ∧
        byte.toNat = m.processor.pc.toNat + 2) ∧
      ∀ i, i ≠ (m.processor.sp - 1).toNat →
        (m.after (P.length + 2)).memory.get? i = m.memory.get? i := by
  have hback : (m.processor.pc + 2).toNat = m.processor.pc.toNat + 2 := by
    have htwo : (2 : UInt16).toNat = 2 := rfl
    rw [UInt16.toNat_add]
    omega
  have hcell_lt := (m.processor.sp - 1).toNat_lt
  have hsize : (Instruction.call r).size = 2 := (Instruction.length_encode _).symm
  have hfetch := Processor.fetch_of_holds hcall (by omega)
  obtain ⟨hprocessor, hmemory, houtput⟩ := step_of_call hr hfetch ht (by omega) hs
  have hentry : m.step.machine.processor.pc.toNat = target.toNat := by
    rw [hprocessor, UInt8.toNat_toUInt16]
  -- the cell with the return address is not one of the subroutine
  have hcode : m.step.machine.memory.Holds m.step.machine.processor.pc.toNat
      (code P ++ Instruction.ret.encode) := by
    rw [hmemory, hentry]
    refine hbody.set ?_ _
    simp only [List.length_append, Instruction.encode, Instruction.operands, List.length_singleton]
    omega
  have hb : m.step.machine.memory.get? m.step.machine.processor.sp.toNat =
      some (m.processor.pc + 2).toUInt8 := by
    rw [hmemory, hprocessor, Memory.get?_set, if_pos rfl, if_pos (by omega)]
  have hrun : m.step.machine.isRunning = true := by
    rw [isRunning_iff, hprocessor]
    exact isRunning_iff.mp hr
  obtain ⟨hprocessor', hmemory', hprinted'⟩ :=
    returns_after hrun (houtput ▸ hall) hcode (by omega) hb
  obtain ⟨m', hperform, hpasses⟩ := passes_performAll P hall
  refine ⟨m', hperform, ?_⟩
  rw [← after_step m (P.length + 1), hprocessor', hmemory', hprinted', hmemory, hprocessor, houtput,
    hpasses.processor, hpasses.printed]
  refine ⟨isRunning_iff.mp hr, ?_, ?_, rfl, rfl, ⟨(m.processor.pc + 2).toUInt8, ?_, ?_⟩, ?_⟩
  · simp only [UInt8.toNat_toUInt16, UInt16.toNat_toUInt8]
    omega
  · simp
  · rw [Memory.get?_set, if_pos rfl, if_pos (by omega)]
  · rw [UInt16.toNat_toUInt8]
    omega
  · intro i hi
    rw [Memory.get?_set, if_neg (Ne.symm hi)]

/-- Doubles a register and prints it. -/
def doubled (r : Fin 8) : List Command :=
  [.operate .add r r, .print r]

/-- Calls the subroutine with the stack pointer just above the call itself. -/
def visitor : Machine 256 Unlimited where
  processor :=
    { pc := 0, sp := 1, registers := ⟨#v[3, 200, 0, 0, 0, 0, 0, 0], .zero⟩, status := .running }
  memory := Memory.zero.place 0 [0x50, 0, 0x01, 0xA0, 1, 1, 0x47, 1, 0x11]
  output := ⟨.device, ""⟩
  log := .empty .off

theorem visitor_performs_doubled :
    visitor.isRunning = true ∧ TakesAll visitor.output.device ∧
    visitor.memory.Holds 0 (Instruction.call 0).encode ∧
    visitor.processor.registers.get 0 = .ok 3 ∧
    visitor.memory.Holds 3 (code (doubled 1) ++ Instruction.ret.encode) ∧
    ∃ m' : Machine 256 Unlimited,
      visitor.performAll ((doubled 1).map Command.instruction) = ⟨.ok (), m'⟩ ∧
      (visitor.after 4).processor.pc.toNat = 2 ∧ (visitor.after 4).processor.sp = 1 ∧
      (visitor.after 4).processor.registers = m'.processor.registers ∧
      (visitor.after 4).output.printed = m'.output.printed ∧ m'.output.printed = "144\n" ∧
      ∃ byte, (visitor.after 4).memory.get? 0 = some byte ∧ byte.toNat = 2 := by
  have hr : visitor.isRunning = true := by decide
  have hall : TakesAll visitor.output.device := takesAll_unlimited _
  have hcall : visitor.memory.Holds 0 (Instruction.call 0).encode := by decide +kernel
  have ht : visitor.processor.registers.get 0 = .ok 3 := rfl
  have hbody : visitor.memory.Holds 3 (code (doubled 1) ++ Instruction.ret.encode) := by
    decide +kernel
  obtain ⟨m', hperform, _, hpc, hsp, hregisters, hprinted, hcell, _⟩ :=
    call_performs_commands (doubled 1) hr hall (by decide) (by decide) hcall ht hbody
      (by decide) (.inl (by decide))
  have hsteps : (doubled 1).length + 2 = 4 := rfl
  rw [hsteps] at hpc hsp hregisters hprinted hcell
  have htext : (visitor.after 4).output.printed = "144\n" := by decide +kernel
  exact ⟨hr, hall, hcall, ht, hbody, m', hperform, hpc, hsp, hregisters, hprinted,
    hprinted.symm.trans htext, hcell⟩

end Machine
end EightBit
