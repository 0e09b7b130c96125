import EightBit.Output.Limited
import EightBit.Proofs.Machine.Fetching
import EightBit.Proofs.Machine.Step

/-! When a step fails, and with which fault: several things can be wrong at once, and the first one
that is checked counts. -/
namespace EightBit

namespace Hazard

/-- A byte that is none of the opcodes. -/
def code (byte : UInt8) (pc : UInt16) : Hazard :=
  fun fault => (∀ o : Opcode, o.code ≠ byte) ∧ fault = .unknownOpcode byte pc

/-- A device that refuses the line for the value of a register. -/
def refusal {δ : Type} [Device δ] (d : δ) (registers : Registers) (r : UInt8) : Hazard :=
  fun fault => ∃ value failure, registers.get r = .ok value ∧
    Output.RefusesLine d value.toNat failure ∧ fault = .writeFailed failure

end Hazard

variable {size : Nat} {δ : Type} [Device δ] {p : Processor} {memory : Memory size}
  {i : Instruction} {e : Effect}

namespace Instruction

/-- What can be wrong with the device, if the instruction prints. -/
def refusals (i : Instruction) (p : Processor) (d : δ) : List Hazard :=
  match i with
  | prn r => [.refusal d p.registers r]
  | _ => []

end Instruction

namespace Checked

/-- Only an instruction that prints can meet a refusal. -/
theorem emit (out : Output δ) (he : i.effect p memory = .ok e) :
    Checked ((out.emit e.prints).1.mapError Fault.writeFailed) (i.refusals p out.device) := by
  cases Instruction.performs_of_effect he with
  | @prn r value note hr =>
    apply single
    intro fault
    have hline : ∀ failure, (out.printLine value.toNat).1 = .error failure ↔
        Output.RefusesLine out.device value.toNat failure := fun _ => Output.printLine_eq_error_iff
    simp only [Hazard.refusal, hr, Except.ok.injEq, exists_and_left, exists_eq_left', ← hline]
    exact mapError_eq_error_iff
  | _ => exact ok _

end Checked

namespace Processor

/-- The byte `k` cells behind the program counter, zero if there is none. -/
def byteAt (p : Processor) (memory : Memory size) (k : Nat) : UInt8 :=
  (memory.get? ((p.pc.toNat + k) % 65536)).getD 0

/-- The instruction that starts at the program counter, if there is an opcode. -/
def decoded? (p : Processor) (memory : Memory size) : Option Instruction :=
  (Opcode.ofCode? (p.byteAt memory 0)).map fun o =>
    o.instruction (p.byteAt memory 1) (p.byteAt memory 2)

/-- What can be wrong with the bytes of the instruction. -/
def hazards (p : Processor) (memory : Memory size) : List Hazard :=
  .address size p.pc.toNat :: .code (p.byteAt memory 0) p.pc ::
    match p.decoded? memory with
    | none => []
    | some i => (List.range i.opcode.operandCount).map fun k =>
        .address size ((p.pc.toNat + (k + 1)) % 65536)

theorem byteAt_of_read {k : Nat} {a : UInt8} (h : memory.read (p.pc + UInt16.ofNat k) = .ok a) :
    p.byteAt memory k = a := by
  rw [Memory.read_eq_ok_iff, UInt16.toNat_add, UInt16.toNat_ofNat', Nat.add_mod_mod] at h
  rw [byteAt, h]
  rfl

theorem byteAt_zero_of_read {a : UInt8} (h : memory.read p.pc = .ok a) :
    p.byteAt memory 0 = a := by
  apply byteAt_of_read
  simpa using h

theorem decoded?_of_fetch (h : p.fetch memory = .ok i) : p.decoded? memory = some i := by
  obtain ⟨o, a, b, hcode, ha, hb, rfl⟩ := fetch_eq_ok_iff.mp h
  have hfirst : p.byteAt memory 0 = o.code :=
    byteAt_zero_of_read (Memory.read_eq_ok_iff.mpr hcode)
  have hoperand : ∀ {k x}, p.fetchOperand memory o k = .ok x → k ≤ o.operandCount →
      p.byteAt memory k = x := by
    intro k x hx hk
    rw [fetchOperand, if_pos hk] at hx
    exact byteAt_of_read hx
  have hcount := o.operandCount_eq
  rw [decoded?, hfirst, Opcode.ofCode?_code, Option.map_some, Option.some.injEq]
  cases o <;> simp_all [Opcode.instruction]

end Processor

namespace Checked

theorem fetchOperand (p : Processor) (memory : Memory size) (o : Opcode) (k : Nat) :
    Checked (p.fetchOperand memory o k) (if k ≤ o.operandCount then
      [.address size ((p.pc.toNat + k) % 65536)] else []) := by
  unfold Processor.fetchOperand
  split
  · have h := read memory (p.pc + UInt16.ofNat k)
    rwa [UInt16.toNat_add, UInt16.toNat_ofNat', Nat.add_mod_mod] at h
  · exact ok _

/-- Only the operands that the opcode has are looked for, the first one first. -/
theorem operands (p : Processor) (memory : Memory size) (o : Opcode) :
    Checked (do
      let a ← p.fetchOperand memory o 1
      let b ← p.fetchOperand memory o 2
      return o.instruction a b)
    ((List.range o.operandCount).map fun k =>
      .address size ((p.pc.toNat + (k + 1)) % 65536)) := by
  have hlist : ∀ f : Nat → Hazard, (List.range o.operandCount).map (fun k => f (k + 1)) =
      (if 1 ≤ o.operandCount then [f 1] else []) ++
        ((if 2 ≤ o.operandCount then [f 2] else []) ++ []) := by
    intro f
    have hcount := o.operandCount_eq
    cases o <;> simp [hcount, List.range_succ]
  rw [hlist fun k => .address size ((p.pc.toNat + k) % 65536)]
  exact (fetchOperand p memory o 1).bind fun a _ =>
    (fetchOperand p memory o 2).bind fun b _ => ok (o.instruction a b)

theorem fetch (p : Processor) (memory : Memory size) :
    Checked (p.fetch memory) (p.hazards memory) := by
  refine (read memory p.pc).bind fun code hcode => ?_
  rw [Processor.decoded?, Processor.byteAt_zero_of_read hcode]
  cases ho : Opcode.ofCode? code with
  | none =>
    apply single
    intro fault
    have hnone : ∀ o : Opcode, o.code ≠ code := by
      rintro o rfl
      cases ho.symm.trans o.ofCode?_code
    simp [Hazard.code, hnone, throw, throwThe, MonadExceptOf.throw, eq_comm]
  | some o =>
    apply skip
    · simpa only [Option.map_some, Instruction.opcode_instruction] using operands p memory o
    · rintro f ⟨hnone, _⟩
      exact hnone o (Opcode.code_of_ofCode? ho)

end Checked

namespace Machine

variable {m : Machine size δ}

/-- Everything that can be wrong for a step, in the order in which it is checked. -/
def hazards (m : Machine size δ) : List Hazard :=
  m.processor.hazards m.memory ++
    match m.processor.decoded? m.memory with
    | none => []
    | some i => i.hazards size m.processor ++ i.refusals m.processor m.output.device

/-- The fetch, the checks of the instruction and the device decide about the result of a step. -/
theorem result_step (hr : m.processor.status = .running) :
    m.step.result = (do
      let i ← m.processor.fetch m.memory
      let e ← i.effect m.processor m.memory
      (m.output.emit e.prints).1.mapError Fault.writeFailed) := by
  have hs := stepped_step hr
  generalize m.step = outcome at hs ⊢
  cases hs with
  | unfetched hf => rw [hf]; rfl
  | refused hf he => simp only [hf, he, bind, Except.bind]
  | unprinted hf he ho => simp only [hf, he, ho, bind, Except.bind]; rfl
  | done hf he ho => simp only [hf, he, ho, bind, Except.bind]; rfl

/-- A step of a running machine fails exactly if something is wrong, and with the fault for the
first thing that is: the address and the code of the instruction, the addresses of its operands,
the registers and the cells that it uses, and last the device. -/
theorem step_fails_iff_first_hazard (hr : m.processor.status = .running) :
    (∀ fault, m.step.result = .error fault ↔ FirstOf m.hazards fault) ∧
    (m.step.result = .ok () ↔ ∀ c ∈ m.hazards, ∀ fault, ¬ c fault) := by
  have hstep : Checked m.step.result m.hazards := by
    rw [result_step hr]
    refine (Checked.fetch _ _).bind fun i hi => ?_
    rw [Processor.decoded?_of_fetch hi]
    exact (Checked.effect i _ _).bind fun e he => Checked.emit _ he
  exact ⟨hstep, hstep.ok_iff⟩

/-- Pops a register that does not exist from a cell that does not exist either. -/
def popper : Machine 2 Unlimited where
  processor := { Processor.startingAt 0 with sp := 5 }
  memory := ⟨#v[0x46, 9]⟩
  output := ⟨.device, ""⟩
  log := .empty .off

theorem popper_names_cell_first :
    popper.processor.status = .running ∧
    popper.hazards = [.address 2 0, .code 0x46 0, .address 2 1, .address 2 5, .register 9] ∧
    Hazard.address 2 5 (.noSuchAddress 5) ∧ Hazard.register 9 (.noSuchRegister 9) ∧
    FirstOf popper.hazards (.noSuchAddress 5) ∧ ¬ FirstOf popper.hazards (.noSuchRegister 9) := by
  obtain ⟨hfails, _⟩ := step_fails_iff_first_hazard (m := popper) rfl
  have hres : popper.step.result = .error (.noSuchAddress 5) :=
    result_of_faulted rfl (by decide +kernel)
  refine ⟨rfl, rfl, ⟨by decide, rfl⟩, ⟨by decide, rfl⟩, (hfails _).mp hres, ?_⟩
  intro hregister
  cases hres.symm.trans ((hfails _).mpr hregister)

end Machine
end EightBit
