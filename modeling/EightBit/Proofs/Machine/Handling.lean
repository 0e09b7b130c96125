import EightBit.Machine.Step
import EightBit.Proofs.Machine.Effect
import EightBit.Proofs.Printing

/-! Handlers change a machine in place while they still check. Nevertheless each of them does what
its effect tells beforehand: once something has changed, no further check fails. -/
namespace EightBit

namespace InPlace

variable {σ : Type}

/-- If the computation fails, it has changed nothing. -/
def Atomic (x : InPlace σ Unit) : Prop :=
  ∀ s fault s', x.run s = .error fault s' → s' = s

theorem Atomic.run_eq {x : InPlace σ Unit} (hx : Atomic x) (s : σ) : x.run s =
    match x.leaves s with
    | .ok s' => .ok () s'
    | .error fault => .error fault s := by
  rw [leaves]
  cases h : x.run s with
  | ok _ s' => rfl
  | error fault s' => rw [hx s fault s' h]

end InPlace

open InPlace

theorem Registers.atomic_assign (index value : UInt8) : Atomic (assign index value) := by
  intro r fault r' h
  rw [run_assign] at h
  split at h
  · cases h
  · cases h
    rfl

/-- Both registers are read before the first one is set. -/
theorem Operation.atomic_operate (op : Operation) (a b : UInt8) : Atomic (op.operate a b) := by
  intro r fault r' h
  simp only [operate, EStateM.run_bind, EStateM.run_get, run_liftExcept] at h
  cases hx : r.get a with
  | error _ =>
    simp only [hx] at h
    cases h
    rfl
  | ok x =>
    cases hy : r.get b with
    | error _ =>
      simp only [hx, hy] at h
      cases h
      rfl
    | ok y =>
      simp only [hx, hy] at h
      cases op with
      | add | mul => exact Registers.atomic_assign _ _ _ _ _ h
      | cmp => cases h

namespace Machine

variable {size : Nat} {δ : Type}

/-- Stores what the effect stores and takes over its registers and stack pointer. -/
def commit (m : Machine size δ) (e : Effect) : Machine size δ :=
  let ⟨processor, memory, output, log⟩ := m
  { processor := { processor with registers := e.registers, sp := e.sp }
    memory := match e.store with
      | some (address, value) => memory.set address.toNat value
      | none => memory
    output
    log }

section

variable (m : Machine size δ) (e : Effect)

theorem processor_commit :
    (m.commit e).processor = { m.processor with registers := e.registers, sp := e.sp } := rfl

theorem memory_commit : (m.commit e).memory =
    match e.store with
    | some (address, value) => m.memory.set address.toNat value
    | none => m.memory := rfl

theorem log_commit : (m.commit e).log = m.log := rfl

end

/-- Takes over the effect and notes it in the log. -/
def complete (m : Machine size δ) (e : Effect) : Outcome size δ Fault Transfer :=
  let m := m.commit e
  match m.log.tryRecord .debug .processor e.note with
  | .ok log => ⟨.ok e.transfer, { m with log }⟩
  | .error fault => ⟨.error fault, m⟩

theorem run_onRegisters {x : InPlace Registers Unit} (hx : Atomic x) (m : Machine size δ) :
    (onRegisters x).run m =
      match x.leaves m.processor.registers with
      | .ok registers => .ok () { m with processor := { m.processor with registers } }
      | .error fault => .error fault m := by
  have hrun := hx.run_eq m.processor.registers
  simp only [EStateM.run] at hrun ⊢
  simp only [onRegisters, EStateM.run, hrun]
  cases x.leaves m.processor.registers <;> rfl

theorem run_writeCell (m : Machine size δ) (cell value : UInt8) :
    (writeCell cell value).run m =
      match m.memory.locate cell.toUInt16 with
      | .ok () => .ok () { m with memory := m.memory.set cell.toNat value }
      | .error fault => .error fault m := by
  have hrun := m.memory.run_store cell.toUInt16 value
  simp only [EStateM.run] at hrun ⊢
  simp only [writeCell, onMemory, EStateM.run, hrun]
  cases m.memory.locate cell.toUInt16 <;> rfl

theorem outcome_note {m m' : Machine size δ} {e : Effect} (h : m' = m.commit e) :
    m'.outcome (do note e.note; return e.transfer) = m.complete e := by
  have hrun : (note e.note).run (m.commit e) =
      match m.log.tryRecord .debug .processor e.note with
      | .ok log => .ok () { m.commit e with log }
      | .error fault => .error fault (m.commit e) := rfl
  rw [h, outcome, EStateM.run_bind, hrun, complete, log_commit]
  cases m.log.tryRecord .debug .processor e.note <;> rfl

variable [Device δ]

theorem run_printLine (m : Machine size δ) (n : Nat) : (printLine n).run m =
    match m.output.printLine n with
    | (.ok (), output) => .ok () { m with output }
    | (.error failure, output) => .error (.writeFailed failure) { m with output } := rfl

/-- Prints and then completes what was decided, or fails as was decided. -/
def enact (m : Machine size δ) : Except Fault Effect → Outcome size δ Fault Transfer
  | .error fault => ⟨.error fault, m⟩
  | .ok e =>
    match m.output.emit e.prints with
    | (.ok (), output) => complete { m with output } e
    | (.error failure, output) => ⟨.error (.writeFailed failure), { m with output }⟩

theorem enact_pure (m : Machine size δ) (e : Effect) : m.enact (pure e) =
    match m.output.emit e.prints with
    | (.ok (), output) => complete { m with output } e
    | (.error failure, output) => ⟨.error (.writeFailed failure), { m with output }⟩ := rfl

/-- Done in place from `m'` on, `x` comes out as what was decided for `m`. -/
def Enacts (m m' : Machine size δ) (x : InPlace (Machine size δ) Transfer)
    (d : Except Fault Effect) : Prop :=
  m'.outcome x = m.enact d

namespace Enacts

variable {α : Type} {m m' : Machine size δ} {f : α → InPlace (Machine size δ) Transfer}
  {g : α → Except Fault Effect} {d : Except Fault Effect}

theorem get {f : Machine size δ → InPlace (Machine size δ) Transfer} (h : m.Enacts m' (f m') d) :
    m.Enacts m' (get >>= f) d :=
  h

theorem getSp {f : UInt8 → InPlace (Machine size δ) Transfer}
    (h : m.Enacts m' (f m'.processor.sp) d) : m.Enacts m' (getSp >>= f) d :=
  h

theorem setSp {f : Unit → InPlace (Machine size δ) Transfer} {sp : UInt8}
    (h : m.Enacts { m' with processor := { m'.processor with sp } } (f ()) d) :
    m.Enacts m' (setSp sp >>= f) d :=
  h

/-- A check can fail as long as nothing has changed. -/
theorem check {c : Except Fault α} (h : ∀ a, m.Enacts m (f a) (g a)) :
    m.Enacts m (liftExcept c >>= f) (c >>= g) := by
  cases c with
  | error fault => rfl
  | ok a => exact h a

theorem getRegister {f : UInt8 → InPlace (Machine size δ) Transfer}
    {g : UInt8 → Except Fault Effect} {r : UInt8} (h : ∀ value, m.Enacts m (f value) (g value)) :
    m.Enacts m (getRegister r >>= f) (m.processor.registers.get r >>= g) :=
  check h

theorem readCell {f : UInt8 → InPlace (Machine size δ) Transfer}
    {g : UInt8 → Except Fault Effect} {cell : UInt8} (h : ∀ value, m.Enacts m (f value) (g value)) :
    m.Enacts m (readCell cell >>= f) (m.memory.read cell.toUInt16 >>= g) :=
  check h

theorem onRegisters {x : InPlace Registers Unit} {f : Unit → InPlace (Machine size δ) Transfer}
    {c : Except Fault Registers} {g : Registers → Except Fault Effect} (hx : Atomic x)
    (hc : x.leaves m.processor.registers = c)
    (h : ∀ registers, m.Enacts { m with processor := { m.processor with registers } } (f ())
      (g registers)) : m.Enacts m (onRegisters x >>= f) (c >>= g) := by
  rw [Enacts, outcome, EStateM.run_bind, run_onRegisters hx, hc]
  cases c with
  | error fault => rfl
  | ok registers => exact h registers

/-- The cell is looked for before it is written. -/
theorem writeCell {f : Unit → InPlace (Machine size δ) Transfer} {g : Unit → Except Fault Effect}
    {cell value : UInt8}
    (h : m.Enacts { m with memory := m.memory.set cell.toNat value } (f ()) (g ())) :
    m.Enacts m (writeCell cell value >>= f) (m.memory.locate cell.toUInt16 >>= g) := by
  rw [Enacts, outcome, EStateM.run_bind, run_writeCell]
  cases m.memory.locate cell.toUInt16 with
  | error fault => rfl
  | ok _ => exact h

/-- The note comes last, when everything else has changed as decided. -/
theorem note {e : Effect} {text : Unit → Except Fault String} {t : Transfer}
    (hn : text = e.note) (ht : t = e.transfer) (hm : m' = m.commit e) (hp : e.prints = none) :
    m.Enacts m' (do note text; return t) (pure e) := by
  rw [Enacts, enact_pure, hp, hn, ht, outcome_note hm]
  rfl

theorem printLine {e : Effect} {text : Unit → Except Fault String} {t : Transfer} {value : UInt8}
    (hn : text = e.note) (ht : t = e.transfer) (hm : m = m.commit e) (hp : e.prints = some value) :
    m.Enacts m (do printLine value.toNat; Machine.note text; return t) (pure e) := by
  rw [Enacts, enact_pure, hp, Output.emit, outcome, EStateM.run_bind, run_printLine]
  rcases m.output.printLine value.toNat with ⟨failure | _, output⟩
  · rfl
  · have hcommit : { m with output } = commit { m with output } e :=
      congrArg (fun m : Machine size δ => { m with output }) hm
    rw [hn, ht]
    exact outcome_note hcommit

theorem branch (i : Instruction) (r : UInt8) (equal : Bool) :
    m.Enacts m
      (Instruction.handleBranch i.opcode r equal ⟨m.processor.pc + UInt16.ofNat i.size, true⟩)
      (i.branch m.processor r (m.processor.registers.flags.contains .equal == equal)) :=
  .getRegister fun _ => .get (.note rfl rfl rfl rfl)

end Enacts

/-- What an instruction does in place is its effect. -/
theorem enacts_handle (m : Machine size δ) (i : Instruction) :
    m.Enacts m i.handle (i.effect m.processor m.memory) := by
  cases i with
  | hlt => exact .get (.note rfl rfl rfl rfl)
  | ret => exact .get (.getSp (.readCell fun target => .getSp (.setSp (.note rfl rfl rfl rfl))))
  | push r =>
    exact .get (.getRegister fun value => .getSp (.writeCell (.setSp (.note rfl rfl rfl rfl))))
  | pop r =>
    refine .get (.getSp (.readCell fun value => ?_))
    refine .onRegisters (Registers.atomic_assign r value) rfl fun registers => ?_
    exact .getSp (.setSp (.note rfl rfl rfl rfl))
  | prn r => exact .get (.getRegister fun value => .printLine rfl rfl rfl rfl)
  | call r =>
    refine .get (.getRegister fun target => .check fun byte => ?_)
    exact .getSp (.writeCell (.setSp (.note rfl rfl rfl rfl)))
  | jmp r => exact .get (.getRegister fun target => .note rfl rfl rfl rfl)
  | jeq r =>
    have h := Enacts.branch (m := m) (.jeq r) r true
    rw [beq_true] at h
    exact .get h
  | jne r =>
    have h := Enacts.branch (m := m) (.jne r) r false
    rw [beq_false] at h
    exact .get h
  | ldi r value =>
    refine .get (.onRegisters (Registers.atomic_assign r value) rfl fun registers => ?_)
    exact .note rfl rfl rfl rfl
  | arith op a b =>
    refine .get (.check fun op => .onRegisters (op.atomic_operate a b) rfl fun registers => ?_)
    -- The note reads the registers as the operation has left them.
    exact .get (.note rfl rfl rfl rfl)

end Machine
end EightBit
