import EightBit.Proofs.Machine.History
import EightBit.Proofs.Stack.Nesting
import Mathlib.Data.Nat.Init

/-! What an instruction takes off the stack, in terms of the instructions that put bytes there.
Pushed values go up in memory and return addresses go down, so the two kinds meet. -/
namespace EightBit

namespace Instruction

/-- What the instruction puts on the stack of a processor. -/
def stored? (i : Instruction) (p : Processor) : Option UInt16 :=
  match i with
  | push r => (p.registers.get r).toOption.map UInt8.toUInt16
  | call _ => some (p.pc + 2)
  | _ => none

/-- What the instruction has taken off the stack, as it stands in the processor afterwards. -/
def taken? (i : Instruction) (p : Processor) : Option UInt16 :=
  match i with
  | pop r => (p.registers.get r).toOption.map UInt8.toUInt16
  | ret => some p.pc
  | _ => none

variable {size : Nat} {p : Processor} {memory : Memory size} {i : Instruction} {e : Effect}

/-- Only openers store a byte, in the cell to which they move the stack pointer. -/
theorem store_of_performs (h : i.Performs p memory e) :
    (e.store = none ∧ i.opcode.closer? = none) ∨
    (∃ c, i.opcode.closer? = some c) ∧ ∃ byte, e.store = some (e.sp, byte) ∧
      e.sp.toNat < size ∧ i.stored? p = some byte.toUInt16 := by
  cases h with
  | push hr hs => exact .inr ⟨⟨_, rfl⟩, _, rfl, hs, by simp [stored?, hr, Except.toOption]⟩
  | call hr hb hs => exact .inr ⟨⟨_, rfl⟩, _, rfl, hs, by simp [stored?, hb]⟩
  | @arith op => cases op <;> exact .inl ⟨rfl, rfl⟩
  | _ => exact .inl ⟨rfl, rfl⟩

/-- A closer reads the cell at the stack pointer. -/
theorem taken_of_performs (h : i.Performs p memory e) (hc : i.opcode = .pop ∨ i.opcode = .ret) :
    ∃ byte, memory.get? p.sp.toNat = some byte ∧ ∀ q : Processor, q.registers = e.registers →
      q.pc = e.transfer.next → i.taken? q = some byte.toUInt16 := by
  cases h with
  | @ret target _ hm =>
    refine ⟨target, hm, ?_⟩
    intro q _ hq
    exact congrArg some hq
  | @pop r value registers _ hm hr =>
    refine ⟨value, hm, ?_⟩
    intro q hq _
    have hget : registers.get r = .ok value := by
      rw [Registers.get_set hr, if_pos rfl]
    have hreg : q.registers = registers := hq
    have ht : (q.registers.get r).toOption = some value := by
      rw [hreg, hget]
      rfl
    exact congrArg (Option.map UInt8.toUInt16) ht
  | @arith op => cases op <;> rcases hc with hc | hc <;> cases hc
  | _ => rcases hc with hc | hc <;> cases hc

/-- The stack pointer follows the pairs that are open. -/
theorem sp_of_performs (h : i.Performs p memory e) :
    (e.sp.toNat : Int) = (p.sp.toNat + Stack.height [i.opcode]) % 256 := by
  have hlt := p.sp.toNat_lt
  cases h with
  | ret | push | pop | call =>
    simp [opcode, Stack.height, Stack.openValues, Stack.openAddresses, UInt8.toNat_add,
      UInt8.toNat_sub] <;> omega
  | @arith op =>
    cases op <;> simp [opcode, Operation.opcode, Stack.height, Stack.openValues,
      Stack.openAddresses, passing] <;> omega
  | _ =>
    simp [opcode, Stack.height, Stack.openValues, Stack.openAddresses, passing]
    omega

end Instruction

namespace Machine

variable {size : Nat} {δ : Type}

/-- The opcode of the next step, if it is one that works on the stack. -/
def stackOpcode? (m : Machine size δ) : Option Opcode :=
  (m.instruction?.map Instruction.opcode).filter Opcode.isStack

/-- The next step puts something on the stack. -/
def Opens (m : Machine size δ) : Prop :=
  (m.stackOpcode?.bind Opcode.closer?).isSome = true

instance (m : Machine size δ) : Decidable m.Opens :=
  inferInstanceAs (Decidable (_ = true))

variable [Device δ]

/-- The stack opcodes of the steps from `a` up to `b`. -/
def stackWord (m : Machine size δ) (a b : Nat) : List Opcode :=
  (List.range' a (b - a)).filterMap fun k => (m.after k).stackOpcode?

/-- Step `a` opens a pair that step `b` closes. -/
structure Pair (m : Machine size δ) (a b : Nat) : Prop where
  lt : a < b
  closes : ∃ o c, (m.after a).stackOpcode? = some o ∧ (m.after b).stackOpcode? = some c ∧
    o.closer? = some c
  nested : ∃ d, Stack.Nested d (m.stackWord (a + 1) b)

/-- What step `a` puts on the stack. -/
def stores? (m : Machine size δ) (a : Nat) : Option UInt16 :=
  (m.after a).instruction?.bind fun i => i.stored? (m.after a).processor

/-- What step `b` takes off the stack. -/
def takes? (m : Machine size δ) (b : Nat) : Option UInt16 :=
  (m.after b).instruction?.bind fun i => i.taken? (m.after (b + 1)).processor

/-- What step `a` puts on the stack, step `b` takes off it. -/
def Hands (m : Machine size δ) (a b : Nat) : Prop :=
  ∃ x, m.stores? a = some x ∧ m.takes? b = some x

/-- Step `k` opens a pair, and then as many values as return addresses are open of those that came
after step `a`. -/
def Meets (m : Machine size δ) (a k : Nat) : Prop :=
  (m.after k).Opens ∧ Stack.openValues (m.stackWord (a + 1) (k + 1)) =
    Stack.openAddresses (m.stackWord (a + 1) (k + 1))

instance (m : Machine size δ) (a k : Nat) : Decidable (m.Meets a k) :=
  inferInstanceAs (Decidable (_ ∧ _))

variable {m : Machine size δ} {i : Instruction} {o c : Opcode} {a b k n : Nat}

theorem stackWord_self : m.stackWord a a = [] := by
  simp [stackWord]

theorem stackWord_succ (h : a ≤ b) : m.stackWord a (b + 1) =
    m.stackWord a b ++ (m.after b).stackOpcode?.toList := by
  have hb : b + 1 - a = (b - a) + 1 := by omega
  have ha : a + (b - a) = b := by omega
  rw [stackWord, hb, List.range'_concat, List.filterMap_append, stackWord, Nat.one_mul, ha,
    List.filterMap_cons, List.filterMap_nil]
  cases (m.after b).stackOpcode? <;> rfl

theorem stackWord_append (hab : a ≤ b) (hbc : b ≤ n) :
    m.stackWord a n = m.stackWord a b ++ m.stackWord b n := by
  induction n, hbc using Nat.le_induction with
  | base => simp [stackWord_self]
  | succ n hbn ih => rw [stackWord_succ (by omega), stackWord_succ hbn, ih, List.append_assoc]

omit [Device δ] in
theorem stackOpcode_of_instruction (hi : m.instruction? = some i) :
    m.stackOpcode? = if i.opcode.isStack then some i.opcode else none := by
  simp [stackOpcode?, hi, Option.filter_some]

omit [Device δ] in
theorem instruction_of_stackOpcode (h : m.stackOpcode? = some o) :
    ∃ i, m.instruction? = some i ∧ i.opcode = o := by
  simp only [stackOpcode?, Option.filter_eq_some_iff, Option.map_eq_some_iff] at h
  obtain ⟨⟨i, hi, ho⟩, _⟩ := h
  exact ⟨i, hi, ho⟩

omit [Device δ] in
theorem opens_iff : m.Opens ↔ ∃ o c, m.stackOpcode? = some o ∧ o.closer? = some c := by
  simp [Opens, Option.isSome_iff_exists, Option.bind_eq_some_iff, exists_comm]

omit [Device δ] in
theorem opens_of_closer (hi : m.instruction? = some i) (hc : i.opcode.closer? = some c) :
    m.Opens := by
  have hs : i.opcode.isStack = true := by cases ho : i.opcode <;> simp_all [Opcode.closer?] <;> rfl
  exact opens_iff.mpr ⟨i.opcode, c, by simp [stackOpcode_of_instruction hi, hs], hc⟩

theorem sp_step (h : m.step.result = .ok ()) : (m.step.machine.processor.sp.toNat : Int) =
    (m.processor.sp.toNat + Stack.height m.stackOpcode?.toList) % 256 := by
  have hlt := m.processor.sp.toNat_lt
  cases hi : m.instruction? with
  | none =>
    rw [step_of_no_instruction h hi]
    simp [stackOpcode?, hi, Stack.height, Stack.openValues, Stack.openAddresses]
    omega
  | some i =>
    obtain ⟨e, output, text, hp, hm⟩ := performs_of_instruction h hi
    have hsp := Instruction.sp_of_performs hp
    rw [hm, stackOpcode_of_instruction hi]
    cases ho : i.opcode <;> simpa [completed, ho, Opcode.isStack, Stack.height, Stack.openValues,
      Stack.openAddresses] using hsp

/-- A step changes at most the cell to which an opener moves the stack pointer. -/
theorem get?_step_of_not_stored (h : m.step.result = .ok ()) {cell : Nat}
    (hn : m.Opens → m.step.machine.processor.sp.toNat ≠ cell) :
    m.step.machine.memory.get? cell = m.memory.get? cell := by
  cases hi : m.instruction? with
  | none => rw [step_of_no_instruction h hi]
  | some i =>
    obtain ⟨e, output, text, hp, hm⟩ := performs_of_instruction h hi
    rw [hm] at hn ⊢
    rcases Instruction.store_of_performs hp with ⟨hs, _⟩ | ⟨⟨c, hc⟩, byte, hs, _⟩
    · simp [completed, memory_commit, hs]
    · have hcell : e.sp.toNat ≠ cell := hn (opens_of_closer hi hc)
      simp [completed, memory_commit, hs, hcell]

/-- An opener leaves the byte that it stores at the stack pointer. -/
theorem get?_step_of_opens (h : m.step.result = .ok ()) (ho : m.Opens) :
    ∃ i byte, m.instruction? = some i ∧ i.stored? m.processor = some byte.toUInt16 ∧
      m.step.machine.memory.get? m.step.machine.processor.sp.toNat = some byte := by
  obtain ⟨o, c, ho, hc⟩ := opens_iff.mp ho
  obtain ⟨i, hi, rfl⟩ := instruction_of_stackOpcode ho
  obtain ⟨e, output, text, hp, hm⟩ := performs_of_instruction h hi
  rcases Instruction.store_of_performs hp with ⟨_, hn⟩ | ⟨_, byte, hs, hlt, hb⟩
  · rw [hn] at hc
    cases hc
  · exact ⟨i, byte, hi, hb, by simp [hm, completed, memory_commit, hs, hlt]⟩

/-- A closer takes the byte at the stack pointer. -/
theorem taken_step_of_closes (h : m.step.result = .ok ())
    (hc : m.stackOpcode? = some .pop ∨ m.stackOpcode? = some .ret) :
    ∃ i byte, m.instruction? = some i ∧ i.taken? m.step.machine.processor = some byte.toUInt16 ∧
      m.memory.get? m.processor.sp.toNat = some byte := by
  have hi : ∃ i, m.instruction? = some i ∧ (i.opcode = .pop ∨ i.opcode = .ret) := by
    rcases hc with hc | hc <;> obtain ⟨i, hi, ho⟩ := instruction_of_stackOpcode hc
    · exact ⟨i, hi, .inl ho⟩
    · exact ⟨i, hi, .inr ho⟩
  obtain ⟨i, hi, ho⟩ := hi
  obtain ⟨e, output, text, hp, hm⟩ := performs_of_instruction h hi
  obtain ⟨byte, hb, ht⟩ := Instruction.taken_of_performs hp ho
  exact ⟨i, byte, hi, by rw [hm]; exact ht _ rfl rfl, hb⟩

theorem sp_after (h : m.Succeeds n) (hab : a ≤ b) (hbn : b ≤ n) :
    ((m.after b).processor.sp.toNat : Int) =
      ((m.after a).processor.sp.toNat + Stack.height (m.stackWord a b)) % 256 := by
  induction b, hab using Nat.le_induction with
  | base =>
    have hlt := (m.after a).processor.sp.toNat_lt
    simp [stackWord_self, Stack.height, Stack.openValues, Stack.openAddresses]
    omega
  | succ b hab ih =>
    have hstep := sp_step (h b (by omega))
    have hbefore := ih (by omega)
    rw [stackWord_succ hab, Stack.height_append, after]
    omega

/-- A cell keeps its byte while no opener moves the stack pointer to it. -/
theorem get?_after_of_not_stored (h : m.Succeeds n) {cell : Nat} (hab : a ≤ b) (hbn : b ≤ n)
    (hn : ∀ k, a ≤ k → k < b → (m.after k).Opens →
      (m.after (k + 1)).processor.sp.toNat ≠ cell) :
    (m.after b).memory.get? cell = (m.after a).memory.get? cell := by
  induction b, hab using Nat.le_induction with
  | base => rfl
  | succ b hab ih =>
    have hstep := get?_step_of_not_stored (h b (by omega)) (hn b hab (by omega))
    have hbefore := ih (by omega) fun k hak hkb => hn k hak (by omega)
    rw [after, hstep, hbefore]

/-- Between the two steps of a pair the stack pointer comes back to where the opener left it. -/
theorem sp_eq_of_pair (h : m.Succeeds n) (hp : m.Pair a b) (hbn : b < n) :
    (m.after b).processor.sp = (m.after (a + 1)).processor.sp := by
  obtain ⟨d, hd⟩ := hp.nested
  have hlt := (m.after (a + 1)).processor.sp.toNat_lt
  have hsp := sp_after h (show a + 1 ≤ b from hp.lt) (by omega)
  rw [Stack.height_eq_zero hd] at hsp
  apply UInt8.toNat_inj.mp
  omega

theorem sp_after_pair (h : m.Succeeds n) (hp : m.Pair a b) (hbn : b < n) :
    (m.after (b + 1)).processor.sp = (m.after a).processor.sp := by
  obtain ⟨o, c, ho, hc, hoc⟩ := hp.closes
  obtain ⟨hv, ha, _⟩ := Stack.open_pair hoc
  have hlt := (m.after a).processor.sp.toNat_lt
  have hfirst := sp_step (h a (by have := hp.lt; omega))
  have hlast := sp_step (h b hbn)
  rw [ho] at hfirst
  rw [hc, sp_eq_of_pair h hp hbn] at hlast
  simp only [Option.toList_some, Stack.height] at hfirst hlast
  apply UInt8.toNat_inj.mp
  rw [after]
  rw [after] at hlast
  omega

/-- The closer of a pair takes what the last opener has put where the opener of the pair left the
stack pointer. -/
theorem hands_of_last {j : Nat} (h : m.Succeeds n) (hp : m.Pair a b) (hbn : b < n) (hjb : j < b)
    (ho : (m.after j).Opens)
    (hsp : (m.after (j + 1)).processor.sp = (m.after (a + 1)).processor.sp)
    (hlast : ∀ k, j < k → k < b → (m.after k).Opens →
      (m.after (k + 1)).processor.sp ≠ (m.after (a + 1)).processor.sp) : m.Hands j b := by
  obtain ⟨o, c, _, hc, hoc⟩ := hp.closes
  obtain ⟨i, byte, hi, hs, hget⟩ := get?_step_of_opens (h j (by omega)) ho
  have hcloses : (m.after b).stackOpcode? = some .pop ∨ (m.after b).stackOpcode? = some .ret := by
    cases o <;> cases hoc <;> simp [hc]
  obtain ⟨i', byte', hi', ht, hget'⟩ := taken_step_of_closes (h b hbn) hcloses
  have hkeep : (m.after b).memory.get? (m.after b).processor.sp.toNat =
      (m.after (j + 1)).memory.get? (m.after b).processor.sp.toNat := by
    refine get?_after_of_not_stored h (show j + 1 ≤ b from hjb) (by omega) ?_
    intro k hjk hkb hok heq
    apply hlast k (by omega) hkb hok
    rw [← sp_eq_of_pair h hp hbn]
    exact UInt8.toNat_inj.mp heq
  have hcell : (m.after (j + 1)).processor.sp = (m.after b).processor.sp := by
    rw [hsp, sp_eq_of_pair h hp hbn]
  have hbyte : byte' = byte := by
    rw [hkeep, ← hcell, after, hget] at hget'
    exact (Option.some.inj hget').symm
  refine ⟨byte.toUInt16, by simp [stores?, hi, hs], ?_⟩
  simp [takes?, hi', after, ht, hbyte]

end Machine
end EightBit
