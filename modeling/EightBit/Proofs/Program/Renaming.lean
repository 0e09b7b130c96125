import EightBit.Proofs.Program.Subroutine
import Mathlib.Logic.Equiv.Defs

/-! Programs whose registers are renamed. No register is special: a program does the same under any
names, and leaves the same values under them. -/
namespace EightBit

/-- New names for the eight registers. -/
abbrev Renaming := Equiv.Perm (Fin 8)

variable {size : Nat} {s : Renaming}

namespace Registers

/-- The register that gets the name of `r` has the value of `r`. The flags have no names. -/
def renamed (rs : Registers) (s : Renaming) : Registers :=
  { rs with values := Vector.ofFn fun r => rs.values[s.symm r] }

/-- The new name of a register. A byte that names none stays as it is. -/
def rename (s : Renaming) (byte : UInt8) : UInt8 :=
  if h : byte.toNat < 8 then index (s ⟨byte.toNat, h⟩) else byte

variable {rs : Registers} {byte value : UInt8}

theorem get_index_renamed (rs : Registers) (s : Renaming) (r : Fin 8) :
    (rs.renamed s).get (index (s r)) = rs.get (index r) := by
  rw [get_index, get_index]
  simp [renamed]

/-- A byte names a register or none. -/
theorem eq_index_or_le (byte : UInt8) : (∃ r, byte = index r) ∨ 8 ≤ byte.toNat := by
  rcases Nat.lt_or_ge byte.toNat 8 with hlt | hge
  · refine .inl ⟨⟨byte.toNat, hlt⟩, ?_⟩
    simp [index]
  · exact .inr hge

theorem rename_index (s : Renaming) (r : Fin 8) : rename s (index r) = index (s r) := by
  have hlt : (index r).toNat < 8 := by
    rw [toNat_index]
    exact r.isLt
  have hname : (⟨(index r).toNat, hlt⟩ : Fin 8) = r := Fin.ext (toNat_index r)
  rw [rename, dif_pos hlt, hname]

theorem rename_of_le (h : 8 ≤ byte.toNat) : rename s byte = byte :=
  dif_neg (Nat.not_lt.mpr h)

/-- A renamed register reads as before, and a register that does not exist is missed as before. -/
theorem get_rename (rs : Registers) (s : Renaming) (byte : UInt8) :
    (rs.renamed s).get (rename s byte) = rs.get byte := by
  rcases eq_index_or_le byte with ⟨r, rfl⟩ | hge
  · rw [rename_index, get_index_renamed]
  · rw [rename_of_le hge, get_eq_error_iff.mpr ⟨hge, rfl⟩, get_eq_error_iff.mpr ⟨hge, rfl⟩]

theorem renamed_put (rs : Registers) (s : Renaming) (r : Fin 8) (value : UInt8) :
    (rs.put r value).renamed s = (rs.renamed s).put (s r) value := by
  have hread : ∀ (rs : Registers) (k : Fin 8), (rs.renamed s).values[k] = rs.values[s.symm k] := by
    intro rs k
    simp [renamed]
  have hvalues : ∀ k : Fin 8, ((rs.put r value).renamed s).values[k] =
      ((rs.renamed s).put (s r) value).values[k] := by
    intro k
    simp only [hread, values_put, Equiv.eq_symm_apply]
  rw [Registers.mk.injEq]
  refine ⟨?_, rfl⟩
  apply Vector.ext
  intro i hi
  exact hvalues ⟨i, hi⟩

/-- A value goes to the renamed register just as it goes to the register. -/
theorem set_rename (rs : Registers) (s : Renaming) (byte value : UInt8) :
    (rs.renamed s).set (rename s byte) value = (rs.set byte value).map (·.renamed s) := by
  rcases eq_index_or_le byte with ⟨r, rfl⟩ | hge
  · rw [rename_index, set_index, set_index, Except.map, renamed_put]
  · rw [rename_of_le hge, set_eq_error_iff.mpr ⟨hge, rfl⟩, set_eq_error_iff.mpr ⟨hge, rfl⟩]
    rfl

end Registers

open Registers

/-- Operations treat all registers alike, also if both operands are the same one. -/
theorem Operation.apply_rename (op : Operation) (rs : Registers) (s : Renaming) (a b : UInt8) :
    op.apply (rs.renamed s) (rename s a) (rename s b) = (op.apply rs a b).map (·.renamed s) := by
  simp only [apply_eq, get_rename]
  cases rs.get a with
  | error fault => rfl
  | ok x =>
    cases rs.get b with
    | error fault => rfl
    | ok y =>
      cases op with
      | add | mul => exact set_rename rs s a _
      | cmp => rfl

def Processor.renamed (p : Processor) (s : Renaming) : Processor :=
  { p with registers := p.registers.renamed s }

namespace Instruction

/-- Renames the operands that name registers. The value of a load is none of them. -/
def renamed (s : Renaming) : Instruction → Instruction
  | hlt => hlt
  | ret => ret
  | push r => push (rename s r)
  | pop r => pop (rename s r)
  | prn r => prn (rename s r)
  | call r => call (rename s r)
  | jmp r => jmp (rename s r)
  | jeq r => jeq (rename s r)
  | jne r => jne (rename s r)
  | ldi r value => ldi (rename s r) value
  | arith op a b => arith op (rename s a) (rename s b)

theorem instruction_renamed (o : Opcode) (a b : UInt8) (s : Renaming) :
    (o.instruction a b).renamed s =
      o.instruction (rename s a) (if o = .ldi then b else rename s b) := by
  cases o <;> rfl

/-- Two computations that meet the same fault, or whose effects agree, notes apart, once the
registers are renamed. -/
def SameEffect (s : Renaming) (x y : Except Fault Effect) : Prop :=
  ∃ note, y = x.map fun e => { e with registers := e.registers.renamed s, note }

theorem SameEffect.done (s : Renaming) (e : Effect) (note : Unit → Except Fault String) :
    SameEffect s (.ok e) (.ok { e with registers := e.registers.renamed s, note }) :=
  ⟨note, rfl⟩

/-- After a check that answers the same up to names, only the rest can differ. -/
theorem SameEffect.bind {α : Type} {x y : Except Fault α} {f g : α → Except Fault Effect}
    (φ : α → α) (hx : y = x.map φ) (h : ∀ a, SameEffect s (f a) (g (φ a))) :
    SameEffect s (x >>= f) (y >>= g) := by
  subst hx
  cases x with
  | error fault => exact ⟨fun _ => .error fault, rfl⟩
  | ok a => exact h a

theorem SameEffect.same {α : Type} {x y : Except Fault α} {f g : α → Except Fault Effect}
    (hx : y = x) (h : ∀ a, SameEffect s (f a) (g a)) : SameEffect s (x >>= f) (y >>= g) := by
  refine .bind id ?_ h
  subst hx
  cases y <;> rfl

theorem size_renamed (i : Instruction) (s : Renaming) : (i.renamed s).size = i.size := by
  cases i <;> rfl

theorem branch_renamed (i : Instruction) (p : Processor) (s : Renaming) (r : UInt8) (taken : Bool) :
    SameEffect s (i.branch p r taken)
      ((i.renamed s).branch (p.renamed s) (rename s r) taken) := by
  have hget : (p.renamed s).registers.get (rename s r) = p.registers.get r :=
    get_rename p.registers s r
  simp only [branch, passing, size_renamed, hget]
  cases p.registers.get r with
  | error fault => exact ⟨fun _ => .error fault, rfl⟩
  | ok target => exact .done _ _ _

/-- A renamed instruction passes and fails the same checks. But for the names in its note, its effect
is the same one on the renamed registers. -/
theorem effect_renamed (i : Instruction) (p : Processor) (memory : Memory size) (s : Renaming) :
    SameEffect s (i.effect p memory) ((i.renamed s).effect (p.renamed s) memory) := by
  have hget : ∀ r, (p.renamed s).registers.get (rename s r) = p.registers.get r :=
    get_rename p.registers s
  have hset := set_rename p.registers s
  cases i with
  | hlt => exact .done _ _ _
  | ret => exact .same rfl fun target => .done _ _ _
  | push r => exact .same (hget r) fun value => .same rfl fun _ => .done _ _ _
  | pop r => exact .same rfl fun value => .bind _ (hset r value) fun registers => .done _ _ _
  | prn r | jmp r => exact .same (hget r) fun value => .done _ _ _
  | call r =>
    exact .same (hget r) fun target => .same rfl fun byte => .same rfl fun _ => .done _ _ _
  | jeq r => exact branch_renamed (jeq r) p s r _
  | jne r => exact branch_renamed (jne r) p s r _
  | ldi r value => exact .bind _ (hset r value) fun registers => .done _ _ _
  | arith op a b =>
    exact .same rfl fun op => .bind _ (op.apply_rename p.registers s a b) fun registers =>
      .done _ _ _

end Instruction

namespace Machine

variable {δ : Type} [Device δ] {m : Machine size δ}

/-- The machine with renamed registers and any log. -/
def renamed (m : Machine size δ) (s : Renaming) (log : Log) : Machine size δ :=
  { m with processor := m.processor.renamed s, log }

/-- Where instructions lead that are performed one after the other, up to the first that fails or
halts. -/
def transfers (m : Machine size δ) : List Instruction → List (Except Fault Transfer)
  | [] => []
  | i :: is =>
    match m.perform i with
    | ⟨.ok t, m⟩ => .ok t :: if t.proceed then (m.advance t).transfers is else []
    | ⟨.error fault, _⟩ => [.error fault]

theorem perform_renamed (m : Machine size δ) (s : Renaming) (log : Log) (i : Instruction) :
    ∃ log', (m.renamed s log).perform (i.renamed s) =
      ⟨(m.perform i).result, (m.perform i).machine.renamed s log'⟩ := by
  obtain ⟨note, he'⟩ := i.effect_renamed m.processor m.memory s
  have he' : (i.renamed s).effect (m.renamed s log).processor (m.renamed s log).memory = _ := he'
  have houtput : (m.renamed s log).output = m.output := rfl
  cases he : i.effect m.processor m.memory with
  | error fault =>
    rw [he] at he'
    rw [perform_of_refusal he, perform_of_refusal he']
    exact ⟨log, rfl⟩
  | ok e =>
    rw [he] at he'
    rw [perform_of_effect he, perform_of_effect he', houtput]
    rcases m.output.emit e.prints with ⟨failure | _, output⟩
    · exact ⟨log, rfl⟩
    · obtain ⟨rest, hn⟩ := Instruction.note_of_effect he
      obtain ⟨rest', hn'⟩ := Instruction.note_of_effect he'
      simp only [complete_of_note hn, complete_of_note hn']
      exact ⟨_, rfl⟩

/-- Renamed instructions lead the renamed machine the same way, to the renamed end. -/
theorem performAll_renamed (m : Machine size δ) (s : Renaming) (log : Log)
    (is : List Instruction) : ∃ log',
      (m.renamed s log).transfers (is.map (·.renamed s)) = m.transfers is ∧
      (m.renamed s log).performAll (is.map (·.renamed s)) =
        ⟨(m.performAll is).result, (m.performAll is).machine.renamed s log'⟩ := by
  induction is generalizing m log with
  | nil => exact ⟨log, rfl, rfl⟩
  | cons i is ih =>
    obtain ⟨log', hfirst⟩ := perform_renamed m s log i
    rw [List.map_cons, transfers, transfers, performAll, performAll, hfirst]
    rcases m.perform i with ⟨fault | t, n⟩
    · exact ⟨log', rfl, rfl⟩
    · cases hp : t.proceed with
      | false =>
        simp only [hp]
        exact ⟨log', rfl, rfl⟩
      | true =>
        obtain ⟨log'', htransfers, hrest⟩ := ih (n.advance t) log'
        simp only [hp, if_true]
        exact ⟨log'', congrArg (Except.ok t :: ·) htransfers, hrest⟩

/-- A program under other names for the registers leads through the same steps to the same end. It
meets the same fault, if any, and leaves the same program counter, stack pointer, flags, memory and
output, and the same values in the registers under their new names. The second operand of a load is
the only one that is not a name. -/
theorem names_of_registers_do_not_matter (m : Machine size δ) (s : Renaming) (log : Log)
    (is : List (Opcode × UInt8 × UInt8)) : ∃ result n n',
      m.performAll (is.map fun (o, a, b) => o.instruction a b) = ⟨result, n⟩ ∧
      (m.renamed s log).performAll (is.map fun (o, a, b) =>
        o.instruction (rename s a) (if o = .ldi then b else rename s b)) = ⟨result, n'⟩ ∧
      (m.renamed s log).transfers (is.map fun (o, a, b) =>
          o.instruction (rename s a) (if o = .ldi then b else rename s b)) =
        m.transfers (is.map fun (o, a, b) => o.instruction a b) ∧
      n'.processor.pc = n.processor.pc ∧ n'.processor.sp = n.processor.sp ∧
      n'.processor.status = n.processor.status ∧
      n'.processor.registers.flags = n.processor.registers.flags ∧
      (∀ byte, n'.processor.registers.get (rename s byte) = n.processor.registers.get byte) ∧
      n'.memory = n.memory ∧ n'.output = n.output := by
  have hnames : (is.map fun (o, a, b) =>
      o.instruction (rename s a) (if o = .ldi then b else rename s b)) =
        (is.map fun (o, a, b) => o.instruction a b).map (·.renamed s) := by
    rw [List.map_map]
    apply List.map_congr_left
    rintro ⟨o, a, b⟩ _
    exact (Instruction.instruction_renamed o a b s).symm
  obtain ⟨log', htransfers, hrun⟩ :=
    performAll_renamed m s log (is.map fun (o, a, b) => o.instruction a b)
  rw [hnames]
  refine ⟨_, _, _, rfl, hrun, htransfers, rfl, rfl, rfl, rfl, ?_, rfl, rfl⟩
  intro byte
  exact get_rename _ s byte

end Machine
end EightBit
