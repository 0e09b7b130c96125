import EightBit.Proofs.Machine.Fetching
import EightBit.Proofs.Machine.Journal

/-! The line that a step writes before it fetches, and the bytes that it fetches then. The line
shows the cells behind the program counter, also where the addresses of operands wrap around. -/
namespace EightBit

/-- What stands between the blanks of a text. -/
def words (text : String) : List String :=
  (text.toList.splitOn ' ').map String.ofList

theorem words_intercalate {ws : List String} (hne : ws ≠ []) (h : ∀ w ∈ ws, ' ' ∉ w.toList) :
    words (String.intercalate " " ws) = ws :=
  pieces_intercalate hne h

namespace Processor

variable {size : Nat}

/-- The `k`-th byte column of a trace line. The heading, the program counter and a bar stand before
the first one. -/
def column? (line : String) (k : Nat) : Option String :=
  (words line)[3 + k]?

/-- A column shows the byte that is read, or dashes exactly if its address does not exist. -/
def Shows (line : String) (k : Nat) (x : Except Fault UInt8) : Prop :=
  (∀ value, x = .ok value → column? line k = some (hexUpper value.toNat)) ∧
  (column? line k = some "--" ↔ ∃ a, x = .error (.noSuchAddress a))

variable {p : Processor} {memory : Memory size} {line : String} {k : Nat}

theorem hexUpper_ne_dashes (n : Nat) : hexUpper n ≠ "--" := by
  intro h
  have hdash : '-' ∈ (hexUpper n).toList := h ▸ by decide
  cases isAlphanum_of_mem_hexUpper hdash

theorem blank_not_mem_hexUpper (n : Nat) : ' ' ∉ (hexUpper n).toList := by
  intro h
  cases isAlphanum_of_mem_hexUpper h

theorem blank_not_mem_cellText (memory : Memory size) (i : Nat) :
    ' ' ∉ (cellText memory i).toList := by
  unfold cellText
  split
  · exact blank_not_mem_hexUpper _
  · decide

/-- The text of a cell shows what is read from it. -/
theorem shows_of_column {a : UInt16} (h : column? line k = some (cellText memory a.toNat)) :
    Shows line k (memory.read a) := by
  unfold Shows
  rw [h]
  cases hcell : memory.get? a.toNat with
  | some value =>
    have hread : memory.read a = .ok value := Memory.read_eq_ok_iff.mpr hcell
    simp [cellText, hcell, hread, hexUpper_ne_dashes]
  | none =>
    have hread : memory.read a = .error (.noSuchAddress a.toNat) :=
      Memory.read_eq_error_iff.mpr ⟨Memory.get?_eq_none_iff.mp hcell, rfl⟩
    simp [cellText, hcell, hread]

theorem traceText_eq (p : Processor) (memory : Memory size) : p.traceText memory =
    String.intercalate " " (["TRACE:", hexUpper p.pc.toNat, "|", cellText memory p.pc.toNat,
      cellText memory (p.pc.toNat + 1), cellText memory (p.pc.toNat + 2), "|"] ++
        p.registers.values.toList.map fun value => hexUpper value.toNat) := by
  obtain ⟨value, values, hvalues⟩ : ∃ value values, p.registers.values.toList = value :: values :=
    List.exists_cons_of_ne_nil (by simp)
  have hheading : "TRACE: " = "TRACE:" ++ " " := rfl
  have hbar : " | " = " " ++ ("|" ++ " ") := rfl
  rw [traceText, Registers.text, hvalues]
  simp only [List.map_cons, List.map_nil, List.cons_append, List.nil_append, Nat.add_zero,
    String.intercalate_cons_cons, String.intercalate_singleton, String.append_assoc, hheading,
    hbar]

theorem words_traceText (p : Processor) (memory : Memory size) : words (p.traceText memory) =
    ["TRACE:", hexUpper p.pc.toNat, "|", cellText memory p.pc.toNat,
      cellText memory (p.pc.toNat + 1), cellText memory (p.pc.toNat + 2), "|"] ++
        p.registers.values.toList.map fun value => hexUpper value.toNat := by
  rw [traceText_eq]
  refine words_intercalate (by simp) fun w hw => ?_
  rcases List.mem_append.mp hw with hw | hw
  · have hheading : ' ' ∉ "TRACE:".toList := by decide
    have hbar : ' ' ∉ "|".toList := by decide
    simp only [List.mem_cons, List.not_mem_nil, or_false] at hw
    rcases hw with rfl | rfl | rfl | rfl | rfl | rfl | rfl
    · exact hheading
    · exact blank_not_mem_hexUpper _
    · exact hbar
    · exact blank_not_mem_cellText _ _
    · exact blank_not_mem_cellText _ _
    · exact blank_not_mem_cellText _ _
    · exact hbar
  · obtain ⟨value, _, rfl⟩ := List.mem_map.mp hw
    exact blank_not_mem_hexUpper _

/-- The columns show the cells from the program counter on. -/
theorem column?_traceText (p : Processor) (memory : Memory size) (hk : k < 3) :
    column? (p.traceText memory) k = some (cellText memory (p.pc.toNat + k)) := by
  rw [column?, words_traceText]
  obtain rfl | rfl | rfl : k = 0 ∨ k = 1 ∨ k = 2 := by omega
  · rfl
  · rfl
  · rfl

theorem toNat_add_of_lt (h : p.pc.toNat + k < 65536) :
    (p.pc + UInt16.ofNat k).toNat = p.pc.toNat + k := by
  rw [UInt16.toNat_add, UInt16.toNat_ofNat']
  omega

theorem shows_opcode (p : Processor) (memory : Memory size) :
    Shows (p.traceText memory) 0 (memory.read p.pc) :=
  shows_of_column (column?_traceText p memory (by decide))

/-- As long as its address does not wrap around, an operand is shown as it is fetched. -/
theorem shows_operand {o : Opcode} (hk : k ≤ o.operandCount) (h : p.pc.toNat + k < 65536) :
    Shows (p.traceText memory) k (p.fetchOperand memory o k) := by
  have hcount := o.operandCount_le_two
  rw [fetchOperand, if_pos hk]
  apply shows_of_column
  rw [toNat_add_of_lt h]
  exact column?_traceText p memory (by omega)

/-- An operand whose address wraps around is fetched from the first cells. -/
theorem fetchOperand_of_wrap {o : Opcode} (hk : k ≤ o.operandCount) (h : 65536 ≤ p.pc.toNat + k) :
    p.fetchOperand memory o k = memory.read (UInt16.ofNat (p.pc.toNat + k - 65536)) := by
  have hcount := o.operandCount_le_two
  have hpc := p.pc.toNat_lt
  have haddress : p.pc + UInt16.ofNat k = UInt16.ofNat (p.pc.toNat + k - 65536) := by
    apply UInt16.toNat_inj.mp
    rw [UInt16.toNat_add, UInt16.toNat_ofNat', UInt16.toNat_ofNat']
    omega
  rw [fetchOperand, if_pos hk, haddress]

/-- The bytes of an instruction that is fetched stand in the columns, as long as their addresses do
not wrap around. -/
theorem column?_of_fetch {i : Instruction} {byte : UInt8} (hf : p.fetch memory = .ok i)
    (hb : i.encode[k]? = some byte) (h : p.pc.toNat + k < 65536) :
    column? (p.traceText memory) k = some (hexUpper byte.toNat) := by
  obtain ⟨o, a, b, hcode, hfirst, hsecond, rfl⟩ := fetch_eq_ok_iff.mp hf
  rw [Instruction.encode_instruction] at hb
  match k with
  | 0 =>
    obtain rfl := Option.some.inj hb
    exact (shows_opcode p memory).1 _ (Memory.read_eq_ok_iff.mpr hcode)
  | k + 1 =>
    rw [List.getElem?_cons_succ, List.getElem?_take] at hb
    split at hb
    next hk =>
      apply (shows_operand (Nat.succ_le_of_lt hk) h).1
      match k with
      | 0 =>
        obtain rfl := Option.some.inj hb
        exact hfirst
      | 1 =>
        obtain rfl := Option.some.inj hb
        exact hsecond
    next => cases hb

end Processor

namespace Machine

variable {size : Nat} {δ : Type} [Device δ] {m : Machine size δ}

/-- Among the entries of a step, the first one and no other is its trace line. -/
theorem trace_logged (hr : m.isRunning = true) (hv : m.log.verbosity = .upTo .trace) :
    ∃ rest, m.step.machine.log.entries.toList = m.log.entries.toList ++ m.traceEntry :: rest ∧
      ∀ e ∈ rest, e.level ≠ .trace := by
  obtain ⟨block, hblock, hentries⟩ := logs_step hr hv
  cases hblock with
  | success => exact ⟨_, hentries, by simp⟩
  | failure => exact ⟨_, hentries, by simp [faultEntry]⟩

/-- The trace line of a step shows the byte that is fetched for the opcode, and dashes exactly if
that fetch fails. If there is an opcode, the columns behind it show its operands in the same way,
and the bytes of the instruction that is performed, but for operands whose addresses wrap around.
These are fetched from the first cells, while their columns show the cells that follow, or dashes
at the end of the memory. -/
theorem trace_shows_fetched_bytes (hr : m.isRunning = true)
    (hv : m.log.verbosity = .upTo .trace) : ∃ line rest,
      m.step.machine.log.entries.toList =
        m.log.entries.toList ++ ⟨.trace, .processor, line⟩ :: rest ∧
      (∀ e ∈ rest, e.level ≠ .trace) ∧
      Processor.Shows line 0 (m.memory.read m.processor.pc) ∧
      (∀ o : Opcode, m.memory.get? m.processor.pc.toNat = some o.code →
        ∀ k, 1 ≤ k → k ≤ o.operandCount →
          (m.processor.pc.toNat + k < 65536 →
            Processor.Shows line k (m.processor.fetchOperand m.memory o k)) ∧
          (65536 ≤ m.processor.pc.toNat + k →
            Processor.column? line k =
              some (Processor.cellText m.memory (m.processor.pc.toNat + k)) ∧
            m.processor.fetchOperand m.memory o k =
              m.memory.read (UInt16.ofNat (m.processor.pc.toNat + k - 65536)))) ∧
      ∀ i, m.instruction? = some i → ∀ k byte, i.encode[k]? = some byte →
        m.processor.pc.toNat + k < 65536 →
        Processor.column? line k = some (hexUpper byte.toNat) := by
  obtain ⟨rest, hentries, hrest⟩ := trace_logged hr hv
  refine ⟨_, rest, hentries, hrest, Processor.shows_opcode _ _, ?_, ?_⟩
  · intro o _ k _ hk
    have hcount := o.operandCount_le_two
    refine ⟨Processor.shows_operand hk, fun hwrap => ⟨?_, Processor.fetchOperand_of_wrap hk hwrap⟩⟩
    exact Processor.column?_traceText _ _ (by omega)
  · intro i hi k byte hbyte hk
    exact Processor.column?_of_fetch (fetch_of_instruction? hi).2 hbyte hk

/-- Loads an immediate into a register, but the memory ends before the immediate. -/
def cutLoader : Machine 2 Unlimited where
  processor := .startingAt 0
  memory := ⟨#v[0x82, 5]⟩
  output := ⟨.device, ""⟩
  log := .empty (.upTo .trace)

theorem cutLoader_shows_cells :
    cutLoader.isRunning = true ∧ cutLoader.log.verbosity = .upTo .trace ∧
    cutLoader.memory.get? 0 = some Opcode.ldi.code ∧ ∃ line rest,
      cutLoader.step.machine.log.entries.toList = ⟨.trace, .processor, line⟩ :: rest ∧
      Processor.column? line 0 = some "82" ∧ Processor.column? line 1 = some "05" ∧
      Processor.column? line 2 = some "--" := by
  obtain ⟨line, rest, hentries, _, hopcode, hoperands, _⟩ :=
    trace_shows_fetched_bytes (m := cutLoader) rfl rfl
  obtain ⟨hfirst, _⟩ := hoperands .ldi rfl 1 (by decide) (by decide)
  obtain ⟨hsecond, _⟩ := hoperands .ldi rfl 2 (by decide) (by decide)
  exact ⟨rfl, rfl, rfl, line, rest, hentries, hopcode.1 0x82 rfl, (hfirst (by decide)).1 5 rfl,
    (hsecond (by decide)).2.mpr ⟨2, rfl⟩⟩

/-- Prints a register from the last address of all, so that the register is named by the first
cell. -/
def edgePrinter : Machine 65536 Unlimited where
  processor := .startingAt 65535
  memory := Memory.zero.set 65535 0x47
  output := ⟨.device, ""⟩
  log := .empty (.upTo .trace)

/-- The operand of the last cell is fetched, but not shown. -/
theorem column_hides_wrapped_operand :
    edgePrinter.isRunning = true ∧ edgePrinter.memory.get? 65535 = some Opcode.prn.code ∧
    ¬ ∀ line rest, edgePrinter.step.machine.log.entries.toList = ⟨.trace, .processor, line⟩ :: rest →
      ∀ k, 1 ≤ k → k ≤ Opcode.prn.operandCount →
        Processor.Shows line k
          (edgePrinter.processor.fetchOperand edgePrinter.memory .prn k) := by
  have hcode : edgePrinter.memory.get? 65535 = some Opcode.prn.code := by
    simp [edgePrinter, Opcode.code]
  refine ⟨rfl, hcode, ?_⟩
  intro h
  obtain ⟨rest, hentries, _⟩ := trace_logged (m := edgePrinter) rfl rfl
  have hread : edgePrinter.processor.fetchOperand edgePrinter.memory .prn 1 = .ok 0 := by
    have hcell : edgePrinter.memory.get? 0 = some 0 := by simp [edgePrinter, Memory.zero]
    rw [Processor.fetchOperand_of_wrap (by decide) (by decide)]
    exact Memory.read_eq_ok_iff.mpr hcell
  have hshown := (h _ rest hentries 1 (by decide) (by decide)).1 0 hread
  have hcolumn := Processor.column?_traceText edgePrinter.processor edgePrinter.memory
    (show 1 < 3 by decide)
  have hend : edgePrinter.memory.get? 65536 = none := Memory.get?_eq_none_iff.mpr (Nat.le_refl _)
  have hdashes : Processor.cellText edgePrinter.memory 65536 = "--" := by
    simp only [Processor.cellText, hend]
  have hsame : "--" = hexUpper 0 := Option.some.inj ((hdashes ▸ hcolumn.symm).trans hshown)
  exact Processor.hexUpper_ne_dashes 0 hsame.symm

end Machine
end EightBit
