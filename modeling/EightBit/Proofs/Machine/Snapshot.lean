import EightBit.Proofs.Machine.Tracing

/-! Reading trace lines. A line tells all that it shows, so that two states have the same line only
if they agree on it. -/
namespace EightBit

variable {size size' : Nat} {p p' : Processor} {memory : Memory size} {memory' : Memory size'}

/-- What a trace line shows: the program counter, the cells from there on as far as they exist, and
the registers. -/
structure Snapshot where
  pc : UInt16
  cells : List (Option UInt8)
  values : List UInt8
  deriving DecidableEq

namespace Snapshot

open Processor

/-- Dashes stand for a cell that does not exist. -/
def readCell (column : String) : Option UInt8 :=
  if column = "--" then none else some (UInt8.ofNat (hexNumber column))

/-- Reads a trace line word by word. The heading and the two bars tell nothing. -/
def read (line : String) : Snapshot :=
  let ws := words line
  { pc := UInt16.ofNat (hexNumber (ws.getD 1 ""))
    cells := ((ws.drop 3).take 3).map readCell
    values := (ws.drop 7).map fun w => UInt8.ofNat (hexNumber w) }

theorem ofNat_hexNumber_hexUpper (byte : UInt8) :
    UInt8.ofNat (hexNumber (hexUpper byte.toNat)) = byte := by
  rw [hexNumber_hexUpper, UInt8.ofNat_toNat]

theorem readCell_cellText (memory : Memory size) (i : Nat) :
    readCell (cellText memory i) = memory.get? i := by
  unfold cellText readCell
  cases memory.get? i with
  | none => exact if_pos rfl
  | some value =>
    simp only [if_neg (hexUpper_ne_dashes value.toNat), ofNat_hexNumber_hexUpper]

/-- The words of a trace line are read as what they were written for. -/
theorem read_traceText (p : Processor) (memory : Memory size) :
    read (p.traceText memory) =
      ⟨p.pc, [memory.get? p.pc.toNat, memory.get? (p.pc.toNat + 1),
        memory.get? (p.pc.toNat + 2)], p.registers.values.toList⟩ := by
  have hvalues : (p.registers.values.toList.map fun value => hexUpper value.toNat).map
      (fun w => UInt8.ofNat (hexNumber w)) = p.registers.values.toList := by
    simp [Function.comp_def, ofNat_hexNumber_hexUpper]
  have hpc : UInt16.ofNat (hexNumber (hexUpper p.pc.toNat)) = p.pc := by
    rw [hexNumber_hexUpper, UInt16.ofNat_toNat]
  rw [read, words_traceText]
  simp only [List.cons_append, List.nil_append, List.getD_cons_succ, List.getD_cons_zero,
    List.drop_succ_cons, List.drop_zero, List.take_succ_cons, List.take_zero, List.map_cons,
    List.map_nil, readCell_cellText, hpc, hvalues]

/-- What a line shows is all that it depends on. -/
theorem traceText_congr (hpc : p.pc = p'.pc) (hvalues : p.registers.values = p'.registers.values)
    (hcells : ∀ k < 3, memory.get? (p.pc.toNat + k) = memory'.get? (p'.pc.toNat + k)) :
    p.traceText memory = p'.traceText memory' := by
  have hshown : ([0, 1, 2].map fun k => cellText memory (p.pc.toNat + k)) =
      [0, 1, 2].map fun k => cellText memory' (p'.pc.toNat + k) := by
    apply List.map_congr_left
    intro k hk
    have hlt : k < 3 := List.mem_range.mp hk
    simp only [cellText, hcells k hlt]
  simp only [traceText, hshown, Registers.text, hvalues, ← hpc]

/-- A trace line can be read back, and so it is the line of two states just if they have the same
program counter and the same registers, and the three cells from there on agree in what they hold
and in whether they exist. -/
theorem traceText_tells_what_it_shows (p : Processor) (memory : Memory size) (p' : Processor)
    (memory' : Memory size') :
    read (p.traceText memory) =
      ⟨p.pc, [memory.get? p.pc.toNat, memory.get? (p.pc.toNat + 1),
        memory.get? (p.pc.toNat + 2)], p.registers.values.toList⟩ ∧
    (p.traceText memory = p'.traceText memory' ↔
      p.pc = p'.pc ∧ p.registers.values = p'.registers.values ∧
      ∀ k < 3, memory.get? (p.pc.toNat + k) = memory'.get? (p'.pc.toNat + k)) := by
  refine ⟨read_traceText p memory, ?_, ?_⟩
  · intro h
    have hread := read_traceText p memory
    rw [h, read_traceText p' memory'] at hread
    simp only [Snapshot.mk.injEq, List.cons.injEq, and_true] at hread
    obtain ⟨hpc, ⟨h0, h1, h2⟩, hvalues⟩ := hread
    refine ⟨hpc.symm, Vector.toList_inj.mp hvalues.symm, ?_⟩
    intro k hk
    obtain rfl | rfl | rfl : k = 0 ∨ k = 1 ∨ k = 2 := by omega
    · exact h0.symm
    · exact h1.symm
    · exact h2.symm
  · rintro ⟨hpc, hvalues, hcells⟩
    exact traceText_congr hpc hvalues hcells

end Snapshot
end EightBit
