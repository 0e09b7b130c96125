import EightBit.Proofs.Machine.Truncation
import EightBit.Proofs.Numeral
import EightBit.Text.Lines

/-! What a run prints: a line for each value, from which the values can be read again. How a device
divides the text into pieces makes no difference. -/
namespace EightBit

open Output

/-- Without a limit to its room, a device refuses nothing, however small its pieces are. -/
theorem Limited.takesAll_of_no_limit {d : Limited} (hroom : d.room = none) (hchunk : 1 ≤ d.chunk) :
    TakesAll d := by
  refine ⟨fun e => e = d, rfl, ?_⟩
  rintro e text rfl ht
  have hpos := List.length_pos_iff.mpr ht
  refine ⟨min text.length e.chunk - 1, e, ?_, rfl⟩
  have hk : min text.length e.chunk - 1 + 1 = min text.length e.chunk := by omega
  rw [hk]
  show e.write text = _
  rw [Limited.write, hroom]

/-- Each number comes back as a line of its own. -/
theorem Text.lines_flatMap_lineOf (ns : List Nat) :
    lines (ns.flatMap lineOf) = ns.map fun n => (decimal n).toList := by
  induction ns with
  | nil => rfl
  | cons n ns ih =>
    have hfeed : '\n' ∉ (decimal n).toList := by
      intro h
      cases isDigit_of_mem_decimal h
    have hreturn : endLine (decimal n).toList.reverse = (decimal n).toList := by
      unfold endLine
      split
      next cs h =>
        have hmem : '\r' ∈ (decimal n).toList := List.mem_reverse.mp (h ▸ List.mem_cons_self)
        cases isDigit_of_mem_decimal hmem
      next => rw [List.reverse_reverse]
    rw [List.flatMap_cons, lineOf, List.append_assoc, List.singleton_append,
      lines_append_newline hfeed, hreturn, ih, List.map_cons]

namespace Machine

variable {size : Nat} {δ ε : Type} [Device δ] [Device ε] {m : Machine size δ}
  {m' : Machine size ε}

/-- The value that the next step prints with success. -/
def printedValue? (m : Machine size δ) : Option UInt8 :=
  match m.executed? with
  | some (.prn r) => (m.processor.registers.get r).toOption
  | _ => none

/-- The values that the first `n` steps print with success, in order. -/
def printedValues (m : Machine size δ) (n : Nat) : List UInt8 :=
  (List.range n).filterMap fun k => (m.after k).printedValue?

/-- A device that refuses nothing prints every value that it is offered. -/
theorem prints?_of_takesAll (h : TakesAll m.output.device) : m.prints? = m.printedValue? := by
  cases hres : m.step.result with
  | ok _ =>
    have hsame : m.executed? = m.instruction? := by simp only [executed?, hres]
    unfold prints? printedValue?
    generalize m.executed? = next at hsame ⊢
    subst hsame
    rfl
  | error fault =>
    have hr := isRunning_iff.mp (isRunning_of_error hres)
    have hnone : m.printedValue? = none := by simp only [printedValue?, executed?, hres]
    rw [hnone]
    have hs := stepped_step hr
    generalize m.step = outcome at hs hres
    cases hs with
    | unfetched hf => exact prints?_of_no_instruction (by simp [instruction?, hf, Except.toOption])
    | refused hf he => exact prints?_of_refusal (instruction?_of_fetch hr hf) he
    | @unprinted i e failure output hf he ho =>
      obtain ⟨d, hd, _⟩ := emit_of_takesAll h m.output.printed e.prints
      cases ho.symm.trans hd
    | done => cases hres

theorem printedValues_succ (m : Machine size δ) (n : Nat) :
    m.printedValues (n + 1) = m.printedValues n ++ (m.after n).printedValue?.toList :=
  filterMap_range_succ _ n

/-- What is offered to a device that refuses nothing is a line for each value. -/
theorem offers_of_takesAll (h : TakesAll m.output.device) (n : Nat) :
    m.offers n = ((m.printedValues n).map UInt8.toNat).flatMap lineOf := by
  induction n with
  | zero => rfl
  | succ n ih =>
    rw [offers_succ, printedValues_succ, ih, offer,
      prints?_of_takesAll (printed_after_of_takesAll h n).1, List.map_append, List.flatMap_append]
    cases (m.after n).printedValue? with
    | none => rfl
    | some value => simp [offered]

/-- Machines that are alike stay alike while their devices refuse nothing. -/
theorem Alike.after_of_takesAll (h : m.Alike m') (hall : TakesAll m.output.device)
    (hall' : TakesAll m'.output.device) (n : Nat) : (m.after n).Alike (m'.after n) := by
  induction n with
  | zero => exact h
  | succ n ih =>
    obtain ⟨d, hd, _⟩ := emit_of_takesAll (printed_after_of_takesAll hall n).1
      (m.after n).output.printed (m.after n).prints?
    obtain ⟨d', hd', _⟩ := emit_of_takesAll (printed_after_of_takesAll hall' n).1
      (m'.after n).output.printed (m.after n).prints?
    refine (ih.step ?_ ?_).2
    · rw [hd, hd']
    · rw [hd, hd', ih.printed]

/-- On a device that refuses nothing, a run prints the decimal digits of each value on a line of
its own, in order. These lines are numerals without leading zeros, and read again they are the
printed values. The processor, the memory and the text are the same for all such devices, and among
them are those that take a text in pieces of any size. -/
theorem printed_lines_decode (hall : TakesAll m.output.device) (n : Nat) :
    ∃ text, (m.after n).output.printed = m.output.printed ++ String.ofList text ∧
      text = (m.printedValues n).flatMap (fun value => lineOf value.toNat) ∧
      (String.ofList text).utf8ByteSize = text.length ∧
      (∀ line ∈ Text.lines text, Plain line) ∧
      (Text.lines text).map (unsigned? 10 256) =
        (m.printedValues n).map (fun value => some value.toNat) ∧
      (∀ (ε : Type) [Device ε] (m' : Machine size ε), m.Alike m' → TakesAll m'.output.device →
        (m.after n).Alike (m'.after n)) ∧
      ∀ d : Limited, d.room = none → 1 ≤ d.chunk → TakesAll d := by
  have hoffers := offers_of_takesAll hall n
  have hlines : Text.lines (m.offers n) =
      (m.printedValues n).map fun value => (decimal value.toNat).toList := by
    rw [hoffers, Text.lines_flatMap_lineOf, List.map_map]
    rfl
  refine ⟨m.offers n, (printed_after_of_takesAll hall n).2, ?_, utf8ByteSize_offers m n, ?_, ?_,
    ?_, ?_⟩
  · rw [hoffers, List.flatMap_map]
  · rw [hlines]
    intro line hline
    obtain ⟨value, _, rfl⟩ := List.mem_map.mp hline
    exact plain_decimal value.toNat
  · rw [hlines, List.map_map]
    apply List.map_congr_left
    intro value _
    exact unsigned?_decimal value.toNat_lt
  · intro ε _ m' h hall'
    exact h.after_of_takesAll hall hall' n
  · intro d hroom hchunk
    exact d.takesAll_of_no_limit hroom hchunk

/-- Prints two registers on a device that takes two characters at once. -/
def teller : Machine 5 Limited where
  processor :=
    { pc := 0
      sp := 0
      registers := ⟨#v[0, 205, 0, 0, 0, 0, 0, 0], .zero⟩
      status := .running }
  memory := ⟨#v[0x47, 0, 0x47, 1, 0x01]⟩
  output := ⟨⟨none, 2, .took 0⟩, ""⟩
  log := .empty .off

theorem teller_lines_decode :
    TakesAll teller.output.device ∧ teller.printedValues 3 = [0, 205] ∧
    (teller.after 3).output.printed = "0\n205\n" ∧
    (Text.lines "0\n205\n".toList).map (unsigned? 10 256) = [some 0, some 205] := by
  have hall : TakesAll teller.output.device :=
    Limited.takesAll_of_no_limit rfl (show 1 ≤ 2 by decide)
  have hvalues : teller.printedValues 3 = [0, 205] := by decide +kernel
  obtain ⟨text, hprinted, rfl, _, _, hread, _⟩ := printed_lines_decode hall 3
  rw [hvalues] at hprinted hread
  exact ⟨hall, hvalues, hprinted, hread⟩

end Machine
end EightBit
