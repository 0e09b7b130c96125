import EightBit.Proofs.Listing.Grammar
import EightBit.Proofs.Listing.Tokens
import EightBit.Proofs.Numeral
import Mathlib.Data.List.Forall2

/-! Listings that were written from bytes: loading them is writing the bytes. -/
namespace EightBit

namespace Binary

variable {cs : List Char} (h : Binary cs)
include h

theorem not_mem {c : Char} (hzero : c ≠ '0') (hone : c ≠ '1') : c ∉ cs := by
  intro hc
  rcases h c hc with rfl | rfl
  · exact hzero rfl
  · exact hone rfl

theorem not_blank : ∀ c ∈ cs, Text.isBlank c = false := by
  intro c hc
  rcases h c hc with rfl | rfl <;> rfl

theorem digit?_of_mem : ∀ c ∈ cs, digit? 2 c = some (c.toNat - '0'.toNat) := by
  intro c hc
  rcases h c hc with rfl | rfl <;> rfl

end Binary

namespace Listing

open Text

/-- A numeral of one to eight binary digits for a byte, leading zeros allowed. -/
def Spells (t : List Char) (byte : UInt8) : Prop :=
  Numeral 8 t ∧ Nat.ofDigitChars 2 t 0 = byte.toNat

/-- The texts with a numeral for each byte on a line of its own. The last line may have no end. -/
inductive Rendering : List UInt8 → List Char → Prop where
  | nil : Rendering [] []
  | last {byte t} (h : Spells t byte) : Rendering [byte] t
  | line {byte bytes t text} (h : Spells t byte) (e : LineEnd) (hs : Rendering bytes text) :
    Rendering (byte :: bytes) (t ++ (e.chars ++ text))

variable {t text : List Char} {byte : UInt8} {bs : List UInt8} {ts : List (List Char)}

theorem token_of_binary (h : Binary t) : token t = t := by
  rw [token, takeWhile_of_not_mem (h.not_mem (by decide) (by decide)), trim_of_no_blank h.not_blank]

namespace Spells

variable (h : Spells t byte)
include h

theorem newline_not_mem : '\n' ∉ t :=
  h.1.2.2.not_mem (by decide) (by decide)

theorem unsigned? : EightBit.unsigned? 2 256 t = some byte.toNat := by
  obtain ⟨⟨hne, _, hb⟩, hvalue⟩ := h
  have hplus : ∀ ds, t ≠ '+' :: ds := by
    rintro ds rfl
    exact hb.not_mem (by decide) (by decide) List.mem_cons_self
  have hlt := byte.toNat_lt
  rw [unsigned?_of_ne_plus hplus, if_neg (by simpa using hne),
    digits?_of_digits hb.digit?_of_mem, hvalue]
  simp [hlt]

theorem good : Good t := by
  refine ⟨?_, by rw [h.unsigned?]; rfl⟩
  rw [utf8ByteSize_of_binary h.1.2.2]
  exact h.1.2.1

end Spells

/-- The tokens of the lines are the numerals. -/
theorem Rendering.tokens (h : Rendering bs text) : List.Forall₂ Spells (tokens text) bs := by
  induction h with
  | nil => exact .nil
  | last h =>
    rw [tokens_of_not_mem h.newline_not_mem, if_neg (by simpa using h.1.1),
      token_of_binary h.1.2.2]
    exact .cons h .nil
  | line h e _ ih =>
    rw [tokens_line h.newline_not_mem, token_of_binary h.1.2.2]
    exact .cons h ih

theorem good_of_spells (h : List.Forall₂ Spells ts bs) : ∀ t ∈ ts, Good t := by
  induction h with
  | nil => simp
  | cons h _ ih => exact List.forall_mem_cons.mpr ⟨h.good, ih⟩

theorem bytes_of_spells (h : List.Forall₂ Spells ts bs) : bytes ts = bs := by
  induction h with
  | nil => rfl
  | @cons t b ts bs h _ ih =>
    have hfirst : bytes (t :: ts) = b :: bytes ts := by simp [bytes, h.good, h.unsigned?]
    rw [hfirst, ih]

theorem goodCount_of_good (h : ∀ t ∈ ts, Good t) : goodCount ts = ts.length :=
  List.countP_eq_length.mpr fun t ht => decide_eq_true (h t ht)

/-- If all tokens are good, those beyond the size of the memory are too many. -/
theorem offences_of_good (size : Nat) (h : ∀ t ∈ ts, Good t) : offences size ts =
    (List.range (ts.length - size)).map fun k =>
      ⟨.noSuchAddress size, "program is larger than memory", size + k + 1⟩ := by
  induction ts using List.reverseRecOn with
  | nil => simp [offences]
  | append_singleton ts t ih =>
    have hts : ∀ s ∈ ts, Good s := fun s hs => h s (List.mem_append_left _ hs)
    have ht : Good t := h t (by simp)
    rw [offences_concat, ih hts, goodCount_of_good hts, List.length_append, List.length_singleton]
    by_cases hs : size ≤ ts.length
    · have hnext : ts.length + 1 - size = ts.length - size + 1 := by omega
      have hline : size + (ts.length - size) + 1 = ts.length + 1 := by omega
      rw [offence?_of_good ht hs, hnext, List.range_succ, List.map_append, List.map_singleton,
        hline]
      rfl
    · have hnone : offence? size ts.length t = none :=
        offence?_eq_none_iff.mpr (.inr ⟨ht, Nat.lt_of_not_le hs⟩)
      have hzero : ts.length + 1 - size = ts.length - size := by omega
      rw [hnone, hzero, Option.map_none, Option.toList_none, List.append_nil]

/-- A listing with a numeral for each byte loads the memory that has the bytes written to it from
the first cell on, and if they do not fit, there is an error for each line that is too many, where
writing them names the address behind the memory. -/
theorem load_rendering (h : Rendering bs text) (size : Nat) (log : Log) :
    (bs.length ≤ size → ∃ memory, (load text (Memory.zero : Memory size) log).1 = .ok memory ∧
      (Memory.zero : Memory size).writeBlock 0 bs = .ok memory) ∧
    (size < bs.length →
      (load text (Memory.zero : Memory size) log).1 =
        .error ((List.range (bs.length - size)).map fun k =>
          ⟨.noSuchAddress size, "program is larger than memory", size + k + 1⟩) ∧
      (Memory.zero : Memory size).writeBlock 0 bs = .error (.noSuchAddress size)) := by
  have hspells := h.tokens
  have hlength : (tokens text).length = bs.length := hspells.length_eq
  have hoffences := offences_of_good size (good_of_spells hspells)
  rw [hlength] at hoffences
  constructor
  · intro hs
    have hnil : offences size (tokens text) = [] := by
      rw [hoffences, Nat.sub_eq_zero_of_le hs]
      rfl
    refine ⟨Memory.zero.place 0 bs, ?_, ?_⟩
    · rw [load_eq_ok hnil, bytes_of_spells hspells]
    · rw [Memory.writeBlock_eq]
      exact if_pos (by simpa using hs)
  · intro hs
    have hne : offences size (tokens text) ≠ [] := by
      rw [hoffences]
      simp only [ne_eq, List.map_eq_nil_iff, List.range_eq_nil]
      omega
    constructor
    · rw [load_eq_error hne, hoffences]
    · have hfit : ¬ ((0 : UInt16).toNat + bs.length ≤ size) := by simpa using hs
      rw [Memory.writeBlock_eq, if_neg hfit]
      simp

/-- The bytes 5, 1 and 2 with leading zeros, both kinds of line ends and no end of the last line. -/
theorem load_three_bytes :
    Rendering [5, 1, 2] "101\r\n00000001\n10".toList ∧
    (∃ memory, (load "101\r\n00000001\n10".toList (Memory.zero : Memory 3) (.empty .off)).1 =
      .ok memory ∧ (Memory.zero : Memory 3).writeBlock 0 [5, 1, 2] = .ok memory) ∧
    (load "101\r\n00000001\n10".toList (Memory.zero : Memory 2) (.empty .off)).1 =
      .error [⟨.noSuchAddress 2, "program is larger than memory", 3⟩] ∧
    (Memory.zero : Memory 2).writeBlock 0 [5, 1, 2] = .error (.noSuchAddress 2) := by
  have hfive : Spells ['1', '0', '1'] 5 := ⟨by simp [Numeral, Binary], rfl⟩
  have hone : Spells ['0', '0', '0', '0', '0', '0', '0', '1'] 1 :=
    ⟨by simp [Numeral, Binary], rfl⟩
  have htwo : Spells ['1', '0'] 2 := ⟨by simp [Numeral, Binary], rfl⟩
  have hrendering : Rendering [5, 1, 2] "101\r\n00000001\n10".toList :=
    .line hfive .returnFeed (.line hone .feed (.last htwo))
  obtain ⟨hfits, _⟩ := load_rendering hrendering 3 (.empty .off)
  obtain ⟨_, hlarge⟩ := load_rendering hrendering 2 (.empty .off)
  exact ⟨hrendering, hfits (by decide), hlarge (by decide)⟩

end Listing
end EightBit
