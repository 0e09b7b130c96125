import EightBit.Opcode
import Mathlib.Data.List.Basic

/-! Well-nested words of stack opcodes, and how many pairs are open at any point in them. -/
namespace EightBit

namespace Opcode

/-- The opcode that takes off the stack what this one puts there. -/
def closer? : Opcode → Option Opcode
  | push => some pop
  | call => some ret
  | _ => none

def isStack : Opcode → Bool
  | push | pop | call | ret => true
  | _ => false

end Opcode

namespace Stack

/-- Well-nested words in which at most `d` pairs are open at once. -/
inductive Nested : Nat → List Opcode → Prop where
  | nil {d} : Nested d []
  | pair {d o c w} (h : o.closer? = some c) (hw : Nested d w) : Nested (d + 1) (o :: (w ++ [c]))
  | append {d u v} (hu : Nested d u) (hv : Nested d v) : Nested d (u ++ v)

/-- Pushed values that were not popped. -/
def openValues (w : List Opcode) : Int :=
  w.count .push - w.count .pop

/-- Return addresses to which there was no return. -/
def openAddresses (w : List Opcode) : Int :=
  w.count .call - w.count .ret

/-- How far the stack pointer has moved up: values go up and return addresses go down. -/
def height (w : List Opcode) : Int :=
  openValues w - openAddresses w

variable {d : Nat} {o c : Opcode} {u v w : List Opcode}

theorem openValues_append (u v : List Opcode) :
    openValues (u ++ v) = openValues u + openValues v := by
  simp only [openValues, List.count_append]
  omega

theorem openAddresses_append (u v : List Opcode) :
    openAddresses (u ++ v) = openAddresses u + openAddresses v := by
  simp only [openAddresses, List.count_append]
  omega

theorem height_append (u v : List Opcode) : height (u ++ v) = height u + height v := by
  simp only [height, openValues_append, openAddresses_append]
  omega

/-- One opener opens one pair of its kind, which its closer closes. -/
theorem open_pair (h : o.closer? = some c) :
    openValues [c] = -openValues [o] ∧ openAddresses [c] = -openAddresses [o] ∧
    0 ≤ openValues [o] ∧ 0 ≤ openAddresses [o] ∧ openValues [o] + openAddresses [o] = 1 := by
  cases o <;> cases h <;> decide

theorem open_eq_zero (h : Nested d w) : openValues w = 0 ∧ openAddresses w = 0 := by
  induction h with
  | nil => exact ⟨rfl, rfl⟩
  | @pair d o c w h hw ih =>
    obtain ⟨hv, ha, _⟩ := open_pair h
    rw [← List.singleton_append, openValues_append, openValues_append, openAddresses_append,
      openAddresses_append]
    omega
  | append hu hv ihu ihv =>
    rw [openValues_append, openAddresses_append]
    omega

theorem height_eq_zero (h : Nested d w) : height w = 0 := by
  obtain ⟨hv, ha⟩ := open_eq_zero h
  simp [height, hv, ha]

/-- Up to any point of a well-nested word nothing is closed that was not opened, and no more than
`d` pairs are open. -/
theorem open_of_append (h : Nested d (u ++ v)) :
    0 ≤ openValues u ∧ 0 ≤ openAddresses u ∧ openValues u + openAddresses u ≤ d := by
  generalize hw : u ++ v = w at h
  induction h generalizing u v with
  | nil =>
    obtain ⟨rfl, _⟩ := List.append_eq_nil_iff.mp hw
    simp [openValues, openAddresses]
  | @pair d o c w h hw' ih =>
    obtain ⟨hv, ha, hv₀, ha₀, hsum⟩ := open_pair h
    rcases List.append_eq_cons_iff.mp hw with ⟨rfl, _⟩ | ⟨t, rfl, he⟩
    · simp [openValues, openAddresses]
      omega
    · rw [← List.singleton_append, openValues_append, openAddresses_append]
      rcases List.append_eq_append_iff.mp he with ⟨s, rfl, hs⟩ | ⟨s, rfl, _⟩
      · have := open_eq_zero hw'
        rw [openValues_append, openAddresses_append]
        cases s with
        | nil =>
          simp [openValues, openAddresses] at *
          omega
        | cons a s =>
          obtain ⟨rfl, hnil⟩ := List.cons_eq_cons.mp hs
          obtain ⟨rfl, _⟩ := List.append_eq_nil_iff.mp hnil.symm
          omega
      · have := ih rfl
        omega
  | @append d x y hx hy ihx ihy =>
    rcases List.append_eq_append_iff.mp hw with ⟨s, hs, _⟩ | ⟨s, rfl, hs⟩
    · exact ihx hs.symm
    · have := open_eq_zero hx
      have := ihy hs.symm
      rw [openValues_append, openAddresses_append]
      omega

/-- Every closer of a well-nested word closes an opener before it, with a well-nested word in
between. -/
theorem exists_opener (h : Nested d (u ++ c :: v)) (hc : c = .pop ∨ c = .ret) :
    ∃ o x y, u = x ++ o :: y ∧ o.closer? = some c ∧ ∃ d', Nested d' y := by
  generalize hw : u ++ c :: v = w at h
  induction h generalizing u v with
  | nil => simp at hw
  | @pair d o c' w h hw' ih =>
    rcases List.append_eq_cons_iff.mp hw with ⟨_, he⟩ | ⟨t, rfl, he⟩
    · cases he
      rcases hc with rfl | rfl <;> cases h
    · rcases List.append_eq_append_iff.mp he with ⟨s, rfl, hs⟩ | ⟨s, rfl, hs⟩
      · -- only the closer of the pair itself is left behind its word
        cases s with
        | nil =>
          cases hs
          exact ⟨o, [], w, by simp, h, d, hw'⟩
        | cons a s => simp at hs
      · cases s with
        | nil =>
          cases hs
          exact ⟨o, [], t, rfl, h, d, by simpa using hw'⟩
        | cons a s =>
          cases hs
          obtain ⟨o', x, y, rfl, ho, hy⟩ := ih rfl
          exact ⟨o', o :: x, y, by simp, ho, hy⟩
  | @append d x y hx hy ihx ihy =>
    rcases List.append_eq_append_iff.mp hw with ⟨s, rfl, hs⟩ | ⟨s, rfl, hs⟩
    · cases s with
      | nil =>
        obtain ⟨o, x', y', he, ho, hn⟩ := ihy (u := []) (by simpa using hs)
        simp at he
      | cons a s =>
        cases hs
        exact ihx rfl
    · obtain ⟨o, x', y', rfl, ho, hn⟩ := ihy hs.symm
      exact ⟨o, x ++ x', y', by simp, ho, hn⟩

end Stack
end EightBit
