import EightBit.Proofs.Stack.Meeting

/-! Pairs around which the stack grows in one direction only: their cell is safe until the stack has
gone once around all its 256 addresses. -/
namespace EightBit

namespace Stack

variable {d : Nat} {o c : Opcode} {u v : List Opcode}

/-- Where only values are opened, no return address is ever open, and the other way round; so the
stack pointer has moved by as much as there are open pairs. -/
theorem height_of_one_kind (h : Nested d (u ++ o :: v)) (ho : o.closer? = some c)
    (hu : ∀ p ∈ u, ∀ q, p.closer? = some q → p = o) :
    1 ≤ (height (u ++ [o])).natAbs ∧ (height (u ++ [o])).natAbs ≤ d := by
  obtain ⟨hvalues, haddresses, _⟩ := open_of_append h
  obtain ⟨_, _, hdepth⟩ := open_of_append (show Nested d ((u ++ [o]) ++ v) by simpa using h)
  rw [height]
  rw [openValues_append, openAddresses_append] at hdepth ⊢
  cases o with
  | push =>
    have hnone : u.count .call = 0 := List.count_eq_zero.mpr fun hm => by cases hu _ hm _ rfl
    have hflat : openAddresses u = 0 := by
      rw [openAddresses, hnone] at haddresses ⊢
      omega
    have hlast : openValues [.push] = 1 ∧ openAddresses [.push] = 0 := ⟨rfl, rfl⟩
    omega
  | call =>
    have hnone : u.count .push = 0 := List.count_eq_zero.mpr fun hm => by cases hu _ hm _ rfl
    have hflat : openValues u = 0 := by
      rw [openValues, hnone] at hvalues ⊢
      omega
    have hlast : openValues [.call] = 0 ∧ openAddresses [.call] = 1 := ⟨rfl, rfl⟩
    omega
  | _ => cases ho

end Stack

namespace Machine

variable {size : Nat} {δ : Type} [Device δ] {m : Machine size δ} {o : Opcode} {a b d k n : Nat}

theorem mem_stackWord_iff :
    o ∈ m.stackWord a b ↔ ∃ k, a ≤ k ∧ k < b ∧ (m.after k).stackOpcode? = some o := by
  simp only [stackWord, List.mem_filterMap, List.mem_range'_1]
  constructor
  · rintro ⟨k, hk, ho⟩
    exact ⟨k, hk.1, by omega, ho⟩
  · rintro ⟨k, hak, hkb, ho⟩
    exact ⟨k, by omega, ho⟩

/-- Inside a pair the stack pointer does not come back to the cell of the pair, if all that is
opened there is of one kind and never all 256 addresses are in use. -/
theorem sp_ne_of_one_kind (h : m.Succeeds n) (hbn : b < n) (hak : a < k) (hkb : k < b)
    (hk : (m.after k).Opens) (ho : ∀ j, a < j → j < b → (m.after j).Opens →
      (m.after j).stackOpcode? = some o) (hw : Stack.Nested 255 (m.stackWord (a + 1) b)) :
    (m.after (k + 1)).processor.sp ≠ (m.after (a + 1)).processor.sp := by
  have hlast := ho k hak hkb hk
  have hclose : ∃ c, o.closer? = some c := by
    obtain ⟨p, c, hp, hc⟩ := opens_iff.mp hk
    cases hlast.symm.trans hp
    exact ⟨c, hc⟩
  obtain ⟨c, hc⟩ := hclose
  have hword : m.stackWord (a + 1) (k + 1) = m.stackWord (a + 1) k ++ [o] := by
    rw [stackWord_succ (by omega), hlast, Option.toList_some]
  have hsplit : m.stackWord (a + 1) b =
      m.stackWord (a + 1) k ++ o :: m.stackWord (k + 1) b := by
    rw [stackWord_append (show a + 1 ≤ k + 1 by omega) (show k + 1 ≤ b from hkb), hword]
    simp
  have hbefore : ∀ p ∈ m.stackWord (a + 1) k, ∀ q, p.closer? = some q → p = o := by
    intro p hp q hq
    obtain ⟨j, haj, hjk, hj⟩ := mem_stackWord_iff.mp hp
    have hopens : (m.after j).Opens := opens_iff.mpr ⟨p, q, hj, hq⟩
    exact Option.some.inj (hj.symm.trans (ho j haj (by omega) hopens))
  rw [hsplit] at hw
  obtain ⟨hlow, hhigh⟩ := Stack.height_of_one_kind hw hc hbefore
  have hsp := sp_after h (show a + 1 ≤ k + 1 by omega) (show k + 1 ≤ n by omega)
  have hlt := (m.after (a + 1)).processor.sp.toNat_lt
  rw [hword] at hsp
  intro heq
  rw [heq] at hsp
  omega

/-- In a successful run whose stack opcodes are well nested, every closer closes a pair. If all that
is opened inside the pair is of one kind, be it that of the pair or not, and at most 255 pairs are
open there at once, the closer takes what the opener of its pair has put on the stack, and the
stack pointer comes back to where it was before the pair. -/
theorem closer_takes_own (h : m.Succeeds n) (hw : Stack.Nested d (m.stackWord 0 n)) :
    (∀ b < n, (m.after b).stackOpcode? = some .pop ∨ (m.after b).stackOpcode? = some .ret →
      ∃ a, m.Pair a b) ∧
    ∀ a b o, b < n → m.Pair a b →
      (∀ k, a < k → k < b → (m.after k).Opens → (m.after k).stackOpcode? = some o) →
      Stack.Nested 255 (m.stackWord (a + 1) b) →
      m.Hands a b ∧ (m.after (b + 1)).processor.sp = (m.after a).processor.sp := by
  constructor
  · rintro b hbn (hb | hb)
    · exact exists_pair hw hbn hb (.inl rfl)
    · exact exists_pair hw hbn hb (.inr rfl)
  · intro a b o hbn hp ho hdeep
    obtain ⟨p, c, hpa, _, hpc⟩ := hp.closes
    have hopens : (m.after a).Opens := opens_iff.mpr ⟨p, c, hpa, hpc⟩
    refine ⟨hands_of_last h hp hbn hp.lt hopens rfl ?_, sp_after_pair h hp hbn⟩
    intro k hak hkb hk
    exact sp_ne_of_one_kind h hbn hak hkb hk ho hdeep

/-- Calls a subroutine that pushes two values and pops them again. The return address goes to the
last cell, and the values to the first two. -/
def wrapping : Machine 256 Unlimited where
  processor := { Processor.startingAt 0 with registers := ⟨#v[7, 3, 0, 0, 0, 0, 0, 0], .zero⟩ }
  memory := Memory.zero.place 0 [0x50, 1, 0x01, 0x45, 0, 0x45, 0, 0x46, 2, 0x46, 3, 0x11]
  output := ⟨.device, ""⟩
  log := .empty .off

theorem word_wrapping : wrapping.stackWord 0 6 = [.call, .push, .push, .pop, .pop, .ret] ∧
    wrapping.stackWord 1 5 = [.push, .push, .pop, .pop] := by
  decide +kernel

theorem nested_pushes {d : Nat} : Stack.Nested (d + 2) [.push, .push, .pop, .pop] :=
  .pair (w := [.push, .pop]) rfl (.pair (w := []) rfl .nil)

theorem succeeds_wrapping : wrapping.Succeeds 6 :=
  succeeds_of_running (by decide +kernel)

theorem pair_wrapping : wrapping.Pair 0 5 := by
  refine ⟨by decide, ⟨.call, .ret, by decide +kernel, by decide +kernel, rfl⟩, 2, ?_⟩
  rw [word_wrapping.2]
  exact nested_pushes

theorem wrapping_takes_own :
    wrapping.Succeeds 6 ∧ Stack.Nested 3 (wrapping.stackWord 0 6) ∧ wrapping.Pair 0 5 ∧
    (∀ k, 0 < k → k < 5 → (wrapping.after k).Opens →
      (wrapping.after k).stackOpcode? = some .push) ∧
    Stack.Nested 255 (wrapping.stackWord 1 5) ∧
    (wrapping.after 1).processor.sp = 255 ∧ (wrapping.after 3).processor.sp = 1 ∧
    wrapping.Hands 0 5 ∧ wrapping.stores? 0 = some 2 ∧
    (wrapping.after 6).processor.sp = (wrapping.after 0).processor.sp := by
  have hword : Stack.Nested 3 (wrapping.stackWord 0 6) := by
    rw [word_wrapping.1]
    exact .pair (w := [.push, .push, .pop, .pop]) rfl nested_pushes
  have hpushes : ∀ k < 5, 0 < k → (wrapping.after k).Opens →
      (wrapping.after k).stackOpcode? = some .push := by
    decide +kernel
  have hdeep : Stack.Nested 255 (wrapping.stackWord 1 5) := by
    rw [word_wrapping.2]
    exact nested_pushes
  obtain ⟨_, hpairs⟩ := closer_takes_own succeeds_wrapping hword
  obtain ⟨hhands, hsp⟩ := hpairs 0 5 .push (by decide) pair_wrapping
    (fun k hk hk5 => hpushes k hk5 hk) hdeep
  rw [show 5 + 1 = 6 from rfl] at hsp
  exact ⟨succeeds_wrapping, hword, pair_wrapping, fun k hk hk5 => hpushes k hk5 hk, hdeep,
    by decide +kernel, by decide +kernel, hhands, by decide +kernel, hsp⟩

end Machine
end EightBit
