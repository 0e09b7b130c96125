import EightBit.Memory
import Mathlib.Order.Bounds.Defs

/-! Writing several bytes: as a block that is written whole or not at all, and one by one. -/
namespace EightBit.Memory

variable {size : Nat} {m : Memory size} {i j : Nat} {value : UInt8} {address : UInt16}
  {bytes : List UInt8}

theorem set_of_size_le (h : size ≤ i) : m.set i value = m := by
  apply ext_get?
  intro j
  rw [get?_set]
  by_cases hj : i = j
  · subst hj
    simp [get?_eq_none_iff.mpr h, Nat.not_lt.mpr h]
  · simp [hj]

theorem place_concat (bytes : List UInt8) :
    m.place i (bytes ++ [value]) = (m.place i bytes).set (i + bytes.length) value := by
  induction bytes generalizing m i with
  | nil => rfl
  | cons b bs ih =>
    rw [List.cons_append, place, ih, place, List.length_cons]
    congr 1
    omega

theorem place_of_size_le (h : size ≤ i) : m.place i bytes = m := by
  induction bytes generalizing i with
  | nil => rfl
  | cons b bs ih =>
    rw [place, set_of_size_le h]
    exact ih (Nat.le_succ_of_le h)

/-- Writes bytes in place one by one. The first one that is refused ends this, and those before it
stay. -/
def storeEach (address : UInt16) : List UInt8 → InPlace (Memory size) Unit
  | [] => return
  | b :: bs => do
    store address b
    storeEach (address + 1) bs

theorem run_storeEach_of_lt (h : address.toNat < size) (b : UInt8) (bs : List UInt8) :
    (storeEach address (b :: bs)).run m =
      (storeEach (address + 1) bs).run (m.set address.toNat b) := by
  rw [storeEach, EStateM.run_bind, run_store, locate_eq_ok_iff.mpr h]

theorem run_storeEach_of_le (h : size ≤ address.toNat) (b : UInt8) (bs : List UInt8) :
    (storeEach address (b :: bs)).run m = .error (.noSuchAddress address.toNat) m := by
  rw [storeEach, EStateM.run_bind, run_store, locate_eq_error_iff.mpr ⟨h, rfl⟩]

/-- Writing bytes one by one fails where a block would, and leaves those that fit. -/
theorem run_storeEach (hne : bytes ≠ []) (hend : address.toNat + bytes.length ≤ 65536) :
    (storeEach address bytes).run m =
      if address.toNat + bytes.length ≤ size then .ok () (m.place address.toNat bytes)
      else .error (.noSuchAddress (max address.toNat size)) (m.place address.toNat bytes) := by
  induction bytes generalizing m address with
  | nil => contradiction
  | cons b bs ih =>
    rw [List.length_cons] at hend ⊢
    rcases Nat.lt_or_ge address.toNat size with hlt | hge
    · rw [run_storeEach_of_lt hlt]
      by_cases hbs : bs = []
      · subst hbs
        have hfits : address.toNat + (([] : List UInt8).length + 1) ≤ size := hlt
        rw [if_pos hfits]
        rfl
      · have hpos : 0 < bs.length := List.length_pos_iff.mpr hbs
        have hnext : (address + 1).toNat = address.toNat + 1 := by
          rw [UInt16.toNat_add, UInt16.toNat_one]
          omega
        have hend' : (address + 1).toNat + bs.length ≤ 65536 := by omega
        have hrest := ih (m := m.set address.toNat b) hbs hend'
        have hmax : max (address.toNat + 1) size = max address.toNat size := by omega
        have hsum : address.toNat + 1 + bs.length = address.toNat + (bs.length + 1) := by omega
        rw [hnext, hmax, hsum] at hrest
        exact hrest
    · have hover : ¬ address.toNat + (bs.length + 1) ≤ size := by omega
      rw [run_storeEach_of_le hge, if_neg hover, Nat.max_eq_left hge, place_of_size_le hge]

/-- A block is written whole if it fits. Otherwise the memory stays as it is, and the fault names
the first address of the block that does not exist. A block that ends within sixteen bits is
written just if its bytes can be written one by one, to the same effect, and otherwise the first of
these that fails names the same address. -/
theorem storeBlock_all_or_nothing (m : Memory size) (address : UInt16) (bytes : List UInt8) :
    ((∃ written, (storeBlock address bytes).run m = .ok () written) ↔
      address.toNat + bytes.length ≤ size) ∧
    (∀ written, (storeBlock address bytes).run m = .ok () written →
      (∀ i (hi : i < bytes.length), written.get? (address.toNat + i) = some bytes[i]) ∧
      ∀ j, j < address.toNat ∨ address.toNat + bytes.length ≤ j → written.get? j = m.get? j) ∧
    (∀ fault written, (storeBlock address bytes).run m = .error fault written →
      written = m ∧ fault = .noSuchAddress (max address.toNat size) ∧
      (bytes ≠ [] → IsLeast
        {a | address.toNat ≤ a ∧ a < address.toNat + bytes.length ∧ size ≤ a}
        (max address.toNat size))) ∧
    (bytes ≠ [] → address.toNat + bytes.length ≤ 65536 →
      (∀ written, (storeBlock address bytes).run m = .ok () written ↔
        (storeEach address bytes).run m = .ok () written) ∧
      ∀ fault, (storeBlock address bytes).run m = .error fault m ↔
        ∃ written, (storeEach address bytes).run m = .error fault written) := by
  rw [run_storeBlock]
  rcases Nat.lt_or_ge size (address.toNat + bytes.length) with hover | hfits
  · have hnot : ¬ address.toNat + bytes.length ≤ size := Nat.not_le.mpr hover
    rw [if_neg hnot]
    refine ⟨by simp [hnot], by simp, ?_, ?_⟩
    · intro fault written h
      cases h
      refine ⟨rfl, rfl, ?_⟩
      intro hne
      have hpos := List.length_pos_iff.mpr hne
      constructor
      · refine ⟨Nat.le_max_left _ _, ?_, Nat.le_max_right _ _⟩
        omega
      · rintro a ⟨hstart, _, hsize⟩
        exact Nat.max_le.mpr ⟨hstart, hsize⟩
    · intro hne hend
      rw [run_storeEach hne hend, if_neg hnot]
      simp
  · rw [if_pos hfits]
    refine ⟨by simp [hfits], ?_, by simp, ?_⟩
    · intro written h
      cases h
      constructor
      · intro i hi
        rw [get?_place, if_pos (by omega), Nat.add_sub_cancel_left]
        exact List.getElem?_eq_getElem hi
      · intro j hj
        rw [get?_place, if_neg (by omega)]
    · intro hne hend
      rw [run_storeEach hne hend, if_pos hfits]
      simp

/-- Two bytes fit behind the first two of four cells, and three do not. Written one by one, two of
the three stay. -/
theorem storeBlock_behind_two :
    (∃ written, (storeBlock 2 [7, 8]).run (zero : Memory 4) = .ok () written ∧
      written.get? 3 = some 8 ∧ written.get? 1 = some 0) ∧
    (storeBlock 2 [7, 8, 9]).run (zero : Memory 4) = .error (.noSuchAddress 4) zero ∧
    (storeEach 2 [7, 8, 9]).run (zero : Memory 4) =
      .error (.noSuchAddress 4) ((zero : Memory 4).place 2 [7, 8]) := by
  obtain ⟨hok, hcells, _, _⟩ := storeBlock_all_or_nothing (zero : Memory 4) 2 [7, 8]
  obtain ⟨written, hwritten⟩ := hok.mpr (by decide)
  obtain ⟨hinside, houtside⟩ := hcells written hwritten
  obtain ⟨_, _, _, heach⟩ := storeBlock_all_or_nothing (zero : Memory 4) 2 [7, 8, 9]
  have hleft : (storeEach 2 [7, 8, 9]).run (zero : Memory 4) =
      .error (.noSuchAddress 4) ((zero : Memory 4).place 2 [7, 8]) := by
    rfl
  have hrefused := ((heach (by simp) (by decide)).2 _).mpr ⟨_, hleft⟩
  exact ⟨⟨written, hwritten, hinside 1 (by decide), houtside 1 (.inl (by decide))⟩, hrefused, hleft⟩

end EightBit.Memory
