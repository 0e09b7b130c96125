import EightBit.Output.Limited
import EightBit.Proofs.Printing

/-! What the two kinds of device take of a line: all of it, or as much as there is room for. -/
namespace EightBit

open Output

theorem takesAll_unlimited (d : Unlimited) : TakesAll d := by
  refine ⟨fun _ => True, trivial, fun d text _ ht => ?_⟩
  obtain ⟨c, cs, rfl⟩ := List.exists_cons_of_ne_nil ht
  exact ⟨cs.length, d, rfl, trivial⟩

namespace Limited

variable {d : Limited} {failure : WriteFailure} {room : Nat}

/-- How the device fails when it is full: it refuses a text, or takes nothing of it. -/
def Fails (d : Limited) (failure : WriteFailure) : Prop :=
  d.whenFull = .refused failure ∨ d.whenFull = .took 0 ∧ failure = .writeZero

/-- The device with so much room left. -/
def withRoom (d : Limited) (room : Nat) : Limited :=
  { d with room := some room }

theorem write_full (text : List Char) :
    Device.write (d.withRoom 0) text = (d.whenFull, d.withRoom 0) := rfl

/-- With room left, the device takes as much as the room and its chunks allow. -/
theorem write_room (hchunk : 1 ≤ d.chunk) (hroom : 0 < room) {text : List Char} (ht : text ≠ []) :
    ∃ k, k < text.length ∧ k < room ∧
      Device.write (d.withRoom room) text = (.took (k + 1), d.withRoom (room - (k + 1))) := by
  have hpos := List.length_pos_iff.mpr ht
  refine ⟨min (min text.length d.chunk) room - 1, by omega, by omega, ?_⟩
  have hk : min (min text.length d.chunk) room - 1 + 1 = min (min text.length d.chunk) room := by
    omega
  obtain ⟨room, rfl⟩ := Nat.exists_eq_add_of_le' hroom
  rw [hk]
  rfl

theorem send_full (hfail : d.Fails failure) (printed : String) {text : List Char} (ht : text ≠ []) :
    send ⟨d.withRoom 0, printed⟩ 0 text = (.error failure, ⟨d.withRoom 0, printed⟩) := by
  obtain ⟨c, cs, rfl⟩ := List.exists_cons_of_ne_nil ht
  rcases hfail with hf | ⟨hf, rfl⟩ <;> simp [send, write_full, hf]

variable (hchunk : 1 ≤ d.chunk) (hfail : d.Fails failure)
include hchunk hfail

/-- The device takes a text up to its room, in whatever pieces, and fails exactly if the text is
longer. -/
theorem send_room (room : Nat) (printed : String) (text : List Char) :
    send ⟨d.withRoom room, printed⟩ 0 text =
      (if text.length ≤ room then .ok () else .error failure,
        ⟨d.withRoom (room - text.length), printed ++ String.ofList (text.take room)⟩) := by
  induction hl : text.length using Nat.strongRecOn generalizing room printed text with
  | _ len ih =>
    by_cases ht : text = []
    · subst ht
      obtain rfl : 0 = len := hl
      simp [send]
    have hpos := List.length_pos_iff.mpr ht
    by_cases hroom : room = 0
    · subst hroom
      have : ¬ len ≤ 0 := by omega
      simp [send_full hfail printed ht, this]
    · obtain ⟨k, hk, hkr, hw⟩ := write_room hchunk (Nat.pos_of_ne_zero hroom) ht
      have hleft : room - (k + 1) - (text.drop (k + 1)).length = room - len := by
        rw [List.length_drop]
        omega
      have hfits : (text.drop (k + 1)).length ≤ room - (k + 1) ↔ len ≤ room := by
        rw [List.length_drop]
        omega
      have htaken : text.take (k + 1) ++ (text.drop (k + 1)).take (room - (k + 1)) =
          text.take room := by
        rw [← List.take_add]
        congr 1
        omega
      rw [send_took ht hw, ih (text.drop (k + 1)).length (by simp; omega) _ _ _ rfl, hleft,
        String.append_assoc, ← String.ofList_append, htaken]
      simp only [hfits]

/-- The line end needs room as well. -/
theorem emit_room (room : Nat) (printed : String) (prints : Option UInt8) :
    emit ⟨d.withRoom room, printed⟩ prints =
      (if (offered prints).length ≤ room then .ok () else .error failure,
        ⟨d.withRoom (room - (offered prints).length),
          printed ++ String.ofList ((offered prints).take room)⟩) := by
  cases prints with
  | none => simp [emit, offered]
  | some n =>
    have hline : (lineOf n.toNat).length = (decimal n.toNat).toList.length + 1 := by simp [lineOf]
    rw [offered, emit, printLine, print, send_room hchunk hfail]
    by_cases hfits : (decimal n.toNat).toList.length ≤ room
    · have hleft : room - (decimal n.toNat).toList.length - 1 = room - (lineOf n.toNat).length := by
        omega
      have hend : 1 ≤ room - (decimal n.toNat).toList.length ↔ (lineOf n.toNat).length ≤ room := by
        omega
      have htaken : (decimal n.toNat).toList.take room ++
          ['\n'].take (room - (decimal n.toNat).toList.length) = (lineOf n.toNat).take room := by
        rw [lineOf, List.take_append]
      simp only [if_pos hfits, print]
      rw [show "\n".toList = ['\n'] from rfl, send_room hchunk hfail, String.append_assoc,
        ← String.ofList_append, htaken, List.length_singleton, hleft]
      simp only [hend]
    · have hlong : ¬ (lineOf n.toNat).length ≤ room := by omega
      have htaken : (lineOf n.toNat).take room = (decimal n.toNat).toList.take room := by
        rw [lineOf, List.take_append_of_le_length (by omega)]
      have hzero : room - (decimal n.toNat).toList.length = room - (lineOf n.toNat).length := by
        omega
      simp only [if_neg hfits, if_neg hlong, htaken, hzero]

end Limited
end EightBit
