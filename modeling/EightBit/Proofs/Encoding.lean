import EightBit.Folder

/-! Texts: their bytes, and the pieces that a separator divides them into. -/
namespace EightBit

variable {c : Char} {cs : List Char}

theorem utf8ByteSize_cons :
    (String.ofList (c :: cs)).utf8ByteSize = c.utf8Size + (String.ofList cs).utf8ByteSize := by
  rw [← List.singleton_append, String.ofList_append, String.utf8ByteSize_append,
    ← String.singleton_eq_ofList, String.utf8ByteSize_singleton]

theorem length_le_utf8ByteSize : cs.length ≤ (String.ofList cs).utf8ByteSize := by
  induction cs with
  | nil => simp
  | cons c cs ih =>
    have hc := c.utf8Size_pos
    rw [utf8ByteSize_cons, List.length_cons]
    omega

theorem utf8ByteSize_of_single (h : ∀ c ∈ cs, c.utf8Size = 1) :
    (String.ofList cs).utf8ByteSize = cs.length := by
  induction cs with
  | nil => rfl
  | cons c cs ih =>
    rw [utf8ByteSize_cons, ih fun d hd => h d (List.mem_cons_of_mem _ hd), h c List.mem_cons_self,
      List.length_cons]
    omega

theorem utf8Size_of_isDigit (h : c.isDigit = true) : c.utf8Size = 1 := by
  have hle : c.val ≤ 57 := by
    simp only [Char.isDigit, Bool.and_eq_true, decide_eq_true_eq] at h
    exact h.2
  have : c.val ≤ 127 := UInt32.le_trans hle (by decide)
  simp [Char.utf8Size, this]

theorem Folder.decode_toUTF8 (text : String) : decode text.toUTF8 = .ok text := by
  unfold decode String.fromUTF8?
  rw [String.toUTF8_eq_toByteArray, dif_pos text.isValidUTF8]
  rfl

theorem Folder.decode_of_no_text {content : ByteArray}
    (h : ∀ text : String, text.toUTF8 ≠ content) : decode content = .error .notText := by
  unfold decode String.fromUTF8?
  by_cases hv : content.IsValidUTF8
  · exact (h ⟨content, hv⟩ rfl).elim
  · rw [dif_neg hv]

/-- What stands between the occurrences of a character. -/
def pieces (c : Char) (text : String) : List String :=
  (text.toList.splitOn c).map String.ofList

/-- Pieces without the character come back if it is put between them. -/
theorem pieces_intercalate {ws : List String} (hne : ws ≠ []) (h : ∀ w ∈ ws, c ∉ w.toList) :
    pieces c (String.intercalate (String.singleton c) ws) = ws := by
  have hlists : ws.map String.toList ≠ [] := by simpa using hne
  have hfree : ∀ cs ∈ ws.map String.toList, c ∉ cs := by simpa using h
  rw [pieces, String.toList_intercalate, String.toList_singleton,
    List.splitOn_intercalate c hfree hlists, List.map_map]
  simp [Function.comp_def]

end EightBit
