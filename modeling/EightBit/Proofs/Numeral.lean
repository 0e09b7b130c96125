import EightBit.Numeral

/-! Numerals are read as the numbers that they were written for, decimal ones and hexadecimal ones. -/
namespace EightBit

/-- Digits, the first of which is a zero only if it is the only one. -/
structure Plain (cs : List Char) : Prop where
  isDigit : ∀ c ∈ cs, c.isDigit = true
  noLeadingZero : ∀ ds, cs = '0' :: ds → ds = []

variable {c : Char} {cs : List Char} {base n bound : Nat}

theorem toList_decimal (n : Nat) : (decimal n).toList = Nat.toDigits 10 n :=
  String.toList_ofList

theorem isDigit_of_mem_decimal (h : c ∈ (decimal n).toList) : c.isDigit = true := by
  rw [toList_decimal] at h
  exact Nat.isDigit_of_mem_toDigits (by decide) (by decide) h

theorem digit?_of_isDigit (h : c.isDigit = true) : digit? 10 c = some (c.toNat - '0'.toNat) := by
  simp only [Char.isDigit, Bool.and_eq_true, decide_eq_true_eq, UInt32.le_iff_toNat_le] at h
  exact if_pos ⟨h.1, Nat.lt_succ_of_le h.2⟩

/-- Digits that can be read have the value that they have by their positions. -/
theorem digits?_of_digits (h : ∀ c ∈ cs, digit? base c = some (c.toNat - '0'.toNat)) (n : Nat) :
    digits? base n cs = some (Nat.ofDigitChars base cs n) := by
  induction cs generalizing n with
  | nil => rfl
  | cons c cs ih =>
    rw [digits?, h c List.mem_cons_self, Nat.ofDigitChars_cons, Nat.mul_comm base n]
    exact ih (fun d hd => h d (List.mem_cons_of_mem c hd)) _

/-- A numeral of more than one digit begins with the numeral for a tenth of its number. -/
theorem noLeadingZero_toDigits {ds : List Char} (h : Nat.toDigits 10 n = '0' :: ds) : ds = [] := by
  induction n using Nat.strongRecOn generalizing ds with
  | _ n ih =>
    by_cases hn : n < 10
    · rw [Nat.toDigits_of_lt_base hn] at h
      exact (List.cons.inj h).2.symm
    · rw [Nat.toDigits_of_base_le (by decide) (Nat.le_of_not_lt hn)] at h
      obtain ⟨d, es, hd⟩ := List.exists_cons_of_ne_nil (Nat.toDigits_ne_nil (n := n / 10) (b := 10))
      rw [hd, List.cons_append] at h
      obtain ⟨rfl, _⟩ := List.cons.inj h
      have hzero : n / 10 = 0 := by
        have hvalue := Nat.ofDigitChars_ten_toDigits (n := n / 10)
        rw [hd, ih (n / 10) (by omega) hd] at hvalue
        exact hvalue.symm
      omega

theorem plain_decimal (n : Nat) : Plain (decimal n).toList where
  isDigit _ h := isDigit_of_mem_decimal h
  noLeadingZero ds h := noLeadingZero_toDigits (by rwa [toList_decimal] at h)

/-- What is written in decimal is read as the same number. -/
theorem unsigned?_decimal (h : n < bound) : unsigned? 10 bound (decimal n).toList = some n := by
  have hdigits := digits?_of_digits
    (fun _ hc => digit?_of_isDigit (isDigit_of_mem_decimal (n := n) hc)) 0
  obtain ⟨c, cs, hcs⟩ := List.exists_cons_of_ne_nil
    (show (decimal n).toList ≠ [] from toList_decimal n ▸ Nat.toDigits_ne_nil)
  have hplus : c ≠ '+' := by
    rintro rfl
    have hc := isDigit_of_mem_decimal (n := n) (hcs ▸ List.mem_cons_self)
    cases hc
  have hvalue : Nat.ofDigitChars 10 (decimal n).toList 0 = n := by
    rw [toList_decimal, Nat.ofDigitChars_ten_toDigits]
  rw [hvalue] at hdigits
  rw [hcs] at hdigits ⊢
  simp [unsigned?, hplus, hdigits, h]

section Hexadecimal

theorem isAlphanum_of_mem_toDigits {c : Char} {n : Nat} (h : c ∈ Nat.toDigits 16 n) :
    c.toUpper.isAlphanum = true := by
  have hdigit : ∀ d < 16, (Nat.digitChar d).toUpper.isAlphanum = true := by decide
  induction n using Nat.strongRecOn with
  | _ n ih =>
    by_cases hn : n < 16
    · rw [Nat.toDigits_of_lt_base hn] at h
      obtain rfl := List.mem_singleton.mp h
      exact hdigit n hn
    · rw [Nat.toDigits_of_base_le (by decide) (Nat.le_of_not_lt hn)] at h
      rcases List.mem_append.mp h with h | h
      · exact ih (n / 16) (by omega) h
      · obtain rfl := List.mem_singleton.mp h
        exact hdigit (n % 16) (Nat.mod_lt n (by decide))

theorem isAlphanum_of_mem_hexUpper {c : Char} {n : Nat} (h : c ∈ (hexUpper n).toList) :
    c.isAlphanum = true := by
  rw [hexUpper, String.toList_ofList, List.leftpad, List.mem_append] at h
  rcases h with h | h
  · rw [List.eq_of_mem_replicate h]
    rfl
  · obtain ⟨d, hd, rfl⟩ := List.mem_map.mp h
    exact isAlphanum_of_mem_toDigits hd

/-- The value of a hexadecimal digit in upper case. -/
def hexDigit (c : Char) : Nat :=
  if c.isDigit then c.toNat - '0'.toNat else c.toNat - 'A'.toNat + 10

/-- The number that a hexadecimal numeral in upper case stands for. -/
def hexNumber (text : String) : Nat :=
  text.toList.foldl (fun n c => 16 * n + hexDigit c) 0

/-- The last digit is the remainder, and those before it stand for the quotient. -/
theorem foldl_hexDigit_toDigits (n : Nat) :
    ((Nat.toDigits 16 n).map Char.toUpper).foldl (fun n c => 16 * n + hexDigit c) 0 = n := by
  have hdigit : ∀ d < 16, hexDigit (Nat.digitChar d).toUpper = d := by decide
  induction n using Nat.strongRecOn with
  | _ n ih =>
    rcases Nat.lt_or_ge n 16 with hn | hn
    · rw [Nat.toDigits_of_lt_base hn]
      simpa using hdigit n hn
    · have hquotient := ih (n / 16) (by omega)
      have hremainder := hdigit (n % 16) (Nat.mod_lt n (by decide))
      rw [Nat.toDigits_of_base_le (by decide) hn, List.map_append, List.foldl_append, hquotient]
      simp only [List.map_cons, List.map_nil, List.foldl_cons, List.foldl_nil, hremainder]
      omega

theorem foldl_hexDigit_zeros (k : Nat) :
    (List.replicate k '0').foldl (fun n c => 16 * n + hexDigit c) 0 = 0 := by
  induction k with
  | zero => rfl
  | succ k ih => exact ih

/-- What is written in hexadecimal is read as the same number. -/
theorem hexNumber_hexUpper (n : Nat) : hexNumber (hexUpper n) = n := by
  rw [hexNumber, hexUpper, String.toList_ofList, List.leftpad, List.foldl_append,
    foldl_hexDigit_zeros, foldl_hexDigit_toDigits]

end Hexadecimal

end EightBit
