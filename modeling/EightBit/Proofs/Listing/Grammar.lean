import EightBit.Proofs.Encoding
import EightBit.Proofs.Listing.Loading
import Mathlib.Algebra.Group.Nat.Defs

/-! Which listings load, told against the documented grammar of listings. -/
namespace EightBit

def Binary (cs : List Char) : Prop :=
  ∀ c ∈ cs, c = '0' ∨ c = '1'

variable {c : Char} {cs ds : List Char} {n value : Nat}

theorem digit?_two_eq_some_iff : digit? 2 c = some n ↔ c = '0' ∧ n = 0 ∨ c = '1' ∧ n = 1 := by
  have hc (d : Char) : c = d ↔ c.toNat = d.toNat := by
    constructor
    · rintro rfl
      rfl
    · intro h
      exact Char.ext (UInt32.toNat_inj.mp h)
  have h0 : '0'.toNat = 48 := rfl
  have h1 : '1'.toNat = 49 := rfl
  rw [hc, hc, digit?, h0, h1]
  split
  · rw [Option.some.injEq]
    omega
  · simp only [reduceCtorEq, false_iff]
    omega

/-- Reading digits multiplies what was read before by a power of two. -/
theorem digits?_two_eq_some (h : Binary cs) :
    ∃ v, digits? 2 n cs = some v ∧ v < (n + 1) * 2 ^ cs.length := by
  induction cs generalizing n with
  | nil => exact ⟨n, rfl, by simp⟩
  | cons c cs ih =>
    have hcs : Binary cs := fun d hd => h d (List.mem_cons_of_mem _ hd)
    obtain ⟨d, hd, hlt⟩ : ∃ d, digit? 2 c = some d ∧ d < 2 := by
      rcases h c List.mem_cons_self with rfl | rfl
      · exact ⟨0, rfl, by omega⟩
      · exact ⟨1, rfl, by omega⟩
    obtain ⟨v, hv, hb⟩ := ih (n := n * 2 + d) hcs
    refine ⟨v, by rw [digits?, hd]; exact hv, Nat.lt_of_lt_of_le hb ?_⟩
    calc (n * 2 + d + 1) * 2 ^ cs.length
      _ ≤ (n + 1) * 2 * 2 ^ cs.length := Nat.mul_le_mul_right _ (by omega)
      _ = (n + 1) * 2 ^ (cs.length + 1) := by rw [Nat.mul_assoc, Nat.pow_succ']

theorem binary_of_digits? (h : digits? 2 n cs = some value) : Binary cs := by
  induction cs generalizing n with
  | nil => intro c hc; cases hc
  | cons c cs ih =>
    rw [digits?] at h
    split at h
    next d hd =>
      intro e he
      rcases List.mem_cons.mp he with rfl | he
      · rcases digit?_two_eq_some_iff.mp hd with ⟨hc, _⟩ | ⟨hc, _⟩
        · exact .inl hc
        · exact .inr hc
      · exact ih h e he
    next => cases h

theorem isSome_digits?_iff (hl : cs.length ≤ 8) :
    ((digits? 2 0 cs).filter (· < 256)).isSome = true ↔ Binary cs := by
  constructor
  · intro h
    obtain ⟨v, hv⟩ := Option.isSome_iff_exists.mp h
    exact binary_of_digits? (Option.filter_eq_some_iff.mp hv).1
  · intro h
    obtain ⟨v, hv, hb⟩ := digits?_two_eq_some (n := 0) h
    have hp : 2 ^ cs.length ≤ 2 ^ 8 := Nat.pow_le_pow_right (by omega) hl
    have hlt : v < 256 := by omega
    simp [hv, hlt]

theorem unsigned?_of_ne_plus (hp : ∀ ds, cs ≠ '+' :: ds) : unsigned? 2 256 cs =
    if cs.isEmpty then none else (digits? 2 0 cs).filter (· < 256) := by
  unfold unsigned?
  split
  next ds => exact absurd rfl (hp ds)
  next => rfl

theorem utf8ByteSize_of_binary (h : Binary cs) : (String.ofList cs).utf8ByteSize = cs.length := by
  refine utf8ByteSize_of_single fun c hc => ?_
  rcases h c hc with rfl | rfl <;> rfl

namespace Listing

/-- At least one and at most so many binary digits. -/
def Numeral (most : Nat) (t : List Char) : Prop :=
  t ≠ [] ∧ t.length ≤ most ∧ Binary t

/-- A plus sign before a numeral, in eight characters. -/
def Signed (t : List Char) : Prop :=
  ∃ ds, t = '+' :: ds ∧ Numeral 7 ds

/-- The tokens of the lines that are neither blank nor a comment only. -/
def marks (text : List Char) : List (List Char) :=
  (tokens text).filter (· ≠ [])

/-- The documented grammar, for a number of cells. -/
def Documented (size : Nat) (text : List Char) : Prop :=
  (∀ t ∈ marks text, Numeral 8 t) ∧ (marks text).length ≤ size

variable {size : Nat} {t : List Char} {text : List Char}

theorem good_plus_iff : Good ('+' :: t) ↔ Numeral 7 t := by
  have hu : unsigned? 2 256 ('+' :: t) =
      if t.isEmpty then none else (digits? 2 0 t).filter (· < 256) := rfl
  have hp : '+'.utf8Size = 1 := rfl
  rw [Good, utf8ByteSize_cons, hp, hu]
  constructor
  · rintro ⟨hl, hs⟩
    have hlen : t.length ≤ 7 := by
      have hbytes : t.length ≤ (String.ofList t).utf8ByteSize := length_le_utf8ByteSize
      omega
    by_cases hne : t = []
    · simp [hne] at hs
    · simp only [List.isEmpty_iff, if_neg hne] at hs
      exact ⟨hne, hlen, (isSome_digits?_iff (by omega)).mp hs⟩
  · rintro ⟨hne, hlen, hb⟩
    refine ⟨by rw [utf8ByteSize_of_binary hb]; omega, ?_⟩
    simp only [List.isEmpty_iff, if_neg hne]
    exact (isSome_digits?_iff (by omega)).mpr hb

theorem good_iff_of_ne_plus (hp : ∀ ds, t ≠ '+' :: ds) : Good t ↔ Numeral 8 t := by
  rw [Good, unsigned?_of_ne_plus hp]
  constructor
  · rintro ⟨hl, hs⟩
    have hlen : t.length ≤ 8 := Nat.le_trans length_le_utf8ByteSize hl
    by_cases hne : t = []
    · simp [hne] at hs
    · simp only [List.isEmpty_iff, if_neg hne] at hs
      exact ⟨hne, hlen, (isSome_digits?_iff hlen).mp hs⟩
  · rintro ⟨hne, hlen, hb⟩
    refine ⟨by rwa [utf8ByteSize_of_binary hb], ?_⟩
    simp only [List.isEmpty_iff, if_neg hne]
    exact (isSome_digits?_iff hlen).mpr hb

theorem not_numeral_of_signed (h : Signed t) : ¬ Numeral 8 t := by
  obtain ⟨ds, rfl, _⟩ := h
  rintro ⟨_, _, hb⟩
  have := hb '+' List.mem_cons_self
  simp at this

theorem good_iff : Good t ↔ Numeral 8 t ∨ Signed t := by
  by_cases hp : ∃ ds, t = '+' :: ds
  · obtain ⟨ds, rfl⟩ := hp
    rw [good_plus_iff]
    constructor
    · intro h
      exact .inr ⟨ds, rfl, h⟩
    · rintro (⟨_, _, hb⟩ | ⟨_, he, h⟩)
      · have := hb '+' List.mem_cons_self
        simp at this
      · cases he
        exact h
  · rw [good_iff_of_ne_plus fun ds he => hp ⟨ds, he⟩]
    constructor
    · exact .inl
    · rintro (h | ⟨ds, he, _⟩)
      · exact h
      · exact absurd ⟨ds, he⟩ hp

/-- Without bad tokens, the good tokens are all that are not empty. -/
theorem goodCount_eq_length_marks (h : ∀ t ∈ tokens text, t ≠ [] → Good t) :
    goodCount (tokens text) = (marks text).length := by
  rw [goodCount, marks, List.countP_eq_length_filter]
  congr 1
  apply List.filter_congr
  intro t ht
  have hne : Good t ↔ t ≠ [] := by
    constructor
    · rintro hg rfl
      exact not_good_nil hg
    · exact h t ht
  simp [hne]

variable {memory : Memory size} {log : Log}

theorem load_ok_iff : (∃ loaded, (load text memory log).1 = .ok loaded) ↔
    (∀ t ∈ marks text, Numeral 8 t ∨ Signed t) ∧ (marks text).length ≤ size := by
  have hm : (∀ t ∈ marks text, Numeral 8 t ∨ Signed t) ↔ ∀ t ∈ tokens text, t ≠ [] → Good t := by
    simp only [marks, List.mem_filter, decide_eq_true_eq, and_imp, good_iff]
  have ho : (∃ loaded, (load text memory log).1 = .ok loaded) ↔
      offences size (tokens text) = [] := by
    by_cases h : offences size (tokens text) = []
    · simp [load_eq_ok h, h]
    · simp [load_eq_error h, h]
  rw [ho, hm, offences_eq_nil_iff]
  constructor
  · rintro ⟨hg, hs⟩
    exact ⟨hg, goodCount_eq_length_marks hg ▸ hs⟩
  · rintro ⟨hg, hs⟩
    exact ⟨hg, (goodCount_eq_length_marks hg).symm ▸ hs⟩

/-- A listing loads if its tokens are numerals, some of them perhaps behind a plus sign, and fit.
The documented grammar is met but for listings that load with such a sign. -/
theorem load_ok_iff_documented (text : List Char) (memory : Memory size) (log : Log) :
    ((∃ loaded, (load text memory log).1 = .ok loaded) ↔
      (∀ t ∈ marks text, Numeral 8 t ∨ Signed t) ∧ (marks text).length ≤ size) ∧
    (((∃ loaded, (load text memory log).1 = .ok loaded) ↔ Documented size text) ↔
      ¬ ((∀ t ∈ marks text, Numeral 8 t ∨ Signed t) ∧ (marks text).length ≤ size ∧
        ∃ t ∈ marks text, Signed t)) := by
  refine ⟨load_ok_iff, ?_⟩
  rw [load_ok_iff]
  constructor
  · rintro h ⟨ht, hs, t, hm, hsigned⟩
    exact not_numeral_of_signed hsigned ((h.mp ⟨ht, hs⟩).1 t hm)
  · intro h
    constructor
    · rintro ⟨ht, hs⟩
      refine ⟨fun t hm => ?_, hs⟩
      rcases ht t hm with hn | hsigned
      · exact hn
      · exact absurd ⟨ht, hs, t, hm, hsigned⟩ h
    · rintro ⟨hn, hs⟩
      exact ⟨fun t hm => .inl (hn t hm), hs⟩

theorem signed_listing_loads :
    ¬ ((∃ loaded, (load ['+', '1'] (Memory.filled 0 : Memory 1) (.empty .off)).1 = .ok loaded) ↔
      Documented 1 ['+', '1']) := by
  have hm : marks ['+', '1'] = [['+', '1']] := rfl
  have hd : ¬ Documented 1 ['+', '1'] := by
    rintro ⟨hn, _⟩
    rw [hm] at hn
    have hsigned : Signed ['+', '1'] := ⟨['1'], rfl, by simp [Numeral, Binary]⟩
    exact not_numeral_of_signed hsigned (hn _ List.mem_cons_self)
  have hl : (load ['+', '1'] (Memory.filled 0 : Memory 1) (.empty .off)).1 =
    .ok (Memory.filled 1) := rfl
  intro h
  exact hd (h.mp ⟨_, hl⟩)

end Listing
end EightBit
