import EightBit.Output
import EightBit.Proofs.Encoding
import EightBit.Proofs.Numeral

/-! What a device has taken of a text that was printed on it, whole or in part, and when it refuses
the text. -/
namespace EightBit.Output

variable {δ : Type} [Device δ] {out out' : Output δ} {n : Nat}

/-- A number and the end of its line. -/
def lineOf (n : Nat) : List Char :=
  (decimal n).toList ++ ['\n']

/-- However the device splits a text, it takes a prefix of it, and all of it if printing succeeds. -/
theorem send_takes_prefix (out : Output δ) (taken : Nat) (text : List Char) :
    ∃ accepted, accepted <+: text.drop taken ∧
      (out.send taken text).2.printed = out.printed ++ String.ofList accepted ∧
      ((out.send taken text).1 = .ok () → accepted = text.drop taken) := by
  induction text generalizing out taken with
  | nil => exact ⟨[], by simp [send]⟩
  | cons c cs ih =>
    cases taken with
    | succ taken => simpa [send] using ih out taken
    | zero =>
      rcases hw : Device.write out.device (c :: cs) with ⟨(_ | k) | failure, device⟩
      · exact ⟨[], by simp [send, hw]⟩
      · obtain ⟨accepted, hp, ht, hs⟩ :=
          ih ⟨device, out.printed ++ String.ofList ((c :: cs).take (k + 1))⟩ k
        refine ⟨c :: cs.take k ++ accepted, ?_, ?_, ?_⟩
        · obtain ⟨rest, hr⟩ := hp
          exact ⟨rest, by simp [hr]⟩
        · simp only [send, hw]
          rw [ht]
          simp [String.append_assoc]
        · intro hok
          have := hs (by simpa [send, hw] using hok)
          simp [this]
      · exact ⟨[], by simp [send, hw]⟩

theorem print_takes_prefix (out : Output δ) (text : String) :
    ∃ accepted, accepted <+: text.toList ∧
      (out.print text).2.printed = out.printed ++ String.ofList accepted ∧
      ((out.print text).1 = .ok () → accepted = text.toList) :=
  send_takes_prefix out 0 text.toList

/-- The line end is only offered behind all the digits. -/
theorem printLine_takes_prefix (out : Output δ) (n : Nat) :
    ∃ accepted, accepted <+: lineOf n ∧
      (out.printLine n).2.printed = out.printed ++ String.ofList accepted ∧
      ((out.printLine n).1 = .ok () → accepted = lineOf n) := by
  obtain ⟨digits, hp, ht, hs⟩ := print_takes_prefix out (decimal n)
  rcases hd : out.print (decimal n) with ⟨failure | _, between⟩ <;> rw [hd] at ht hs
  · exact ⟨digits, hp.trans (List.prefix_append _ _), by simpa [printLine, hd] using ht,
      by simp [printLine, hd]⟩
  · obtain ⟨feed, hp', ht', hs'⟩ := print_takes_prefix between "\n"
    have hall : digits = (decimal n).toList := hs rfl
    refine ⟨digits ++ feed, ?_, ?_, ?_⟩
    · rw [hall, lineOf]
      exact (List.prefix_append_right_inj _).mpr hp'
    · simp only [printLine, hd]
      rw [ht', ht, String.ofList_append, String.append_assoc]
    · intro hok
      rw [hall, hs' (by simpa [printLine, hd] using hok)]
      rfl

/-- Prints the number, if there is one. -/
def emit (out : Output δ) : Option UInt8 → Except WriteFailure Unit × Output δ
  | none => (.ok (), out)
  | some n => out.printLine n.toNat

theorem prints_of_emit_error {prints : Option UInt8} {failure : WriteFailure}
    (h : out.emit prints = (.error failure, out')) :
    ∃ value, prints = some value ∧ out.printLine value.toNat = (.error failure, out') := by
  cases prints with
  | none => simp [emit] at h
  | some value => exact ⟨value, rfl, h⟩

/-- What is offered to the device. -/
def offered : Option UInt8 → List Char
  | none => []
  | some n => lineOf n.toNat

/-- Every character of a line is one byte. -/
theorem utf8Size_of_offered {prints : Option UInt8} {c : Char} (h : c ∈ offered prints) :
    c.utf8Size = 1 := by
  cases prints with
  | none => cases h
  | some n =>
    rcases List.mem_append.mp h with h | h
    · exact utf8Size_of_isDigit (isDigit_of_mem_decimal h)
    · obtain rfl := List.mem_singleton.mp h
      rfl

/-- The device takes the whole text, in pieces that it chooses. -/
inductive TakesText : δ → List Char → δ → Prop where
  | done {d} : TakesText d [] d
  | piece {d d' d'' : δ} {text n} (ht : text ≠ [])
      (hw : Device.write d text = (.took (n + 1), d')) (h : TakesText d' (text.drop (n + 1)) d'') :
    TakesText d text d''

theorem send_of_takesText {d d' : δ} {text : List Char} (h : TakesText d text d')
    (printed : String) :
    send ⟨d, printed⟩ 0 text = (.ok (), ⟨d', printed ++ String.ofList text⟩) := by
  induction h generalizing printed with
  | done => simp [send]
  | piece ht hw _ ih =>
    rw [send_took ht hw, ih, String.append_assoc, ← String.ofList_append, List.take_append_drop]

/-- A device that refuses nothing, now or later: it takes a piece of every text and is then again
one of the states that do. -/
def TakesAll (d : δ) : Prop :=
  ∃ P : δ → Prop, P d ∧ ∀ d text, P d → text ≠ [] →
    ∃ n d', Device.write d text = (.took (n + 1), d') ∧ P d'

theorem takesAll_write {d : δ} (h : TakesAll d) {text : List Char} (ht : text ≠ []) :
    ∃ n d', Device.write d text = (.took (n + 1), d') ∧ TakesAll d' := by
  obtain ⟨P, hd, hP⟩ := h
  obtain ⟨n, d', hw, hd'⟩ := hP d text hd ht
  exact ⟨n, d', hw, P, hd', hP⟩

theorem takesText_of_takesAll {d : δ} (h : TakesAll d) (text : List Char) :
    ∃ d', TakesText d text d' ∧ TakesAll d' := by
  induction hl : text.length using Nat.strongRecOn generalizing d text with
  | _ len ih =>
    by_cases ht : text = []
    · subst ht
      exact ⟨d, .done, h⟩
    · obtain ⟨k, d', hw, hd'⟩ := takesAll_write h ht
      have hpos := List.length_pos_iff.mpr ht
      obtain ⟨d'', htext, hd''⟩ := ih (text.drop (k + 1)).length (by simp; omega) hd' _ rfl
      exact ⟨d'', .piece ht hw htext, hd''⟩

theorem send_of_takesAll {d : δ} (h : TakesAll d) (printed : String) (text : List Char) : ∃ d',
    send ⟨d, printed⟩ 0 text = (.ok (), ⟨d', printed ++ String.ofList text⟩) ∧ TakesAll d' := by
  obtain ⟨d', htext, hd'⟩ := takesText_of_takesAll h text
  exact ⟨d', send_of_takesText htext printed, hd'⟩

/-- A device that refuses nothing prints every line in full. -/
theorem emit_of_takesAll {d : δ} (h : TakesAll d) (printed : String) (prints : Option UInt8) :
    ∃ d', emit ⟨d, printed⟩ prints =
      (.ok (), ⟨d', printed ++ String.ofList (offered prints)⟩) ∧ TakesAll d' := by
  cases prints with
  | none => exact ⟨d, by simp [emit, offered], h⟩
  | some n =>
    obtain ⟨d', hs, hd'⟩ := send_of_takesAll h printed (decimal n.toNat).toList
    obtain ⟨d'', hs', hd''⟩ := send_of_takesAll hd'
      (printed ++ String.ofList (decimal n.toNat).toList) "\n".toList
    refine ⟨d'', ?_, hd''⟩
    rw [emit, printLine, print, hs]
    simp only [print]
    rw [hs', String.append_assoc, ← String.ofList_append]
    rfl

/-- The device refuses the text, or what is left of it behind some pieces. It also fails if it takes
nothing. -/
inductive Refuses : δ → List Char → WriteFailure → Prop where
  | now {d d' : δ} {text failure} (ht : text ≠ [])
      (hw : Device.write d text = (.refused failure, d')) : Refuses d text failure
  | nothing {d d' : δ} {text} (ht : text ≠ []) (hw : Device.write d text = (.took 0, d')) :
    Refuses d text .writeZero
  | later {d d' : δ} {text failure n} (ht : text ≠ [])
      (hw : Device.write d text = (.took (n + 1), d'))
      (h : Refuses d' (text.drop (n + 1)) failure) : Refuses d text failure

/-- The device refuses the number, or the end of its line. -/
def RefusesLine (d : δ) (n : Nat) (failure : WriteFailure) : Prop :=
  Refuses d (decimal n).toList failure ∨
    ∃ d', TakesText d (decimal n).toList d' ∧ Refuses d' ['\n'] failure

theorem takes_or_refuses (d : δ) (text : List Char) :
    (∃ d', TakesText d text d') ∨ ∃ failure, Refuses d text failure := by
  induction hl : text.length using Nat.strongRecOn generalizing d text with
  | _ len ih =>
    by_cases ht : text = []
    · subst ht
      exact .inl ⟨d, .done⟩
    have hpos := List.length_pos_iff.mpr ht
    rcases hw : Device.write d text with ⟨(_ | k) | failure, d'⟩
    · exact .inr ⟨_, .nothing ht hw⟩
    · rcases ih (text.drop (k + 1)).length (by simp; omega) d' _ rfl with ⟨d'', h⟩ | ⟨failure, h⟩
      · exact .inl ⟨d'', .piece ht hw h⟩
      · exact .inr ⟨failure, .later ht hw h⟩
    · exact .inr ⟨failure, .now ht hw⟩

theorem send_of_refuses {d : δ} {text : List Char} {failure : WriteFailure}
    (h : Refuses d text failure) (printed : String) :
    (send ⟨d, printed⟩ 0 text).1 = .error failure := by
  induction h generalizing printed with
  | now ht hw =>
    obtain ⟨c, cs, rfl⟩ := List.exists_cons_of_ne_nil ht
    simp [send, hw]
  | nothing ht hw =>
    obtain ⟨c, cs, rfl⟩ := List.exists_cons_of_ne_nil ht
    simp [send, hw]
  | later ht hw _ ih =>
    rw [send_took ht hw]
    exact ih _

/-- The line end is not tried behind a number that is refused. -/
theorem printLine_of_refuses {failure : WriteFailure}
    (h : Refuses out.device (decimal n).toList failure) :
    (out.printLine n).1 = .error failure := by
  have hs : (out.print (decimal n)).1 = .error failure := send_of_refuses h out.printed
  rcases hp : out.print (decimal n) with ⟨failure' | _, between⟩
  · rw [hp] at hs
    cases hs
    simp [printLine, hp]
  · rw [hp] at hs
    cases hs

theorem printLine_of_takesText {d' : δ} (h : TakesText out.device (decimal n).toList d') :
    ∃ printed, out.printLine n = send ⟨d', printed⟩ 0 ['\n'] := by
  refine ⟨out.printed ++ String.ofList (decimal n).toList, ?_⟩
  rw [printLine, print, send_of_takesText h out.printed]
  rfl

/-- Printing a line fails as the device refuses it. -/
theorem printLine_eq_error_iff {failure : WriteFailure} :
    (out.printLine n).1 = .error failure ↔ RefusesLine out.device n failure := by
  constructor
  · intro hfail
    rcases takes_or_refuses out.device (decimal n).toList with ⟨d', h⟩ | ⟨failure', h⟩
    · obtain ⟨printed, hp⟩ := printLine_of_takesText h
      rcases takes_or_refuses d' ['\n'] with ⟨d'', h'⟩ | ⟨failure', h'⟩
      · rw [hp, send_of_takesText h'] at hfail
        cases hfail
      · rw [hp, send_of_refuses h'] at hfail
        cases hfail
        exact .inr ⟨d', h, h'⟩
    · rw [printLine_of_refuses h] at hfail
      cases hfail
      exact .inl h
  · rintro (h | ⟨d', h, h'⟩)
    · exact printLine_of_refuses h
    · obtain ⟨printed, hp⟩ := printLine_of_takesText h
      rw [hp]
      exact send_of_refuses h' printed

end EightBit.Output
