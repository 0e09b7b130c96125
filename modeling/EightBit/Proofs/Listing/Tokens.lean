import EightBit.Proofs.Listing.Loading
import Mathlib.Data.List.TakeWhile

/-! The tokens of a text, line by line. Line ends, blanks and comments take no part in them. -/
namespace EightBit

namespace Text

/-- What ends a line. -/
inductive LineEnd where
  | feed
  | returnFeed
  deriving DecidableEq

def LineEnd.chars : LineEnd → List Char
  | feed => ['\n']
  | returnFeed => ['\r', '\n']

/-- Nothing but blanks. -/
def Blank (cs : List Char) : Prop :=
  ∀ c ∈ cs, isBlank c = true

/-- Nothing but complete lines. -/
def Complete (cs : List Char) : Prop :=
  cs = [] ∨ ∃ ds, cs = ds ++ ['\n']

variable {blanks cs line : List Char}

theorem trim_blank_append (h : Blank blanks) : trim (blanks ++ cs) = trim cs := by
  have hleft : trimLeft (blanks ++ cs) = trimLeft cs := List.dropWhile_append_of_pos h
  rw [trim, hleft, trim]

theorem trim_append_blank (h : Blank blanks) : trim (cs ++ blanks) = trim cs := by
  have hrev : Blank blanks.reverse := fun c hc => h c (List.mem_reverse.mp hc)
  simp only [trim, trimLeft, List.dropWhile_append]
  split
  next hnil =>
    rw [List.isEmpty_iff.mp hnil, List.dropWhile_eq_nil_iff.mpr h]
  next =>
    rw [List.reverse_append, List.dropWhile_append_of_pos hrev]

/-- Without blanks there is nothing to drop. -/
theorem trim_of_no_blank (h : ∀ c ∈ cs, isBlank c = false) : trim cs = cs := by
  have hleft : ∀ ds : List Char, (∀ c ∈ ds, isBlank c = false) → trimLeft ds = ds := by
    intro ds hds
    cases ds with
    | nil => rfl
    | cons c ds => rw [trimLeft, List.dropWhile_cons_of_neg (by simp [hds c List.mem_cons_self])]
  rw [trim, hleft cs h, hleft cs.reverse fun c hc => h c (List.mem_reverse.mp hc),
    List.reverse_reverse]

theorem Blank.number_sign_not_mem (h : Blank blanks) : '#' ∉ blanks := by
  intro hm
  cases h _ hm

/-- Every text is some complete lines and the beginning of one more line. -/
theorem exists_last_line (cs : List Char) :
    ∃ before line, cs = before ++ line ∧ Complete before ∧ '\n' ∉ line := by
  induction cs using List.reverseRecOn with
  | nil => exact ⟨[], [], rfl, .inl rfl, by simp⟩
  | append_singleton cs c ih =>
    obtain ⟨before, line, rfl, hb, hn⟩ := ih
    by_cases hc : c = '\n'
    · exact ⟨before ++ line ++ [c], [], by simp, .inr ⟨_, by rw [hc]⟩, by simp⟩
    · exact ⟨before, line ++ [c], by simp, hb, by simp [hn, Ne.symm hc]⟩

theorem lines_append_of_complete {before : List Char} (h : Complete before) (cs : List Char) :
    lines (before ++ cs) = lines before ++ lines cs := by
  obtain rfl | ⟨ds, rfl⟩ := h
  · rfl
  suffices ∀ done line, linesFrom done line (ds ++ ['\n'] ++ cs) =
      linesFrom done line (ds ++ ['\n']) ++ lines cs from this [] []
  induction ds with
  | nil =>
    intro done line
    simp [linesFrom, lines, linesFrom_eq_append (endLine line :: done) [] cs]
  | cons d ds ih =>
    intro done line
    simp only [List.cons_append, linesFrom]
    split
    · exact ih _ _
    · exact ih _ _

end Text

namespace Listing

open Text

/-- Blanks, and perhaps a comment behind them. -/
inductive Remark : List Char → Prop where
  | blank {blanks} (h : Blank blanks) : Remark blanks
  | comment {blanks} (text : List Char) (h : Blank blanks) : Remark (blanks ++ '#' :: text)

variable {blanks cs line before : List Char}

theorem token_nil : token [] = [] := rfl

/-- What stands behind a number sign plays no part, whatever stands before it. -/
theorem token_append_comment (cs text : List Char) : token (cs ++ '#' :: text) = token cs := by
  have htake : (cs ++ '#' :: text).takeWhile (· ≠ '#') = cs.takeWhile (· ≠ '#') := by
    rw [List.takeWhile_append]
    split
    next hall =>
      have hself := (List.takeWhile_prefix _).eq_of_length hall
      rw [List.takeWhile_cons_of_neg (by simp), List.append_nil, hself]
    next => rfl
  rw [token, htake, token]

/-- Without a number sign there is no comment to cut off. -/
theorem takeWhile_of_not_mem (h : '#' ∉ cs) : cs.takeWhile (· ≠ '#') = cs := by
  refine List.takeWhile_eq_self_iff.mpr fun c hc => decide_eq_true ?_
  rintro rfl
  exact h hc

theorem token_blank_append (h : Blank blanks) : token (blanks ++ cs) = token cs := by
  have hsign : ∀ c ∈ blanks, decide (c ≠ '#') = true := by
    intro c hc
    refine decide_eq_true ?_
    rintro rfl
    exact h.number_sign_not_mem hc
  rw [token, List.takeWhile_append_of_pos hsign, trim_blank_append h, token]

theorem token_append_blank (h : Blank blanks) : token (cs ++ blanks) = token cs := by
  by_cases hm : '#' ∈ cs
  · obtain ⟨as, bs, rfl⟩ := List.append_of_mem hm
    rw [List.append_assoc, List.cons_append, token_append_comment, token_append_comment]
  · have hboth : '#' ∉ cs ++ blanks := by simp [hm, h.number_sign_not_mem]
    rw [token, takeWhile_of_not_mem hboth, trim_append_blank h, token, takeWhile_of_not_mem hm]

theorem token_append_remark (cs : List Char) {remark : List Char} (h : Remark remark) :
    token (cs ++ remark) = token cs := by
  cases h with
  | blank h => exact token_append_blank h
  | comment _ h => rw [← List.append_assoc, token_append_comment, token_append_blank h]

theorem token_of_remark {remark : List Char} (h : Remark remark) : token remark = [] :=
  token_append_remark [] h

theorem blank_return : Blank ['\r'] := by
  intro c hc
  obtain rfl := List.mem_singleton.mp hc
  rfl

/-- The carriage return of a line end is a blank behind the token. -/
theorem token_endLine (line : List Char) : token (endLine line.reverse) = token line := by
  unfold endLine
  split
  next cs h =>
    have hline : line = cs.reverse ++ ['\r'] := by simpa using congrArg List.reverse h
    rw [hline, token_append_blank blank_return]
  next => rw [List.reverse_reverse]

theorem tokens_of_not_mem (h : '\n' ∉ line) :
    tokens line = if line.isEmpty then [] else [token line] := by
  rw [tokens, lines_of_not_mem h]
  split <;> rfl

theorem tokens_line (h : '\n' ∉ line) (e : LineEnd) (cs : List Char) :
    tokens (line ++ (e.chars ++ cs)) = token line :: tokens cs := by
  cases e with
  | feed =>
    show tokens (line ++ '\n' :: cs) = _
    rw [tokens, lines_append_newline h, List.map_cons, token_endLine, tokens]
  | returnFeed =>
    have hreturn : '\n' ∉ line ++ ['\r'] := by simp [h]
    have hcut : line ++ (LineEnd.returnFeed.chars ++ cs) = (line ++ ['\r']) ++ '\n' :: cs := by
      simp [LineEnd.chars]
    rw [hcut, tokens, lines_append_newline hreturn, List.map_cons, token_endLine,
      token_append_blank blank_return, tokens]

theorem tokens_append_of_complete (h : Complete before) (cs : List Char) :
    tokens (before ++ cs) = tokens before ++ tokens cs := by
  rw [tokens, lines_append_of_complete h, List.map_append, tokens, tokens]

end Listing
end EightBit
