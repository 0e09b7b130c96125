import EightBit.Proofs.Listing.Tokens

/-! Changes to the layout and the comments of a listing. They change nothing about what is loaded
but the line numbers of errors. -/
namespace EightBit

theorem mapError_mapError {ε ε' ε'' α : Type} (x : Except ε α) (f : ε → ε') (g : ε' → ε'') :
    (x.mapError f).mapError g = x.mapError fun err => g (f err) := by
  cases x <;> rfl

namespace Listing

open Text

/-- The number that a line has after another one was inserted behind the first `k` lines. -/
def displaced (k line : Nat) : Nat :=
  if line ≤ k then line else line + 1

/-- Changes of a line around its token. -/
inductive Retouched : List Char → List Char → Prop where
  | comment (line text : List Char) : Retouched line (line ++ '#' :: text)
  | newComment (line old new : List Char) : Retouched (line ++ '#' :: old) (line ++ '#' :: new)
  /-- Blanks are added behind nothing but blanks. -/
  | before (indent rest : List Char) {blanks} (hi : Blank indent) (h : Blank blanks) :
    Retouched (indent ++ rest) (indent ++ (blanks ++ rest))
  /-- Blanks are added before nothing but blanks and perhaps a comment. -/
  | behind (start : List Char) {remark blanks} (hr : Remark remark) (h : Blank blanks) :
    Retouched (start ++ remark) (start ++ (blanks ++ remark))

/-- A change of a text, with the new numbers of its lines. -/
inductive Edit : List Char → List Char → (Nat → Nat) → Prop where
  | insert (before after : List Char) {line} (e : LineEnd) (hb : Complete before)
      (hr : Remark line) (hn : '\n' ∉ line) :
    Edit (before ++ after) (before ++ (line ++ (e.chars ++ after)))
      (displaced (lines before).length)
  /-- A line that is inserted behind the last one needs no end, and moves no other line. -/
  | insertLast {before line} (hb : Complete before) (hr : Remark line) (hn : '\n' ∉ line) :
    Edit before (before ++ line) id
  /-- Ends the last line, or inserts an empty one behind it. -/
  | finish {text} (e : LineEnd) : Edit text (text ++ e.chars) id
  | lineEnd (before after : List Char) (e e' : LineEnd) :
    Edit (before ++ (e.chars ++ after)) (before ++ (e'.chars ++ after)) id
  | line (before line line' after : List Char) (hb : Complete before)
      (ha : after = [] ∨ ∃ (e : LineEnd) (rest : List Char), after = e.chars ++ rest)
      (hn : '\n' ∉ line) (hn' : '\n' ∉ line') (h : Retouched line line') :
    Edit (before ++ (line ++ after)) (before ++ (line' ++ after)) id

/-- Any number of changes, one after the other. -/
inductive Edits : List Char → List Char → (Nat → Nat) → Prop where
  | refl {text} : Edits text text id
  | tail {text text' text'' shift shift'} (h : Edits text text' shift)
      (he : Edit text' text'' shift') : Edits text text'' fun line => shift' (shift line)

variable {size : Nat} {text text' before after line line' : List Char} {shift : Nat → Nat}
  {ts us : List (List Char)} {memory : Memory size}

/-- What loading answers, given the tokens of the lines. -/
def answer (memory : Memory size) (ts : List (List Char)) : Except (List Error) (Memory size) :=
  if offences size ts = [] then .ok (memory.place 0 (bytes ts)) else .error (offences size ts)

theorem load_eq_answer (text : List Char) (memory : Memory size) (log : Log) :
    (load text memory log).1 = answer memory (tokens text) := by
  unfold answer
  split
  next h => rw [load_eq_ok h]
  next h => rw [load_eq_error h]

def renumber (shift : Nat → Nat) (e : Error) : Error :=
  { e with line := shift e.line }

/-- Errors that keep their line numbers are the same errors. -/
theorem mapError_renumber_id (x : Except (List Error) (Memory size)) :
    x.mapError (List.map (renumber id)) = x := by
  have hsame : List.map (renumber id) = id := funext fun errors => List.map_id' errors
  rw [hsame]
  cases x <;> rfl

theorem goodCount_insert : goodCount (ts ++ [] :: us) = goodCount (ts ++ us) := by
  simp [goodCount, not_good_nil]

theorem bytes_insert : bytes (ts ++ [] :: us) = bytes (ts ++ us) := by
  simp [bytes, not_good_nil]

theorem offences_concat_nil : offences size (ts ++ [[]]) = offences size ts := by
  rw [offences_concat, offence?_eq_none_iff.mpr (.inl rfl)]
  simp

/-- An empty token is no error and counts as a line. -/
theorem offences_insert : offences size (ts ++ [] :: us) =
    (offences size (ts ++ us)).map (renumber (displaced ts.length)) := by
  induction us using List.reverseRecOn with
  | nil =>
    rw [offences_concat_nil, List.append_nil, List.map_congr_left (g := fun e => e), List.map_id']
    intro e he
    obtain ⟨k, t, hk, hline, _⟩ := mem_offences_iff.mp he
    have hlt := (List.getElem?_eq_some_iff.mp hk).1
    have hle : e.line ≤ ts.length := by omega
    simp [renumber, displaced, hle]
  | append_singleton us t ih =>
    have hleft : ts ++ [] :: (us ++ [t]) = (ts ++ [] :: us) ++ [t] := by simp
    have hright : ts ++ (us ++ [t]) = (ts ++ us) ++ [t] := by simp
    have hline : displaced ts.length ((ts ++ us).length + 1) = (ts ++ [] :: us).length + 1 := by
      have hlt : ¬ (ts ++ us).length + 1 ≤ ts.length := by
        rw [List.length_append]
        omega
      rw [displaced, if_neg hlt]
      simp [Nat.add_assoc]
    rw [hleft, offences_concat, ih, hright, offences_concat, List.map_append, goodCount_insert]
    cases offence? size (goodCount (ts ++ us)) t with
    | none => rfl
    | some p =>
      simp only [Option.map_some, Option.toList_some, List.map_cons, List.map_nil, renumber, hline]

theorem answer_insert : answer memory (ts ++ [] :: us) =
    (answer memory (ts ++ us)).mapError (List.map (renumber (displaced ts.length))) := by
  simp only [answer, bytes_insert, offences_insert, List.map_eq_nil_iff]
  split <;> rfl

theorem answer_concat_nil : answer memory (ts ++ [[]]) = answer memory ts := by
  simp only [answer, offences_concat_nil, bytes_insert, List.append_nil]

theorem token_of_retouched (h : Retouched line line') : token line' = token line := by
  cases h with
  | comment => exact token_append_comment _ _
  | newComment => rw [token_append_comment, token_append_comment]
  | before _ _ hi h =>
    rw [token_blank_append hi, token_blank_append h, token_blank_append hi]
  | behind _ hr h =>
    rw [token_append_remark _ hr, ← List.append_assoc, token_append_remark _ hr,
      token_append_blank h]

/-- The tokens of a text after an end for its last line. -/
def rows (text : List Char) : List (List Char) :=
  tokens (text ++ ['\n'])

theorem rows_append_of_complete (h : Complete before) (cs : List Char) :
    rows (before ++ cs) = tokens before ++ rows cs := by
  rw [rows, List.append_assoc, tokens_append_of_complete h, rows]

theorem rows_line (h : '\n' ∉ line) (e : LineEnd) (cs : List Char) :
    rows (line ++ (e.chars ++ cs)) = token line :: rows cs := by
  rw [rows, List.append_assoc, List.append_assoc, tokens_line h, rows]

theorem rows_of_not_mem (h : '\n' ∉ line) : rows line = [token line] :=
  tokens_line h .feed []

theorem rows_nil : rows [] = [[]] :=
  rows_of_not_mem (by simp)

/-- The end of the last line can add no more than an empty token. -/
theorem rows_eq (text : List Char) : rows text = tokens text ∨ rows text = tokens text ++ [[]] := by
  obtain ⟨before, line, rfl, hb, hn⟩ := exists_last_line text
  rw [rows_append_of_complete hb, tokens_append_of_complete hb, rows_of_not_mem hn,
    tokens_of_not_mem hn]
  cases line with
  | nil => exact .inr (by simp [token_nil])
  | cons => exact .inl rfl

theorem rows_finish (text : List Char) (e : LineEnd) : rows (text ++ e.chars) = rows text ++ [[]] := by
  obtain ⟨before, line, rfl, hb, hn⟩ := exists_last_line text
  have hend : line ++ e.chars = line ++ (e.chars ++ []) := by simp
  rw [List.append_assoc, rows_append_of_complete hb, hend, rows_line hn,
    rows_append_of_complete hb, rows_of_not_mem hn, rows_nil, List.append_assoc,
    List.singleton_append]

/-- An edit inserts an empty token or appends one, or it keeps all tokens. -/
theorem rows_of_edit (h : Edit text text' shift) :
    (∃ ts us, rows text = ts ++ us ∧ rows text' = ts ++ [] :: us ∧ shift = displaced ts.length) ∨
    (rows text' = rows text ++ [[]] ∧ shift = id) ∨ (rows text' = rows text ∧ shift = id) := by
  cases h with
  | insert before after e hb hr hn =>
    refine .inl ⟨tokens before, rows after, rows_append_of_complete hb _, ?_, ?_⟩
    · rw [rows_append_of_complete hb, rows_line hn, token_of_remark hr]
    · rw [tokens, List.length_map]
  | insertLast hb hr hn =>
    have hempty := rows_append_of_complete hb []
    rw [List.append_nil] at hempty
    refine .inr (.inr ⟨?_, rfl⟩)
    rw [rows_append_of_complete hb, rows_of_not_mem hn, token_of_remark hr, hempty, rows_nil]
  | finish e => exact .inr (.inl ⟨rows_finish text e, rfl⟩)
  | lineEnd before after e e' =>
    obtain ⟨start, line, rfl, hb, hn⟩ := exists_last_line before
    refine .inr (.inr ⟨?_, rfl⟩)
    rw [List.append_assoc, List.append_assoc, rows_append_of_complete hb,
      rows_append_of_complete hb, rows_line hn, rows_line hn]
  | line before line line' after hb ha hn hn' h =>
    refine .inr (.inr ⟨?_, rfl⟩)
    rw [rows_append_of_complete hb, rows_append_of_complete hb]
    obtain rfl | ⟨e, rest, rfl⟩ := ha
    · rw [List.append_nil, List.append_nil, rows_of_not_mem hn, rows_of_not_mem hn',
        token_of_retouched h]
    · rw [rows_line hn, rows_line hn', token_of_retouched h]

theorem answer_rows (text : List Char) : answer memory (rows text) = answer memory (tokens text) := by
  rcases rows_eq text with h | h
  · rw [h]
  · rw [h, answer_concat_nil]

theorem getElem?_rows {t : List Char} (ht : t ≠ []) (k : Nat) :
    (rows text)[k]? = some t ↔ (tokens text)[k]? = some t := by
  rcases rows_eq text with h | h
  · rw [h]
  · rw [h, List.getElem?_append]
    split
    next => rfl
    next hk =>
      rw [List.getElem?_eq_none (Nat.le_of_not_lt hk)]
      constructor
      · intro hlast
        have := List.mem_of_getElem? hlast
        exact absurd (List.mem_singleton.mp this) ht
      · intro hnone
        cases hnone

theorem answer_of_edit (h : Edit text text' shift) : answer memory (tokens text') =
    (answer memory (tokens text)).mapError (List.map (renumber shift)) := by
  rw [← answer_rows text, ← answer_rows text']
  rcases rows_of_edit h with ⟨ts, us, ht, ht', rfl⟩ | ⟨ht', rfl⟩ | ⟨ht', rfl⟩
  · rw [ht, ht', answer_insert]
  · rw [ht', answer_concat_nil, mapError_renumber_id]
  · rw [ht', mapError_renumber_id]

/-- A line with a token is found again under its new number. -/
theorem exists_token_of_edit (h : Edit text text' shift) {k : Nat} {t : List Char} (ht : t ≠ [])
    (hk : (tokens text)[k]? = some t) :
    ∃ k', shift (k + 1) = k' + 1 ∧ (tokens text')[k']? = some t := by
  simp only [← getElem?_rows ht] at hk ⊢
  rcases rows_of_edit h with ⟨ts, us, hrows, hrows', rfl⟩ | ⟨hrows', rfl⟩ | ⟨hrows', rfl⟩
  · rw [hrows] at hk
    rw [hrows']
    by_cases hlt : k < ts.length
    · refine ⟨k, if_pos hlt, ?_⟩
      rw [List.getElem?_append_left hlt] at hk ⊢
      exact hk
    · have hge : ts.length ≤ k := Nat.le_of_not_lt hlt
      refine ⟨k + 1, if_neg (by omega), ?_⟩
      rw [List.getElem?_append_right hge] at hk
      rw [List.getElem?_append_right (by omega), Nat.succ_sub hge, List.getElem?_cons_succ]
      exact hk
  · have hlt := (List.getElem?_eq_some_iff.mp hk).1
    refine ⟨k, rfl, ?_⟩
    rw [hrows', List.getElem?_append_left hlt]
    exact hk
  · exact ⟨k, rfl, hrows' ▸ hk⟩

/-- However its layout and its comments are changed, a listing loads the same memory, or it has the
same errors in the same order, each with the new number of its line. This is the number under which
the token of the line is found again. -/
theorem load_of_edits (h : Edits text text' shift) :
    (∀ (size : Nat) (memory : Memory size) (log log' : Log), (load text' memory log').1 =
      (load text memory log).1.mapError (List.map fun e => { e with line := shift e.line })) ∧
    ∀ k t, (tokens text)[k]? = some t → t ≠ [] →
      ∃ k', shift (k + 1) = k' + 1 ∧ (tokens text')[k']? = some t := by
  simp only [load_eq_answer]
  induction h with
  | refl =>
    constructor
    · intro size memory _ _
      exact (mapError_renumber_id _).symm
    · intro k t hk _
      exact ⟨k, rfl, hk⟩
  | @tail text' text'' shift shift' _ he ih =>
    obtain ⟨hanswer, htokens⟩ := ih
    constructor
    · intro size memory log log'
      rw [answer_of_edit he, hanswer size memory log log', mapError_mapError]
      simp [renumber, Function.comp_def]
    · intro k t hk ht
      obtain ⟨j, hj, hmid⟩ := htokens k t hk ht
      obtain ⟨i, hi, hlast⟩ := exists_token_of_edit he ht hmid
      refine ⟨i, ?_, hlast⟩
      show shift' (shift (k + 1)) = i + 1
      rw [hj, hi]

/-- Two lines, the second of which is wrong, between new lines and with all that may stand around
them. -/
theorem load_edited_lines :
    Edits "1\nx".toList "# c\r\n1\n \tx# y\n".toList (displaced 0) ∧
    (load "1\nx".toList (Memory.zero : Memory 4) (.empty .off)).1 =
      .error [⟨.notBinary, "`x` is not a binary number", 2⟩] ∧
    (load "# c\r\n1\n \tx# y\n".toList (Memory.zero : Memory 4) (.empty .off)).1 =
      .error [⟨.notBinary, "`x` is not a binary number", 3⟩] ∧
    (tokens "# c\r\n1\n \tx# y\n".toList)[2]? = some ['x'] := by
  have hblank : Blank [' ', '\t'] := by simp [Blank, isBlank, blankRanges]
  have hempty : Blank [] := by simp [Blank]
  have hinsert : Edit "1\nx".toList "# c\n1\nx".toList (displaced 0) :=
    .insert [] "1\nx".toList .feed (.inl rfl) (.comment [' ', 'c'] hempty) (by decide)
  have hcomplete : Complete "# c\n1\n".toList := .inr ⟨"# c\n1".toList, rfl⟩
  have hindent : Edit "# c\n1\nx".toList "# c\n1\n \tx".toList id :=
    .line "# c\n1\n".toList ['x'] [' ', '\t', 'x'] [] hcomplete (.inl rfl) (by decide)
      (by decide) (.before [] ['x'] hempty hblank)
  have hcomment : Edit "# c\n1\n \tx".toList "# c\n1\n \tx# y".toList id :=
    .line "# c\n1\n".toList [' ', '\t', 'x'] " \tx# y".toList [] hcomplete (.inl rfl)
      (by decide) (by decide) (.comment [' ', '\t', 'x'] [' ', 'y'])
  have hfinish : Edit "# c\n1\n \tx# y".toList "# c\n1\n \tx# y\n".toList id := .finish .feed
  have hend : Edit "# c\n1\n \tx# y\n".toList "# c\r\n1\n \tx# y\n".toList id :=
    .lineEnd "# c".toList "1\n \tx# y\n".toList .feed .returnFeed
  have hedits : Edits "1\nx".toList "# c\r\n1\n \tx# y\n".toList (displaced 0) :=
    ((((Edits.refl.tail hinsert).tail hindent).tail hcomment).tail hfinish).tail hend
  obtain ⟨hload, htokens⟩ := load_of_edits hedits
  have hwrong : (load "1\nx".toList (Memory.zero : Memory 4) (.empty .off)).1 =
      .error [⟨.notBinary, "`x` is not a binary number", 2⟩] := rfl
  obtain ⟨k, hk, ht⟩ := htokens 1 ['x'] rfl (by simp)
  obtain rfl : 2 = k := Nat.succ.inj hk
  refine ⟨hedits, hwrong, ?_, ht⟩
  rw [hload 4 Memory.zero (.empty .off) (.empty .off), hwrong]
  rfl

end Listing
end EightBit
