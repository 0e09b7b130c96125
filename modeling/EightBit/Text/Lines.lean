/-! Lines of a text. A line ends with a line feed, or with a carriage return and a line feed. -/
namespace EightBit.Text

/-- A line that is kept in reverse, without the carriage return before its line feed. -/
def endLine : List Char → List Char
  | '\r' :: cs => cs.reverse
  | cs => cs.reverse

/-- Splits a text behind the complete lines `done` and the beginning `line` of one more line, both
in reverse. An empty line at the end that no line feed ends is no line. -/
def linesFrom (done : List (List Char)) (line : List Char) : List Char → List (List Char)
  | [] => (if line.isEmpty then done else line.reverse :: done).reverse
  | c :: cs =>
    if c = '\n' then linesFrom (endLine line :: done) [] cs else linesFrom done (c :: line) cs

def lines (cs : List Char) : List (List Char) :=
  linesFrom [] [] cs

variable {line cs : List Char}

theorem linesFrom_eq_append (done : List (List Char)) (line cs : List Char) :
    linesFrom done line cs = done.reverse ++ linesFrom [] line cs := by
  induction cs generalizing done line with
  | nil => by_cases h : line.isEmpty <;> simp [linesFrom, h]
  | cons c cs ih =>
    by_cases h : c = '\n'
    · simp only [linesFrom, h, if_true]
      rw [ih, ih [endLine line]]
      simp
    · simp only [linesFrom, h, if_false]
      rw [ih]

/-- A line feed ends the first line, and the lines of the rest follow. -/
theorem lines_append_newline (h : '\n' ∉ line) :
    lines (line ++ '\n' :: cs) = endLine line.reverse :: lines cs := by
  suffices ∀ start, linesFrom [] start (line ++ '\n' :: cs) =
      endLine (line.reverse ++ start) :: lines cs by simpa [lines] using this []
  induction line with
  | nil =>
    intro start
    simp [linesFrom, lines, linesFrom_eq_append [endLine start]]
  | cons c line ih =>
    intro start
    simp only [List.mem_cons, not_or] at h
    simp [linesFrom, ih h.2 (c :: start), Ne.symm h.1]

/-- A text without a line feed is one line, if it is not empty. -/
theorem lines_of_not_mem (h : '\n' ∉ cs) : lines cs = if cs.isEmpty then [] else [cs] := by
  suffices ∀ start, linesFrom [] start cs =
      if (start.reverse ++ cs).isEmpty then [] else [start.reverse ++ cs] by
    simpa [lines] using this []
  induction cs with
  | nil => intro start; cases start <;> simp [linesFrom]
  | cons c cs ih =>
    intro start
    simp only [List.mem_cons, not_or] at h
    simp [linesFrom, ih h.2 (c :: start), Ne.symm h.1]

end EightBit.Text
