import EightBit.Listing.File
import EightBit.Proofs.Checked
import EightBit.Proofs.Encoding
import EightBit.Proofs.Listing.Loading
import EightBit.Proofs.Numeral

/-! Loading a file is loading its text. If that fails, the lines of the report are the messages of
the errors, whatever the file contains. -/
namespace EightBit

/-- Without a line feed. -/
def OneLine (text : String) : Prop :=
  '\n' ∉ text.toList

instance (text : String) : Decidable (OneLine text) :=
  inferInstanceAs (Decidable (_ ∉ _))

theorem OneLine.append {a b : String} (ha : OneLine a) (hb : OneLine b) : OneLine (a ++ b) := by
  intro h
  rw [String.toList_append] at h
  rcases List.mem_append.mp h with h | h
  · exact ha h
  · exact hb h

theorem oneLine_decimal (n : Nat) : OneLine (decimal n) := by
  intro h
  cases isDigit_of_mem_decimal h

theorem oneLine_hexLower (n : Nat) : OneLine (hexLower n) := by
  intro h
  rw [hexLower, String.toList_ofList] at h
  cases isAlphanum_of_mem_toDigits h

namespace Text

variable {c : Char} {line cs : List Char}

theorem mem_of_mem_trim (h : c ∈ trim cs) : c ∈ cs := by
  have hleft : ∀ ds, trimLeft ds ⊆ ds := fun ds => (List.dropWhile_suffix _).subset
  have hright := hleft _ (List.mem_reverse.mp h)
  exact hleft cs (List.mem_reverse.mp hright)

theorem mem_of_mem_endLine (h : c ∈ endLine line) : c ∈ line := by
  unfold endLine at h
  split at h
  · exact List.mem_cons_of_mem _ (List.mem_reverse.mp h)
  · exact List.mem_reverse.mp h

theorem newline_not_mem_of_mem_linesFrom {done : List (List Char)} {start : List Char}
    (hdone : ∀ l ∈ done, '\n' ∉ l) (hstart : '\n' ∉ start) (h : line ∈ linesFrom done start cs) :
    '\n' ∉ line := by
  induction cs generalizing done start with
  | nil =>
    rw [linesFrom, List.mem_reverse] at h
    split at h
    · exact hdone line h
    · rcases List.mem_cons.mp h with rfl | h
      · simpa using hstart
      · exact hdone line h
  | cons c cs ih =>
    rw [linesFrom] at h
    split at h
    · refine ih ?_ List.not_mem_nil h
      intro l hl
      rcases List.mem_cons.mp hl with rfl | hl
      · exact fun hfeed => hstart (mem_of_mem_endLine hfeed)
      · exact hdone l hl
    next hc =>
      refine ih hdone ?_ h
      intro hfeed
      rcases List.mem_cons.mp hfeed with rfl | hfeed
      · exact hc rfl
      · exact hstart hfeed

/-- The line feeds go with the line ends. -/
theorem newline_not_mem_of_mem_lines (h : line ∈ lines cs) : '\n' ∉ line :=
  newline_not_mem_of_mem_linesFrom (fun _ hl => absurd hl List.not_mem_nil) List.not_mem_nil h

end Text

namespace Listing

variable {size earlier : Nat} {text t : List Char} {cause : Cause} {context : String} {e : Error}

theorem oneLine_of_mem_tokens (h : t ∈ tokens text) : OneLine (String.ofList t) := by
  obtain ⟨line, hline, rfl⟩ := List.mem_map.mp h
  intro hfeed
  rw [String.toList_ofList] at hfeed
  have hbefore := Text.mem_of_mem_trim hfeed
  exact Text.newline_not_mem_of_mem_lines hline (List.takeWhile_subset _ hbefore)

theorem Cause.oneLine_message (cause : Cause) : OneLine cause.message := by
  cases cause with
  | noSuchAddress address =>
    exact ((by decide : OneLine "memory has no address `0x").append
      (oneLine_hexLower address)).append (by decide)
  | notBinary => exact (by decide : OneLine "failed to parse number with radix `2`")
  | tooManyDigits => exact (by decide : OneLine "a byte has at most 8 binary digits")

/-- The circumstances of an error quote nothing but the token. -/
theorem oneLine_context (ht : OneLine (String.ofList t))
    (h : offence? size earlier t = some (cause, context)) : OneLine context := by
  have hquoted : OneLine ("`" ++ String.ofList t) := OneLine.append (by decide) ht
  simp only [offence?] at h
  split at h
  · cases h
  · split at h
    · cases h
      exact ((hquoted.append (by decide)).append (oneLine_decimal _)).append (by decide)
    · split at h
      · cases h
        exact hquoted.append (by decide)
      · split at h
        · cases h
          decide
        · cases h

theorem oneLine_message (h : e ∈ offences size (tokens text)) : OneLine e.message := by
  obtain ⟨k, t, hk, _, ho⟩ := mem_offences_iff.mp h
  have hcontext := oneLine_context (oneLine_of_mem_tokens (List.mem_of_getElem? hk)) ho
  have hplace : OneLine ("error [ln: " ++ decimal e.line) :=
    OneLine.append (by decide) (oneLine_decimal _)
  exact (((hplace.append (by decide)).append e.cause.oneLine_message).append (by decide)).append
    hcontext

variable {path : String} {errors : List Error}

/-- Behind a heading, each line of a report is the message of an error. -/
theorem pieces_report (hpath : OneLine path) (hne : errors ≠ [])
    (h : ∀ e ∈ errors, OneLine e.message) : ∃ report,
      (FileError.rejected path errors).chain = [report] ∧
      pieces '\n' report = ("failed to load `" ++ path ++ "`:") :: errors.map Error.message := by
  have hmessages : errors.map Error.message ≠ [] := by simpa using hne
  have hheading : OneLine ("failed to load `" ++ path ++ "`:") :=
    (OneLine.append (by decide) hpath).append (by decide)
  have hreport : "failed to load `" ++ path ++ "`:\n" ++
      String.intercalate "\n" (errors.map Error.message) =
        String.intercalate "\n" (("failed to load `" ++ path ++ "`:") :: errors.map Error.message) := by
    have hend : "`:\n" = "`:" ++ "\n" := rfl
    rw [String.intercalate_cons_of_ne_nil hmessages, hend]
    simp only [String.append_assoc]
  refine ⟨_, rfl, ?_⟩
  rw [hreport]
  refine pieces_intercalate (by simp) ?_
  intro line hline
  rcases List.mem_cons.mp hline with rfl | hline
  · exact hheading
  · obtain ⟨e, he, rfl⟩ := List.mem_map.mp hline
    exact h e he

/-- What is loaded from a file is what its text loads, and errors get the path. -/
theorem loadFile_ok (path text : String) (memory : Memory size) (log : Log) :
    loadFile path (.ok text) memory log =
      ((load text.toList memory log).1.mapError (.rejected path),
        (load text.toList memory log).2) := by
  rw [loadFile]
  rcases load text.toList memory log with ⟨errors | loaded, log'⟩
  · rfl
  · rfl

theorem ne_nil_of_load_eq_error {memory : Memory size} {log : Log}
    (h : (load text memory log).1 = .error errors) : errors ≠ [] := by
  rintro rfl
  obtain ⟨hnone, _⟩ := of_load_eq_error h
  rw [load_eq_ok hnone.symm] at h
  cases h

/-- A file that is a text loads what the text loads, and logs the same. If its text is rejected, so
is the file, and the lines of the report are a heading with the path and then the message of each
error, once and in order. -/
theorem loadFile_of_text {read : String → Except ReadFailure String} {text : String}
    (hread : read path = Folder.decode text.toUTF8) (hpath : OneLine path) (memory : Memory size)
    (log : Log) :
    (∀ loaded, (loadFile path (read path) memory log).1 = .ok loaded ↔
      (load text.toList memory log).1 = .ok loaded) ∧
    (loadFile path (read path) memory log).2 = (load text.toList memory log).2 ∧
    ∀ errors, (load text.toList memory log).1 = .error errors → ∃ failure report,
      (loadFile path (read path) memory log).1 = .error failure ∧ failure.chain = [report] ∧
      pieces '\n' report = ("failed to load `" ++ path ++ "`:") :: errors.map Error.message := by
  rw [hread, Folder.decode_toUTF8, loadFile_ok]
  refine ⟨?_, rfl, ?_⟩
  · intro loaded
    exact mapError_eq_ok_iff
  · intro errors h
    have hmessages : ∀ e ∈ errors, OneLine e.message := by
      intro e he
      rw [(of_load_eq_error h).1] at he
      exact oneLine_message he
    obtain ⟨report, hchain, hlines⟩ := pieces_report hpath (ne_nil_of_load_eq_error h) hmessages
    rw [h]
    exact ⟨_, report, rfl, hchain, hlines⟩

/-- A folder with a file in which a carriage return stands inside of a token. -/
def torn : Folder :=
  ⟨[("torn", "1\n1\r2\n".toUTF8)]⟩

theorem torn_is_reported :
    torn.read "torn" = Folder.decode "1\n1\r2\n".toUTF8 ∧ OneLine "torn" ∧
    (load "1\n1\r2\n".toList (Memory.zero : Memory 4) (.empty .off)).1 =
      .error [⟨.notBinary, "`1\r2` is not a binary number", 2⟩] ∧
    ∃ failure report,
      (loadFile "torn" (torn.read "torn") (Memory.zero : Memory 4) (.empty .off)).1 =
        .error failure ∧ failure.chain = [report] ∧
      pieces '\n' report = ["failed to load `torn`:",
        "error [ln: 2]: failed to parse number with radix `2` - `1\r2` is not a binary number"] := by
  have hread : torn.read "torn" = Folder.decode "1\n1\r2\n".toUTF8 := rfl
  have hpath : OneLine "torn" := by decide
  have hload : (load "1\n1\r2\n".toList (Memory.zero : Memory 4) (.empty .off)).1 =
      .error [⟨.notBinary, "`1\r2` is not a binary number", 2⟩] := rfl
  obtain ⟨_, _, hreport⟩ := loadFile_of_text hread hpath (Memory.zero : Memory 4) (.empty .off)
  exact ⟨hread, hpath, hload, hreport _ hload⟩

end Listing
end EightBit
