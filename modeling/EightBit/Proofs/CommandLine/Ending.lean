import EightBit.CommandLine.Session
import EightBit.Proofs.Encoding
import EightBit.Proofs.Logging
import EightBit.Proofs.Machine.Ending
import EightBit.Proofs.Machine.Truncation

/-! How a session of the command line ends: its exit code, its output and its error, told from the
bytes of the file and the limit of steps alone. -/
namespace EightBit

namespace CommandLine

open Machine

/-- A report without its log. -/
structure Ending where
  exitCode : Nat
  stdout : String
  chain : List String
  deriving DecidableEq

def Report.ending (r : Report) : Ending where
  exitCode := r.exitCode
  stdout := r.stdout
  chain := r.chain

/-- The memory that a text loads into, or what is wrong with its lines. -/
def parse (text : String) : Except (List Listing.Error) (Memory 256) :=
  (Listing.load text.toList Memory.zero (.empty .off)).1

/-- A machine before its first step that logs nothing. -/
def silent (memory : Memory 256) : Machine 256 Unlimited :=
  machine memory (.empty .off)

/-- What is shown of a run that stops after `k` steps because of the status `s`. -/
def endingOf (path : String) (memory : Memory 256) (k : Nat) (s : Status) : Ending :=
  let printed := String.ofList ((silent memory).offers k)
  match s with
  | .halted => ⟨0, printed, []⟩
  | .faulted fault => ⟨1, printed, ["`" ++ path ++ "` did not halt", fault.message]⟩
  | .running => ⟨1, printed, ["`" ++ path ++ "` did not halt", "stopped after " ++ decimal k ++
      " instructions at 0x" ++ hexUpper ((silent memory).after k).processor.pc.toNat]⟩

/-- How a program ends after `k` steps, if `content` is found under its path. -/
inductive Ends (path : String) (content : ByteArray) (limit : Nat) : Nat → Ending → Prop where
  | unreadable (h : ∀ text : String, text.toUTF8 ≠ content) : Ends path content limit 0
      ⟨1, "", ["failed to read `" ++ path ++ "`", "stream did not contain valid UTF-8"]⟩
  | rejected {text : String} {errors : List Listing.Error} (ht : text.toUTF8 = content)
      (hp : parse text = .error errors) : Ends path content limit 0
      ⟨1, "", ["failed to load `" ++ path ++ "`:\n" ++
        String.intercalate "\n" (errors.map Listing.Error.message)]⟩
  | ran {text : String} {memory : Memory 256} {k : Nat} {s : Status} (ht : text.toUTF8 = content)
      (hp : parse text = .ok memory) (h : (silent memory).Stops limit k s) :
      Ends path content limit k (endingOf path memory k s)

variable {path : String} {text : String} {memory : Memory 256} {errors : List Listing.Error}
  {content : ByteArray} {limit k fuel : Nat} {e : Ending} {s : Status} {o : Options}

/-- The bytes of a file are those of one text only. -/
theorem parse_eq_of_toUTF8 {text' : String} {loaded loaded' : Except _ (Memory 256)}
    (ht : text'.toUTF8 = text.toUTF8) (hp : parse text = loaded) (hp' : parse text' = loaded') :
    loaded = loaded' := by
  obtain rfl : text' = text := String.toByteArray_inj.mp ht
  exact hp.symm.trans hp'

theorem ends_iff_unreadable (hno : ∀ text : String, text.toUTF8 ≠ content) :
    Ends path content limit k e ↔
      k = 0 ∧ e = ⟨1, "", (Listing.FileError.unreadable path .notText).chain⟩ := by
  constructor
  · intro h
    cases h with
    | unreadable => exact ⟨rfl, rfl⟩
    | rejected ht | ran ht => exact (hno _ ht).elim
  · rintro ⟨rfl, rfl⟩
    exact .unreadable hno

theorem ends_iff_rejected (hp : parse text = .error errors) : Ends path text.toUTF8 limit k e ↔
    k = 0 ∧ e = ⟨1, "", (Listing.FileError.rejected path errors).chain⟩ := by
  constructor
  · intro h
    cases h with
    | unreadable h => exact (h text rfl).elim
    | rejected ht hp' =>
      cases parse_eq_of_toUTF8 ht hp hp'
      exact ⟨rfl, rfl⟩
    | ran ht hp' => cases parse_eq_of_toUTF8 ht hp hp'
  · rintro ⟨rfl, rfl⟩
    exact .rejected rfl hp

theorem ends_iff_ran (hp : parse text = .ok memory) : Ends path text.toUTF8 limit k e ↔
    ∃ s, (silent memory).Stops limit k s ∧ e = endingOf path memory k s := by
  constructor
  · intro h
    cases h with
    | unreadable h => exact (h text rfl).elim
    | rejected ht hp' => cases parse_eq_of_toUTF8 ht hp hp'
    | ran ht hp' h =>
      cases parse_eq_of_toUTF8 ht hp hp'
      exact ⟨_, h, rfl⟩
  · rintro ⟨s, h, rfl⟩
    exact .ran rfl hp h

/-- What a report tells of the answer of a run is what the run has printed and how it ended. -/
theorem ending_reportRun (k : Nat) (s : Status) :
    (reportRun path ⟨s.answer k ((silent memory).after k).processor.pc,
      (silent memory).after k⟩).ending = endingOf path memory k s := by
  have hprinted : ((silent memory).after k).output.printed =
      String.ofList ((silent memory).offers k) := by
    rw [(printed_after_of_takesAll (takesAll_unlimited _) k).2]
    exact String.empty_append
  unfold endingOf
  rw [← hprinted]
  cases s <;> rfl

section Logs

variable {v : Verbosity} {whole log : Log}

theorem map_ending_of_heard {x y : Option (Outcome 256 Unlimited Interruption Nat)}
    (h : Option.Rel (HeardOutcome v) x y) :
    (y.map (reportRun path)).map Report.ending = (x.map (reportRun path)).map Report.ending := by
  cases h with
  | none => rfl
  | some h =>
    cases h with
    | @intro result m m' h =>
      obtain ⟨log, _, rfl⟩ := h
      cases result <;> rfl

/-- The log of a machine makes no difference to what else a run of it shows. -/
theorem ending_runCounted (h : whole.Heard v log) :
    (((machine memory log).runCounted fuel limit).map (reportRun path)).map Report.ending =
      (((silent memory).runCounted fuel limit).map (reportRun path)).map Report.ending := by
  have hsilent : whole.Heard .off (.empty .off) :=
    ⟨h.admitsAll, by simp [Log.empty, Verbosity.admits]⟩
  have hv : (machine memory whole).Heard v (machine memory log) := ⟨log, h, rfl⟩
  have hoff : (machine memory whole).Heard .off (silent memory) := ⟨_, hsilent, rfl⟩
  exact (map_ending_of_heard (hv.runCounted fuel limit)).trans
    (map_ending_of_heard (hoff.runCounted fuel limit)).symm

theorem load_eq_parse (v : Verbosity) (text : String) :
    ∃ whole log : Log, whole.Heard v log ∧
      Listing.load text.toList Memory.zero (.empty v) = (parse text, log) := by
  obtain ⟨hresult, hlog⟩ :=
    Listing.heard_load (Log.heard_empty v) text.toList (Memory.zero : Memory 256)
  obtain ⟨hoff, _⟩ :=
    Listing.heard_load (Log.heard_empty .off) text.toList (Memory.zero : Memory 256)
  exact ⟨_, _, hlog, Prod.ext (hresult.trans hoff.symm) rfl⟩

end Logs

theorem execute_of_loaded (hp : parse text = .ok memory) :
    (execute fuel o (.ok text)).map Report.ending =
      (((silent memory).runCounted fuel o.maxSteps).map (reportRun o.program)).map
        Report.ending := by
  obtain ⟨whole, log, hlog, hload⟩ := load_eq_parse o.logVerbosity text
  rw [hp] at hload
  simp only [execute, Listing.loadFile, hload]
  exact ending_runCounted hlog

theorem execute_of_rejected (hp : parse text = .error errors) :
    (execute fuel o (.ok text)).map Report.ending =
      some ⟨1, "", (Listing.FileError.rejected o.program errors).chain⟩ := by
  obtain ⟨whole, log, _, hload⟩ := load_eq_parse o.logVerbosity text
  rw [hp] at hload
  simp only [execute, Listing.loadFile, hload]
  rfl

/-- A program with a single ending at step zero ends so with any fuel. -/
theorem some_eq_iff_of_ends {e' : Ending}
    (h : ∀ k e, Ends path content limit k e ↔ k = 0 ∧ e = e') :
    some e' = some e ↔ ∃ k, Ends path content limit k e ∧ (limit = 0 → k ≤ fuel) := by
  simp only [h]
  constructor
  · intro he
    exact ⟨0, ⟨rfl, (Option.some.inj he).symm⟩, fun _ => Nat.zero_le fuel⟩
  · rintro ⟨k, ⟨_, rfl⟩, _⟩
    rfl

/-- With enough fuel for a program that has no limit, the options decide about the ending only by
the program and the limit. -/
theorem execute_eq_some_iff :
    (execute fuel o (Folder.decode content)).map Report.ending = some e ↔
      ∃ k, Ends o.program content o.maxSteps k e ∧ (o.maxSteps = 0 → k ≤ fuel) := by
  by_cases htext : ∃ text : String, text.toUTF8 = content
  · obtain ⟨text, rfl⟩ := htext
    rw [Folder.decode_toUTF8]
    cases hp : parse text with
    | error errors =>
      rw [execute_of_rejected hp]
      exact some_eq_iff_of_ends fun k e => ends_iff_rejected hp
    | ok memory =>
      rw [execute_of_loaded hp]
      simp only [ends_iff_ran hp, Option.map_map, Option.map_eq_some_iff,
        runCounted_eq_some_iff (show (silent memory).isRunning = true from rfl)]
      constructor
      · rintro ⟨_, ⟨k, s, hs, hfuel, rfl⟩, rfl⟩
        exact ⟨k, ⟨s, hs, ending_reportRun k s⟩, hfuel⟩
      · rintro ⟨k, ⟨s, hs, rfl⟩, hfuel⟩
        exact ⟨_, ⟨k, s, hs, hfuel, rfl⟩, ending_reportRun k s⟩
  · have hno : ∀ text : String, text.toUTF8 ≠ content := fun text ht => htext ⟨text, ht⟩
    rw [Folder.decode_of_no_text hno]
    exact some_eq_iff_of_ends fun k e => ends_iff_unreadable hno

/-- A session on a file with a program, however the options are found in the words. It ends with
exit code zero if and only if the file is a text that loads and the machine halts within the limit.
However it ends, the exit code, the output and the error are the ones told by the content of the
file and the limit; fuel is needed only without a limit, and what asks for a log makes no
difference. -/
theorem sessionWith_ends_iff {options : List String → Except UsageError Options}
    {read : String → Except ReadFailure String} {words : List String}
    (ho : options words = .ok o) (hread : read o.program = Folder.decode content) :
    ((∃ fuel report, sessionWith options fuel read words = some report ∧ report.exitCode = 0) ↔
      ∃ text memory k, text.toUTF8 = content ∧ parse text = .ok memory ∧
        (silent memory).Reaches k .halted ∧ (o.maxSteps = 0 ∨ k ≤ o.maxSteps)) ∧
    (∀ fuel e, (∃ report, sessionWith options fuel read words = some report ∧ report.ending = e) ↔
      ∃ k, Ends o.program content o.maxSteps k e ∧ (o.maxSteps = 0 → k ≤ fuel)) ∧
    ∀ words' o', options words' = .ok o' → o'.program = o.program →
      o'.maxSteps = o.maxSteps → ∀ fuel, (sessionWith options fuel read words').map Report.ending =
        (sessionWith options fuel read words).map Report.ending := by
  have hsession : ∀ fuel,
      sessionWith options fuel read words = execute fuel o (Folder.decode content) := by
    intro fuel
    simp only [sessionWith, ho, hread]
  have hends : ∀ fuel e,
      (∃ report, sessionWith options fuel read words = some report ∧ report.ending = e) ↔
        ∃ k, Ends o.program content o.maxSteps k e ∧ (o.maxSteps = 0 → k ≤ fuel) := by
    intro fuel e
    rw [hsession, ← execute_eq_some_iff, Option.map_eq_some_iff]
  refine ⟨?_, hends, ?_⟩
  · constructor
    · rintro ⟨fuel, report, hs, hzero⟩
      obtain ⟨k, h, _⟩ := (hends fuel _).mp ⟨report, hs, rfl⟩
      generalize he : report.ending = e at h
      have hexit : e.exitCode = 0 := by rw [← he]; exact hzero
      cases h with
      | unreadable | rejected => cases hexit
      | @ran _ _ _ s ht hp h =>
        cases s with
        | halted => exact ⟨_, _, k, ht, hp, h.reaches, h.within⟩
        | running | faulted => cases hexit
    · rintro ⟨text, memory, k, ht, hp, h, hk⟩
      have hend : Ends o.program content o.maxSteps k (endingOf o.program memory k .halted) :=
        .ran ht hp ⟨h, hk, by simp⟩
      obtain ⟨report, hs, he⟩ := (hends k _).mpr ⟨k, hend, fun _ => Nat.le_refl k⟩
      exact ⟨k, report, hs, congrArg Ending.exitCode he⟩
  · intro words' o' ho' hprogram hlimit fuel
    have hsession' :
        sessionWith options fuel read words' = execute fuel o' (Folder.decode content) := by
      simp only [sessionWith, ho', hprogram, hread]
    rw [hsession, hsession']
    refine Option.ext fun e => ?_
    rw [execute_eq_some_iff, execute_eq_some_iff, hprogram, hlimit]

/-- Prints zero and halts. -/
def zeroPrinter : String :=
  "1000111\n0\n1\n"

/-- A folder that has the program in the file `zero`. -/
def folder : Folder :=
  ⟨[("zero", zeroPrinter.toUTF8)]⟩

/-- The memory with the loaded program. -/
def zeroPrinting : Memory 256 :=
  Memory.zero.place 0 [0x47, 0, 0x01]

theorem parse_zeroPrinter : parse zeroPrinter = .ok zeroPrinting := by
  have hgood : Listing.offences 256 (Listing.tokens zeroPrinter.toList) = [] := by decide +kernel
  have hbytes : Listing.bytes (Listing.tokens zeroPrinter.toList) = [0x47, 0, 0x01] := by
    decide +kernel
  rw [parse, Listing.load_eq_ok hgood, hbytes]
  rfl

theorem stops_zeroPrinting :
    (silent zeroPrinting).Stops 1 1 .running ∧ (silent zeroPrinting).Stops 2 2 .halted :=
  ⟨⟨⟨by decide +kernel, by decide +kernel⟩, by decide, by decide⟩,
    ⟨⟨by decide +kernel, by decide +kernel⟩, by decide, by decide⟩⟩

theorem endingOf_zeroPrinting :
    endingOf "zero" zeroPrinting 1 .running =
      ⟨1, "0\n", ["`zero` did not halt", "stopped after 1 instructions at 0x02"]⟩ ∧
    endingOf "zero" zeroPrinting 2 .halted = ⟨0, "0\n", []⟩ := by
  decide +kernel

theorem zeroPrinter_ends :
    (∃ fuel report, session fuel folder.read ["--max-steps", "2", "zero"] = some report ∧
      report.exitCode = 0) ∧
    (∃ report, session 0 folder.read ["--max-steps", "2", "zero"] = some report ∧
      report.ending = ⟨0, "0\n", []⟩) ∧
    (∃ report, session 0 folder.read ["--max-steps", "1", "zero"] = some report ∧
      report.ending = ⟨1, "0\n",
        ["`zero` did not halt", "stopped after 1 instructions at 0x02"]⟩) ∧
    ∀ fuel, (session fuel folder.read ["--max-steps=2", "--trace", "zero"]).map Report.ending =
      (session fuel folder.read ["--max-steps", "2", "zero"]).map Report.ending := by
  have htwo : Options.ofWords ["--max-steps", "2", "zero"] =
      .ok ⟨"zero", false, .upTo .warn, 2⟩ := by decide +kernel
  have hone : Options.ofWords ["--max-steps", "1", "zero"] =
      .ok ⟨"zero", false, .upTo .warn, 1⟩ := by decide +kernel
  have htraced : Options.ofWords ["--max-steps=2", "--trace", "zero"] =
      .ok ⟨"zero", true, .upTo .warn, 2⟩ := by decide +kernel
  have hread : folder.read "zero" = Folder.decode zeroPrinter.toUTF8 := rfl
  obtain ⟨hrunning, hhalted⟩ := stops_zeroPrinting
  obtain ⟨hcut, hwhole⟩ := endingOf_zeroPrinting
  obtain ⟨hzero, hends, hsame⟩ := sessionWith_ends_iff htwo hread
  have hhalt := hwhole ▸ Ends.ran rfl parse_zeroPrinter hhalted
  have hstop := hcut ▸ Ends.ran rfl parse_zeroPrinter hrunning
  refine ⟨?_, ?_, ?_, ?_⟩
  · exact hzero.mpr ⟨_, _, 2, rfl, parse_zeroPrinter, hhalted.reaches, hhalted.within⟩
  · exact (hends 0 _).mpr ⟨2, hhalt, by decide⟩
  · exact ((sessionWith_ends_iff hone hread).2.1 0 _).mpr ⟨1, hstop, by decide⟩
  · exact hsame _ _ htraced rfl rfl

end CommandLine
end EightBit
