import EightBit.Proofs.Logging
import EightBit.Proofs.Machine.Ending

/-! What a run writes into a log that admits every entry: the entries of its steps, one after the
other, and a last one if it halts. -/
namespace EightBit

theorem Log.toList_record {log : Log} (hv : log.verbosity = .upTo .trace) (level : Level)
    (origin : Origin) (text : Unit → String) : (log.record level origin text).entries.toList =
      log.entries.toList ++ [⟨level, origin, text ()⟩] := by
  rw [entries_record, hv, if_pos (admits_trace level), Array.toList_append]

namespace Opcode

/-- The opcode with whose name a text begins. -/
def heading? (text : String) : Option Opcode :=
  all.find? fun o => o.name.toList.isPrefixOf text.toList

/-- No name is the beginning of another one. -/
theorem heading?_name_append (o : Opcode) (rest : String) : heading? (o.name ++ rest) = some o := by
  simp only [heading?, String.toList_append]
  cases o <;> rfl

end Opcode

/-- The notes of instructions among the entries, each as the opcode that it names. -/
def Entry.noted (entries : List Entry) : List (Option Opcode) :=
  (entries.filter (·.level == .debug)).map fun e => Opcode.heading? e.text

theorem Entry.noted_append (a b : List Entry) : noted (a ++ b) = noted a ++ noted b := by
  rw [noted, List.filter_append, List.map_append, noted, noted]

namespace Machine

variable {size : Nat} {δ : Type}

/-- The entry with which a step begins. -/
def traceEntry (m : Machine size δ) : Entry :=
  ⟨.trace, .processor, m.processor.traceText m.memory⟩

def faultEntry (m : Machine size δ) (fault : Fault) : Entry :=
  ⟨.error, .processor, "Fault at 0x" ++ hexUpper m.processor.pc.toNat ++ ": " ++ fault.message⟩

def haltEntry (m : Machine size δ) : Entry :=
  ⟨.info, .processor, "Program halted at 0x" ++ hexUpper m.processor.pc.toNat⟩

variable [Device δ]

/-- The entries of a step of a running machine. -/
inductive Logs (m : Machine size δ) : List Entry → Prop where
  | success {i rest} (hi : m.executed? = some i) :
    Logs m [m.traceEntry, ⟨.debug, .processor, i.opcode.name ++ rest⟩]
  | failure {fault} (hf : m.step.result = .error fault) :
    Logs m [m.traceEntry, m.faultEntry fault]

/-- The entries of the first `n` steps, a block for each. -/
inductive Journal (m : Machine size δ) : Nat → List (List Entry) → Prop where
  | nil : Journal m 0 []
  | snoc {n blocks block} (h : Journal m n blocks) (hb : (m.after n).Logs block) :
    Journal m (n + 1) (blocks ++ [block])

variable {m : Machine size δ} {i : Instruction} {fault : Fault} {block : List Entry}
  {blocks : List (List Entry)} {k n : Nat}

theorem verbosity_step (m : Machine size δ) :
    m.step.machine.log.verbosity = m.log.verbosity := by
  cases hrun : m.isRunning with
  | false => rw [step_of_not_running hrun]
  | true =>
    have hs := stepped_step (isRunning_iff.mp hrun)
    generalize m.step = outcome at hs ⊢
    cases hs <;> simp [fail, traced, record, completed]

theorem verbosity_after (m : Machine size δ) (n : Nat) :
    (m.after n).log.verbosity = m.log.verbosity := by
  induction n with
  | zero => rfl
  | succ n ih => rw [after, verbosity_step, ih]

omit [Device δ] in
theorem toList_fail (hv : m.log.verbosity = .upTo .trace) (fault : Fault) :
    (m.traced.fail fault).log.entries.toList =
      m.log.entries.toList ++ [m.traceEntry, m.faultEntry fault] := by
  have hv' : m.traced.log.verbosity = .upTo .trace := by simpa [traced] using hv
  show (m.traced.log.record .error .processor _).entries.toList = _
  rw [Log.toList_record hv']
  show (m.log.record .trace .processor _).entries.toList ++ _ = _
  rw [Log.toList_record hv, List.append_assoc]
  rfl

omit [Device δ] in
theorem toList_completed (hv : m.log.verbosity = .upTo .trace) (e : Effect) (output : Output δ)
    (text : String) : (m.completed e output text).log.entries.toList =
      m.log.entries.toList ++ [m.traceEntry, ⟨.debug, .processor, text⟩] := by
  have hv' : (m.log.record .trace .processor fun _ =>
      m.processor.traceText m.memory).verbosity = .upTo .trace := by simpa using hv
  rw [completed, Log.toList_record hv', Log.toList_record hv, List.append_assoc]
  rfl

/-- A step writes that it begins, and then that it has succeeded or failed. -/
theorem logs_step (hr : m.isRunning = true) (hv : m.log.verbosity = .upTo .trace) :
    ∃ block, m.Logs block ∧
      m.step.machine.log.entries.toList = m.log.entries.toList ++ block := by
  rcases hstep : m.step with ⟨result, m'⟩
  have hs := stepped_step (isRunning_iff.mp hr)
  rw [hstep] at hs
  have hres : m.step.result = result := congrArg Outcome.result hstep
  cases hs with
  | unfetched hf => exact ⟨_, .failure hres, toList_fail hv _⟩
  | refused hf he => exact ⟨_, .failure hres, toList_fail hv _⟩
  | unprinted hf he ho => exact ⟨_, .failure hres, toList_fail hv _⟩
  | @done i e output text hf he ho hn =>
    obtain ⟨rest, hrest⟩ := Instruction.note_of_effect he
    obtain rfl := Except.ok.inj (hn.symm.trans hrest)
    have hi := executed?_eq_some_iff.mpr ⟨instruction?_of_fetch (isRunning_iff.mp hr) hf, hres⟩
    exact ⟨_, .success hi, toList_completed hv e output _⟩

/-- A step notes the instruction that it performs with success, and no other. -/
theorem Logs.noted (h : m.Logs block) :
    Entry.noted block = m.executed?.toList.map fun i => some i.opcode := by
  cases h with
  | @success i rest hi =>
    rw [hi]
    show [Opcode.heading? (i.opcode.name ++ rest)] = _
    rw [Opcode.heading?_name_append]
    rfl
  | failure hf =>
    have hnone : m.executed? = none := by simp only [executed?, hf]
    rw [hnone]
    rfl

theorem Logs.level_ne_info (h : m.Logs block) : ∀ e ∈ block, e.level ≠ .info := by
  cases h with
  | _ => simp [traceEntry, faultEntry]

theorem Logs.level_ne_error (h : m.Logs block) (hok : m.step.result = .ok ()) :
    ∀ e ∈ block, e.level ≠ .error := by
  cases h with
  | success => simp [traceEntry]
  | failure hf => cases hok.symm.trans hf

theorem exists_journal (hv : m.log.verbosity = .upTo .trace)
    (hr : ∀ j < n, (m.after j).isRunning = true) : ∃ blocks, m.Journal n blocks ∧
      (m.after n).log.entries.toList = m.log.entries.toList ++ blocks.flatten := by
  induction n with
  | zero => exact ⟨[], .nil, by simp [after]⟩
  | succ n ih =>
    obtain ⟨blocks, hblocks, hentries⟩ := ih fun j hj => hr j (by omega)
    obtain ⟨block, hblock, hstep⟩ :=
      logs_step (hr n (Nat.lt_succ_self n)) ((verbosity_after m n).trans hv)
    refine ⟨blocks ++ [block], hblocks.snoc hblock, ?_⟩
    rw [after, hstep, hentries, List.append_assoc, List.flatten_append, List.flatten_singleton]

theorem Journal.noted (h : m.Journal n blocks) :
    Entry.noted blocks.flatten = (m.executed n).map fun i => some i.opcode := by
  induction h with
  | nil => rfl
  | @snoc n blocks block _ hb ih =>
    rw [executed_succ, List.map_append, ← ih, ← hb.noted, List.flatten_append,
      List.flatten_singleton, Entry.noted_append]

/-- What holds of the entries of each step holds of all entries. -/
theorem Journal.forall_mem {P : Entry → Prop} (h : m.Journal n blocks)
    (hP : ∀ k < n, ∀ block, (m.after k).Logs block → ∀ e ∈ block, P e) :
    ∀ e ∈ blocks.flatten, P e := by
  induction h with
  | nil => simp
  | @snoc n blocks block _ hb ih =>
    intro e he
    rw [List.flatten_append, List.flatten_singleton] at he
    rcases List.mem_append.mp he with he | he
    · exact ih (fun k hk => hP k (by omega)) e he
    · exact hP n (Nat.lt_succ_self n) block hb e he

omit [Device δ] in
/-- At its end a run adds an entry if the machine has halted. -/
theorem logs_finish {o : Outcome size δ Fault Unit} (hv : m.log.verbosity = .upTo .trace)
    (h : m.finish? = some o) : ∃ closing,
      o.machine.log.entries.toList = m.log.entries.toList ++ closing ∧
      ((o.result = .ok () ∧ closing = [m.haltEntry]) ∨
        ∃ fault, o.result = .error fault ∧ closing = []) := by
  unfold finish? at h
  split at h
  next => cases h
  next fault _ =>
    cases h
    exact ⟨[], by simp, .inr ⟨fault, rfl, rfl⟩⟩
  next =>
    cases h
    exact ⟨[m.haltEntry], Log.toList_record hv _ _ _, .inl ⟨rfl, rfl⟩⟩

omit [Device δ] in
theorem halted_of_finish {o : Outcome size δ Fault Unit} (h : m.finish? = some o)
    (hok : o.result = .ok ()) : m.processor.status = .halted := by
  unfold finish? at h
  split at h
  next => cases h
  next =>
    cases h
    cases hok
  next hstatus => exact hstatus

/-- A run that comes to an end logs each of its steps in turn: that it begins, and then a note for
the instruction that it performs, or the fault that it meets. Only the last step can log a fault,
and one more entry follows exactly if the run succeeds. So the notes name the instructions that
were performed with success, and there are as many as a counted run counts. -/
theorem run_logs_every_step (hr : m.isRunning = true) (hv : m.log.verbosity = .upTo .trace)
    {fuel : Nat} {o : Outcome size δ Fault Unit} (h : m.run fuel = some o) :
    ∃ k blocks closing, m.Journal k blocks ∧
      (∀ j < k, (m.after j).isRunning = true) ∧ (m.after k).isRunning = false ∧
      o.machine.log.entries.toList = m.log.entries.toList ++ (blocks.flatten ++ closing) ∧
      (∀ e ∈ blocks.dropLast.flatten, e.level ≠ .error) ∧
      (blocks.flatten ++ closing).filter (·.level == .info) = closing ∧
      ((o.result = .ok () ∧ closing = [(m.after k).haltEntry]) ∨
        ∃ fault, o.result = .error fault ∧ closing = []) ∧
      Entry.noted (blocks.flatten ++ closing) = (m.executed k).map (fun i => some i.opcode) ∧
      (o.result = .ok () → ∀ limit, limit = 0 ∨ k ≤ limit → m.runCounted fuel limit =
        some ⟨.ok (Entry.noted (blocks.flatten ++ closing)).length, m.after k⟩) := by
  obtain ⟨k, s, hreach, hs, hk, hfinish⟩ := run_eq_some_iff.mp h
  obtain ⟨blocks, hblocks, hentries⟩ := exists_journal hv hreach.runs
  obtain ⟨closing, hclosing, hend⟩ := logs_finish ((verbosity_after m k).trans hv) hfinish
  have hstop : (m.after k).isRunning = false := by
    cases hrun : (m.after k).isRunning with
    | false => rfl
    | true => exact (hs (hreach.status.symm.trans (isRunning_iff.mp hrun))).elim
  have hnotes : Entry.noted closing = [] := by
    rcases hend with ⟨_, rfl⟩ | ⟨_, _, rfl⟩ <;> rfl
  have hnoted : Entry.noted (blocks.flatten ++ closing) =
      (m.executed k).map fun i => some i.opcode := by
    rw [Entry.noted_append, hnotes, List.append_nil, hblocks.noted]
  refine ⟨k, blocks, closing, hblocks, hreach.runs, hstop, ?_, ?_, ?_, hend, hnoted, ?_⟩
  · rw [hclosing, hentries, List.append_assoc]
  · cases hblocks with
    | nil => simp
    | @snoc n blocks block hbefore =>
      rw [List.dropLast_concat]
      have hok : m.Succeeds n := succeeds_of_running fun j hj => hreach.runs j (by omega)
      exact hbefore.forall_mem fun j hj _ hb => hb.level_ne_error (hok j hj)
  · have hne : ∀ e ∈ blocks.flatten, e.level ≠ .info :=
      hblocks.forall_mem fun _ _ _ hb => hb.level_ne_info
    have hinfo : blocks.flatten.filter (·.level == .info) = [] :=
      List.filter_eq_nil_iff.mpr fun e he => by simpa using hne e he
    rw [List.filter_append, hinfo, List.nil_append]
    rcases hend with ⟨_, rfl⟩ | ⟨_, _, rfl⟩ <;> rfl
  · intro hok limit hlimit
    obtain rfl : s = .halted := hreach.status.symm.trans (halted_of_finish hfinish hok)
    rw [hnoted, List.length_map, length_executed hreach.runs hreach.succeeds]
    exact (runCounted_eq_some_iff hr).mpr
      ⟨k, .halted, ⟨hreach, hlimit, by simp⟩, fun _ => hk, rfl⟩

/-- Loads 8 into a register, prints it and halts, all of it logged. -/
def loggedPrinter : Machine 6 Unlimited :=
  { printer with log := .empty (.upTo .trace) }

theorem loggedPrinter_logs :
    loggedPrinter.isRunning = true ∧ loggedPrinter.log.verbosity = .upTo .trace ∧
    ∃ o entries, loggedPrinter.run 3 = some o ∧ o.result = .ok () ∧
      o.machine.log.entries.toList = entries ∧
      Entry.noted entries = [some .ldi, some .prn, some .hlt] ∧
      entries.filter (·.level == .info) = [(loggedPrinter.after 3).haltEntry] ∧
      loggedPrinter.runCounted 3 0 = some ⟨.ok 3, loggedPrinter.after 3⟩ := by
  have hreach : loggedPrinter.Reaches 3 .halted := ⟨by decide +kernel, by decide +kernel⟩
  have hexecuted : loggedPrinter.executed 3 = [.ldi 0 8, .prn 0, .hlt] := by decide +kernel
  obtain ⟨log, hrun⟩ := run_of_halted hreach
  have ho := hrun 3 (Nat.le_refl 3)
  obtain ⟨k, blocks, closing, _, hruns, hstop, hentries, _, hinfo, hend, hnoted, hcount⟩ :=
    run_logs_every_step (m := loggedPrinter) rfl rfl ho
  obtain rfl : k = 3 := by
    have hhalted : (loggedPrinter.after 3).isRunning = false := by decide +kernel
    rcases Nat.lt_trichotomy k 3 with hlt | heq | hgt
    · cases hstop.symm.trans (hreach.runs k hlt)
    · exact heq
    · cases hhalted.symm.trans (hruns 3 hgt)
  obtain ⟨_, rfl⟩ | ⟨fault, hfault, _⟩ := hend
  · rw [hexecuted] at hnoted
    refine ⟨rfl, rfl, _, _, ho, rfl, hentries, hnoted, hinfo, ?_⟩
    have hcounted := hcount rfl 0 (.inl rfl)
    rwa [hnoted] at hcounted
  · cases hfault

end Machine
end EightBit
