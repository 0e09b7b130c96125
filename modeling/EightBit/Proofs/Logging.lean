import EightBit.Machine.Run
import EightBit.Proofs.Listing.Loading
import EightBit.Proofs.Machine.Step

/-! Machines and loaders at different verbosities. They do the same, and a log differs from the log
that admits every entry only in the entries that its own verbosity keeps out. -/
namespace EightBit

namespace Log

/-- The second log is what a verbosity leaves of the first one, which admits every entry. -/
structure Heard (v : Verbosity) (whole log : Log) : Prop where
  admitsAll : whole.verbosity = .upTo .trace
  rest : log = ⟨v, whole.entries.filter fun e => v.admits e.level⟩

variable {v : Verbosity} {whole log : Log}

theorem admits_trace (level : Level) : (Verbosity.upTo .trace).admits level = true := by
  cases level <;> rfl

theorem heard_empty (v : Verbosity) : Heard v (.empty (.upTo .trace)) (.empty v) :=
  ⟨rfl, rfl⟩

theorem Heard.record (h : Heard v whole log) (level : Level) (origin : Origin)
    (text : Unit → String) :
    Heard v (whole.record level origin text) (log.record level origin text) := by
  obtain ⟨hall, rfl⟩ := h
  refine ⟨by rw [verbosity_record, hall], ?_⟩
  have hentries : (whole.record level origin text).entries =
      whole.entries.push ⟨level, origin, text ()⟩ := by
    rw [entries_record, hall, if_pos (admits_trace level), Array.push_eq_append]
  rw [hentries, Array.filter_push]
  unfold Log.record
  split <;> rfl

end Log

namespace Listing

variable {size : Nat} {v : Verbosity} {whole log : Log}

theorem heard_logged (h : whole.Heard v log) (errors : List Error) :
    (Loader.logged whole errors).Heard v (Loader.logged log errors) := by
  induction errors generalizing whole log with
  | nil => exact h
  | cons e errors ih => exact ih (h.record .error .loader fun _ => e.message)

/-- A loader answers the same at every verbosity. -/
theorem heard_load (h : whole.Heard v log) (text : List Char) (memory : Memory size) :
    (load text memory log).1 = (load text memory whole).1 ∧
      (load text memory whole).2.Heard v (load text memory log).2 := by
  by_cases ho : offences size (tokens text) = []
  · rw [load_eq_ok ho, load_eq_ok ho]
    exact ⟨rfl, h.record .debug .loader fun _ =>
      "Loaded " ++ decimal (goodCount (tokens text)) ++ " bytes"⟩
  · rw [load_eq_error ho, load_eq_error ho]
    exact ⟨rfl, heard_logged h _⟩

end Listing

namespace Machine

variable {size : Nat} {δ ε α : Type}

/-- The second machine is the first one at another verbosity. -/
def Heard (v : Verbosity) (m m' : Machine size δ) : Prop :=
  ∃ log, m.log.Heard v log ∧ m' = { m with log }

/-- Machines that differ in their verbosity only give the same answer. -/
inductive HeardOutcome (v : Verbosity) : Outcome size δ ε α → Outcome size δ ε α → Prop where
  | intro {result m m'} (h : Heard v m m') : HeardOutcome v ⟨result, m⟩ ⟨result, m'⟩

variable {v : Verbosity} {m m' : Machine size δ} {i : Instruction} {e : Effect}

theorem Heard.processor (h : m.Heard v m') : m'.processor = m.processor := by
  obtain ⟨log, _, rfl⟩ := h
  rfl

theorem Heard.memory (h : m.Heard v m') : m'.memory = m.memory := by
  obtain ⟨log, _, rfl⟩ := h
  rfl

theorem Heard.output (h : m.Heard v m') : m'.output = m.output := by
  obtain ⟨log, _, rfl⟩ := h
  rfl

theorem Heard.isRunning (h : m.Heard v m') : m'.isRunning = m.isRunning := by
  rw [Machine.isRunning, h.processor, Machine.isRunning]

theorem Heard.record (h : m.Heard v m') (level : Level) (text : Unit → String) :
    (m.record level text).Heard v (m'.record level text) := by
  obtain ⟨log, hlog, rfl⟩ := h
  exact ⟨_, hlog.record level .processor text, rfl⟩

theorem Heard.fail (h : m.Heard v m') (fault : Fault) : (m.fail fault).Heard v (m'.fail fault) := by
  obtain ⟨log, hlog, rfl⟩ := h
  refine ⟨_, ?_, rfl⟩
  exact hlog.record .error .processor fun _ =>
    "Fault at 0x" ++ hexUpper m.processor.pc.toNat ++ ": " ++ fault.message

theorem Heard.traced (h : m.Heard v m') : m.traced.Heard v m'.traced := by
  obtain ⟨log, hlog, rfl⟩ := h
  refine ⟨_, ?_, rfl⟩
  exact hlog.record .trace .processor fun _ => m.processor.traceText m.memory

theorem Heard.advance (h : m.Heard v m') (t : Transfer) :
    (m.advance t).Heard v (m'.advance t) := by
  obtain ⟨log, hlog, rfl⟩ := h
  exact ⟨log, hlog, rfl⟩

theorem Heard.withOutput (h : m.Heard v m') (output : Output δ) :
    Heard v { m with output } { m' with output } := by
  obtain ⟨log, hlog, rfl⟩ := h
  exact ⟨log, hlog, rfl⟩

/-- The note of an effect does not fail, so it makes no difference whether it is worked out. -/
theorem Heard.complete (h : m.Heard v m') {text : String} (hn : e.note () = .ok text) :
    HeardOutcome v (m.complete e) (m'.complete e) := by
  obtain ⟨log, hlog, rfl⟩ := h
  rw [complete_of_note hn, complete_of_note hn]
  refine .intro ⟨_, ?_, rfl⟩
  exact hlog.record .debug .processor fun _ => text

variable [Device δ]

theorem Heard.perform (h : m.Heard v m') (i : Instruction) :
    HeardOutcome v (m.perform i) (m'.perform i) := by
  have he' : i.effect m'.processor m'.memory = i.effect m.processor m.memory := by
    rw [h.processor, h.memory]
  cases he : i.effect m.processor m.memory with
  | error fault =>
    rw [perform_of_refusal he, perform_of_refusal (he'.trans he)]
    exact .intro h
  | ok e =>
    obtain ⟨rest, hn⟩ := Instruction.note_of_effect he
    rw [perform_of_effect he, perform_of_effect (he'.trans he), h.output]
    rcases m.output.emit e.prints with ⟨failure | _, output⟩
    · exact .intro (h.withOutput output)
    · exact (h.withOutput output).complete hn

theorem Heard.performNext (h : m.Heard v m') : HeardOutcome v m.performNext m'.performNext := by
  unfold Machine.performNext
  rw [h.processor, h.memory]
  cases m.processor.fetch m.memory with
  | error fault => exact .intro h
  | ok i => exact h.perform i

theorem Heard.step (h : m.Heard v m') : HeardOutcome v m.step m'.step := by
  unfold Machine.step
  rw [h.isRunning]
  split
  next =>
    have hnext := h.traced.performNext
    generalize m.traced.performNext = o at hnext ⊢
    generalize m'.traced.performNext = o' at hnext ⊢
    cases hnext with
    | @intro result n n' hn =>
      cases result with
      | error fault => exact .intro (hn.fail fault)
      | ok t => exact .intro (hn.advance t)
  next => exact .intro h

/-- Steps at different verbosities succeed together or meet the same fault. -/
theorem Heard.step_cases (h : m.Heard v m') : ∃ n n', n.Heard v n' ∧
    ((m.step = ⟨.ok (), n⟩ ∧ m'.step = ⟨.ok (), n'⟩) ∨
      ∃ fault, m.step = ⟨.error fault, n⟩ ∧ m'.step = ⟨.error fault, n'⟩) := by
  have hstep := h.step
  generalize m.step = o at hstep ⊢
  generalize m'.step = o' at hstep ⊢
  cases hstep with
  | @intro result n n' hn =>
    cases result with
    | error fault => exact ⟨n, n', hn, .inr ⟨fault, rfl, rfl⟩⟩
    | ok _ => exact ⟨n, n', hn, .inl ⟨rfl, rfl⟩⟩

omit [Device δ] in
theorem Heard.finish? (h : m.Heard v m') : Option.Rel (HeardOutcome v) m.finish? m'.finish? := by
  unfold Machine.finish?
  rw [h.processor]
  cases m.processor.status with
  | running => exact .none
  | halted => exact .some (.intro (h.record .info _))
  | faulted fault => exact .some (.intro h)

theorem Heard.run (h : m.Heard v m') (fuel : Nat) :
    Option.Rel (HeardOutcome v) (m.run fuel) (m'.run fuel) := by
  induction fuel generalizing m m' with
  | zero =>
    have hend := h.finish?
    unfold Machine.run
    generalize m.finish? = o at hend ⊢
    generalize m'.finish? = o' at hend ⊢
    cases hend with
    | none => exact .none
    | some ho => exact .some ho
  | succ fuel ih =>
    have hend := h.finish?
    unfold Machine.run
    generalize m.finish? = o at hend ⊢
    generalize m'.finish? = o' at hend ⊢
    cases hend with
    | some ho => exact .some ho
    | none =>
      obtain ⟨n, n', hn, ⟨hs, hs'⟩ | ⟨fault, hs, hs'⟩⟩ := h.step_cases <;> rw [hs, hs']
      · exact ih hn
      · exact .some (.intro hn)

theorem Heard.countLimited (h : m.Heard v m') (steps left : Nat) :
    HeardOutcome v (m.countLimited steps left) (m'.countLimited steps left) := by
  induction left generalizing m m' steps with
  | zero =>
    unfold Machine.countLimited
    rw [h.isRunning, h.processor]
    split
    · exact .intro h
    · exact .intro h
  | succ left ih =>
    unfold Machine.countLimited
    rw [h.isRunning]
    split
    next =>
      obtain ⟨n, n', hn, ⟨hs, hs'⟩ | ⟨fault, hs, hs'⟩⟩ := h.step_cases <;> rw [hs, hs']
      · exact ih hn (steps + 1)
      · exact .intro hn
    next => exact .intro h

theorem Heard.countUnlimited (h : m.Heard v m') (steps fuel : Nat) :
    Option.Rel (HeardOutcome v) (m.countUnlimited steps fuel) (m'.countUnlimited steps fuel) := by
  induction fuel generalizing m m' steps with
  | zero =>
    unfold Machine.countUnlimited
    rw [h.isRunning]
    split
    · exact .none
    · exact .some (.intro h)
  | succ fuel ih =>
    unfold Machine.countUnlimited
    rw [h.isRunning]
    split
    next =>
      obtain ⟨n, n', hn, ⟨hs, hs'⟩ | ⟨fault, hs, hs'⟩⟩ := h.step_cases <;> rw [hs, hs']
      · exact ih hn (steps + 1)
      · exact .some (.intro hn)
    next => exact .some (.intro h)

theorem Heard.runCounted (h : m.Heard v m') (fuel limit : Nat) :
    Option.Rel (HeardOutcome v) (m.runCounted fuel limit) (m'.runCounted fuel limit) := by
  unfold Machine.runCounted
  split
  · exact h.countUnlimited 0 fuel
  · exact .some (h.countLimited 0 limit)

/-- What may be asked of a machine. A loaded memory takes the place of the one there was; the
listing is loaded over a memory that is chosen freely, or made from the one there is. -/
inductive Request (size : Nat) where
  | step
  | perform (o : Opcode) (a b : UInt8)
  | run
  | runCounted (limit : Nat)
  | load (text : List Char) (base : Memory size → Memory size)

/-- What a request answers. -/
inductive Reply (size : Nat) where
  | stepped (result : Except Fault Unit)
  | performed (result : Except Fault Transfer)
  | ran (result : Except Fault Unit)
  | counted (result : Except Interruption Nat)
  | loaded (result : Except (List Listing.Error) (Memory size))

/-- A request that takes more than `fuel` steps is not answered. -/
def serve (fuel : Nat) (m : Machine size δ) : Request size → Option (Reply size × Machine size δ)
  | .step => some (.stepped m.step.result, m.step.machine)
  | .perform o a b =>
    let outcome := m.perform (o.instruction a b)
    some (.performed outcome.result, outcome.machine)
  | .run => (m.run fuel).map fun o => (.ran o.result, o.machine)
  | .runCounted limit => (m.runCounted fuel limit).map fun o => (.counted o.result, o.machine)
  | .load text base =>
    let loaded := Listing.load text (base m.memory) m.log
    some (.loaded loaded.1, { m with memory := loaded.1.toOption.getD m.memory, log := loaded.2 })

/-- Serves one request after the other. -/
def serveAll (fuel : Nat) (m : Machine size δ) :
    List (Request size) → Option (List (Reply size) × Machine size δ)
  | [] => some ([], m)
  | r :: rs => do
    let (reply, m) ← m.serve fuel r
    let (replies, m) ← m.serveAll fuel rs
    return (reply :: replies, m)

/-- The requests served at a verbosity, with nothing logged before. -/
def serveAt (fuel : Nat) (m : Machine size δ) (v : Verbosity) (rs : List (Request size)) :
    Option (List (Reply size) × Machine size δ) :=
  serveAll fuel { m with log := .empty v } rs

/-- The same replies, by machines that differ in their verbosity only. -/
def HeardReply {ρ : Type} (v : Verbosity) (p p' : ρ × Machine size δ) : Prop :=
  p'.1 = p.1 ∧ p.2.Heard v p'.2

omit [Device δ] in
theorem heardReply_map {ρ : Type} {o o' : Option (Outcome size δ ε α)}
    (h : Option.Rel (HeardOutcome v) o o') (f : Except ε α → ρ) :
    Option.Rel (HeardReply v) (o.map fun o => (f o.result, o.machine))
      (o'.map fun o => (f o.result, o.machine)) := by
  cases h with
  | none => exact .none
  | some ho =>
    cases ho with
    | intro hm => exact .some ⟨rfl, hm⟩

omit [Device δ] in
theorem map_eq_of_heard {ρ β : Type} {p p' : Option (ρ × Machine size δ)}
    (h : Option.Rel (HeardReply v) p p') {f g : ρ × Machine size δ → β}
    (hfg : ∀ r m m', Heard v m m' → g (r, m') = f (r, m)) : p'.map g = p.map f := by
  cases h with
  | none => rfl
  | some hp =>
    obtain ⟨hr, hm⟩ := hp
    exact congrArg some ((congrArg (fun r => g (r, _)) hr).trans (hfg _ _ _ hm))

theorem Heard.serve (h : m.Heard v m') (fuel : Nat) (r : Request size) :
    Option.Rel (HeardReply v) (m.serve fuel r) (m'.serve fuel r) := by
  cases r with
  | step => exact heardReply_map (.some h.step) Reply.stepped
  | perform o a b => exact heardReply_map (.some (h.perform (o.instruction a b))) Reply.performed
  | run => exact heardReply_map (h.run fuel) Reply.ran
  | runCounted limit => exact heardReply_map (h.runCounted fuel limit) Reply.counted
  | load text base =>
    obtain ⟨log, hlog, rfl⟩ := h
    obtain ⟨hresult, hload⟩ := Listing.heard_load hlog text (base m.memory)
    refine .some ⟨congrArg Reply.loaded hresult, _, hload, ?_⟩
    show Machine.mk m.processor (Except.toOption _ |>.getD m.memory) m.output _ = _
    rw [hresult]

theorem Heard.serveAll (h : m.Heard v m') (fuel : Nat) (rs : List (Request size)) :
    Option.Rel (HeardReply v) (m.serveAll fuel rs) (m'.serveAll fuel rs) := by
  induction rs generalizing m m' with
  | nil => exact .some ⟨rfl, h⟩
  | cons r rs ih =>
    have hfirst := h.serve fuel r
    unfold Machine.serveAll
    generalize m.serve fuel r = o at hfirst ⊢
    generalize m'.serve fuel r = o' at hfirst ⊢
    cases hfirst with
    | none => exact .none
    | @some p p' hp =>
      obtain ⟨reply, n⟩ := p
      obtain ⟨reply', n'⟩ := p'
      obtain ⟨rfl, hn⟩ := hp
      have hrest := ih hn
      simp only [Option.bind_eq_bind, Option.bind_some]
      generalize n.serveAll fuel rs = o at hrest ⊢
      generalize n'.serveAll fuel rs = o' at hrest ⊢
      cases hrest with
      | none => exact .none
      | some hp => exact .some ⟨congrArg (reply' :: ·) hp.1, hp.2⟩

/-- Nothing that a machine or a loader does depends on the verbosity of the log: all replies, the
processor, the memory and the output are the same. The log has the entries of the log that admits
every entry, in the same order, but for those that the verbosity does not admit. The only text of
the log that could fail, the one for an operation, never does, because the register that it reads
exists. -/
theorem verbosity_changes_log_only (m : Machine size δ) (fuel : Nat) (rs : List (Request size)) :
    (∀ v v', ((m.serveAt fuel v rs).map fun p =>
        (p.1, p.2.processor, p.2.memory, p.2.output)) =
      (m.serveAt fuel v' rs).map fun p => (p.1, p.2.processor, p.2.memory, p.2.output)) ∧
    (∀ v, ((m.serveAt fuel v rs).map fun p => p.2.log.entries) =
      (m.serveAt fuel (.upTo .trace) rs).map fun p =>
        p.2.log.entries.filter fun e => v.admits e.level) ∧
    ∀ op a b (p : Processor) (memory : Memory size) e,
      (Instruction.arith op a b).effect p memory = .ok e →
      ∃ value, e.registers.get a = .ok value := by
  have hheard : ∀ v, Option.Rel (HeardReply v) (m.serveAt fuel (.upTo .trace) rs)
      (m.serveAt fuel v rs) := by
    intro v
    have h : Heard v { m with log := .empty (.upTo .trace) } { m with log := .empty v } :=
      ⟨_, Log.heard_empty v, rfl⟩
    exact h.serveAll fuel rs
  have hsame : ∀ v, ((m.serveAt fuel v rs).map fun p =>
        (p.1, p.2.processor, p.2.memory, p.2.output)) =
      (m.serveAt fuel (.upTo .trace) rs).map fun p =>
        (p.1, p.2.processor, p.2.memory, p.2.output) := by
    intro v
    refine map_eq_of_heard (hheard v) fun r n n' hn => ?_
    obtain ⟨log, _, rfl⟩ := hn
    rfl
  refine ⟨fun v v' => (hsame v).trans (hsame v').symm, ?_, ?_⟩
  · intro v
    refine map_eq_of_heard (hheard v) fun r n n' hn => ?_
    obtain ⟨log, hlog, rfl⟩ := hn
    exact congrArg Log.entries hlog.rest
  · intro op a b p memory e he
    cases Instruction.performs_of_effect he with
    | arith hr => exact Instruction.get_of_apply hr

end Machine
end EightBit
