import EightBit.Machine.Run
import EightBit.Output.Limited
import EightBit.Proofs.Machine.History

/-! Runs to the end, with and without a limit. All of them lead through the same machines and
differ only in where they stop and in what they answer. -/
namespace EightBit

/-- What a counted run answers that has brought a machine to this status in `steps` steps. -/
def Status.answer (s : Status) (steps : Nat) (pc : UInt16) : Except Interruption Nat :=
  match s with
  | .running => .error (.limit steps pc)
  | .halted => .ok steps
  | .faulted fault => .error (.fault fault)

namespace Machine

variable {size : Nat} {δ : Type} [Device δ]

/-- The machine runs for `k` steps, and they bring it to the status `s`. -/
structure Reaches (m : Machine size δ) (k : Nat) (s : Status) : Prop where
  runs : ∀ j < k, (m.after j).isRunning = true
  status : (m.after k).processor.status = s

variable {m : Machine size δ} {s : Status} {fault : Fault} {a b k fuel left steps : Nat}

theorem Reaches.trans (h : m.Reaches a .running) (h' : (m.after a).Reaches b s) :
    m.Reaches (a + b) s := by
  refine ⟨fun j hj => ?_, by rw [← after_add, h'.status]⟩
  rcases Nat.lt_or_ge j a with hja | hja
  · exact h.runs j hja
  · obtain ⟨r, rfl⟩ := Nat.exists_eq_add_of_le hja
    rw [← after_add]
    exact h'.runs r (by omega)

/-- After the first step the rest of the way is left. -/
theorem Reaches.tail (h : m.Reaches (k + 1) s) :
    m.isRunning = true ∧ m.step.machine.Reaches k s := by
  refine ⟨h.runs 0 (by omega), fun j hj => ?_, by rw [after_step, h.status]⟩
  rw [after_step]
  exact h.runs (j + 1) (by omega)

/-- A first step that fails is the last one. -/
theorem Reaches.first (h : m.Reaches (k + 1) s) :
    (m.step.result = .ok () ∧ ∀ fault, m.step.machine.processor.status ≠ .faulted fault) ∨
    k = 0 ∧ ∃ fault, m.step.result = .error fault ∧ s = .faulted fault := by
  obtain ⟨hrun, ht⟩ := h.tail
  rcases status_step (isRunning_iff.mp hrun) with hok | ⟨fault, hr, hf⟩
  · exact .inl hok
  · cases k with
    | zero => exact .inr ⟨rfl, fault, hr, ht.status.symm.trans hf⟩
    | succ k =>
      have := isRunning_iff.mp (ht.runs 0 (by omega))
      rw [after, hf] at this
      cases this

/-- Only the last step can fail. -/
theorem Reaches.last_of_error (h : m.Reaches k s) {j : Nat} (hj : j < k)
    (hf : (m.after j).step.result = .error fault) : j + 1 = k ∧ s = .faulted fault := by
  rcases status_step (isRunning_iff.mp (h.runs j hj)) with ⟨hok, _⟩ | ⟨fault', hres, hstatus⟩
  · cases hok.symm.trans hf
  · cases hres.symm.trans hf
    rcases Nat.lt_or_eq_of_le (Nat.succ_le_of_lt hj) with hlt | rfl
    · cases (isRunning_iff.mp (h.runs (j + 1) hlt)).symm.trans hstatus
    · exact ⟨rfl, h.status.symm.trans hstatus⟩

theorem Reaches.succeeds (h : m.Reaches k .halted) : m.Succeeds k := by
  intro j hj
  cases hres : (m.after j).step.result with
  | ok _ => rfl
  | error fault => cases (h.last_of_error hj hres).2

/-- Within `n` steps the machine comes to an end, or it runs still. -/
theorem exists_reaches (m : Machine size δ) (n : Nat) :
    ∃ k ≤ n, ∃ s, m.Reaches k s ∧ (s = .running → k = n) := by
  induction n with
  | zero => exact ⟨0, Nat.le_refl 0, _, ⟨by simp, rfl⟩, fun _ => rfl⟩
  | succ n ih =>
    obtain ⟨k, hk, s, h, hs⟩ := ih
    by_cases hrun : s = .running
    · obtain rfl := hs hrun
      subst hrun
      refine ⟨k + 1, Nat.le_refl _, _, ⟨fun j hj => ?_, rfl⟩, fun _ => rfl⟩
      rcases Nat.lt_succ_iff_lt_or_eq.mp hj with hjk | rfl
      · exact h.runs j hjk
      · exact isRunning_iff.mpr h.status
    · exact ⟨k, by omega, s, h, fun he => (hrun he).elim⟩

/-- A limited run stops at the end of the machine or at the limit, whichever comes first. -/
theorem countLimited_of_reaches (h : m.Reaches k s) (hk : k ≤ left)
    (hs : s = .running → k = left) (hm : ∀ fault, m.processor.status ≠ .faulted fault) :
    m.countLimited steps left =
      ⟨s.answer (steps + k) (m.after k).processor.pc, m.after k⟩ := by
  induction k generalizing m steps left with
  | zero =>
    have hst : m.processor.status = s := h.status
    subst hst
    cases hp : m.processor.status with
    | running =>
      obtain rfl := hs hp
      simp [countLimited, isRunning, hp, Status.answer, after]
    | halted => cases left <;> simp [countLimited, isRunning, hp, Status.answer, after]
    | faulted fault => exact (hm fault hp).elim
  | succ k ih =>
    obtain ⟨hrun, ht⟩ := h.tail
    obtain ⟨left, rfl⟩ := Nat.exists_eq_add_of_le' (show 1 ≤ left by omega)
    rcases h.first with ⟨hok, hnf⟩ | ⟨rfl, fault, herr, rfl⟩
    · rw [countLimited, if_pos hrun, step_eq hok]
      show m.step.machine.countLimited (steps + 1) left = _
      rw [ih ht (by omega) (fun he => by have := hs he; omega) hnf, after_step, Nat.add_right_comm,
        Nat.add_assoc]
    · rw [countLimited, if_pos hrun, step_eq herr]
      rfl

/-- An unlimited run stops at the end of the machine. -/
theorem countUnlimited_of_reaches (h : m.Reaches k s) (hk : k ≤ fuel) (hs : s ≠ .running)
    (hm : ∀ fault, m.processor.status ≠ .faulted fault) : m.countUnlimited steps fuel =
      some ⟨s.answer (steps + k) (m.after k).processor.pc, m.after k⟩ := by
  induction k generalizing m steps fuel with
  | zero =>
    have hst : m.processor.status = s := h.status
    subst hst
    cases hp : m.processor.status with
    | running => exact (hs hp).elim
    | halted => cases fuel <;> simp [countUnlimited, isRunning, hp, Status.answer, after]
    | faulted fault => exact (hm fault hp).elim
  | succ k ih =>
    obtain ⟨hrun, ht⟩ := h.tail
    obtain ⟨fuel, rfl⟩ := Nat.exists_eq_add_of_le' (show 1 ≤ fuel by omega)
    rcases h.first with ⟨hok, hnf⟩ | ⟨rfl, fault, herr, rfl⟩
    · rw [countUnlimited, if_pos hrun, step_eq hok]
      show m.step.machine.countUnlimited (steps + 1) fuel = _
      rw [ih ht (by omega) hnf, after_step, Nat.add_right_comm, Nat.add_assoc]
    · rw [countUnlimited, if_pos hrun, step_eq herr]
      rfl

omit [Device δ] in
theorem finish?_of_running (h : m.isRunning = true) : m.finish? = none := by
  simp [finish?, isRunning_iff.mp h]

/-- A run to the end answers what the machine at its end says. -/
theorem run_of_reaches (h : m.Reaches k s) (hk : k ≤ fuel) (hs : s ≠ .running) :
    m.run fuel = (m.after k).finish? := by
  induction k generalizing m fuel with
  | zero =>
    have hst : m.processor.status = s := h.status
    cases hp : m.processor.status with
    | running => exact (hs (hst.symm.trans hp)).elim
    | halted | faulted fault => cases fuel <;> simp [run, finish?, hp, after]
  | succ k ih =>
    obtain ⟨hrun, ht⟩ := h.tail
    obtain ⟨fuel, rfl⟩ := Nat.exists_eq_add_of_le' (show 1 ≤ fuel by omega)
    rcases h.first with ⟨hok, _⟩ | ⟨rfl, fault, herr, rfl⟩
    · rw [run, finish?_of_running hrun, step_eq hok]
      show m.step.machine.run fuel = _
      rw [ih ht (by omega), after_step]
    · have hf : m.step.machine.processor.status = .faulted fault := h.status
      rw [run, finish?_of_running hrun, step_eq herr]
      simp [finish?, after, hf]

/-- A run to the end of a machine that halts changes nothing more but the log. -/
theorem run_of_halted (h : m.Reaches k .halted) :
    ∃ log, ∀ fuel, k ≤ fuel → m.run fuel = some ⟨.ok (), { m.after k with log }⟩ := by
  refine ⟨((m.after k).record .info fun _ =>
    "Program halted at 0x" ++ hexUpper (m.after k).processor.pc.toNat).log, ?_⟩
  intro fuel hk
  rw [run_of_reaches h hk (by simp), finish?, h.status]
  rfl

/-- There is no answer while the machine runs. -/
theorem run_of_running (h : m.Reaches fuel .running) : m.run fuel = none := by
  induction fuel generalizing m with
  | zero =>
    have hrun : m.isRunning = true := isRunning_iff.mpr h.status
    rw [run, finish?_of_running hrun]
  | succ fuel ih =>
    obtain ⟨hrun, ht⟩ := h.tail
    rcases h.first with ⟨hok, _⟩ | ⟨_, fault, _, hs⟩
    · rw [run, finish?_of_running hrun, step_eq hok]
      exact ih ht
    · cases hs

/-- A run to the end answers at the end of the machine, if the fuel lasts that long. -/
theorem run_eq_some_iff {o : Outcome size δ Fault Unit} : m.run fuel = some o ↔
    ∃ k s, m.Reaches k s ∧ s ≠ .running ∧ k ≤ fuel ∧ (m.after k).finish? = some o := by
  constructor
  · intro h
    obtain ⟨k, hk, s, hreach, hs⟩ := m.exists_reaches fuel
    by_cases hrun : s = .running
    · obtain rfl := hs hrun
      rw [run_of_running (hrun ▸ hreach)] at h
      cases h
    · rw [run_of_reaches hreach hk hrun] at h
      exact ⟨k, s, hreach, hrun, hk, h⟩
  · rintro ⟨k, s, hreach, hs, hk, h⟩
    rw [run_of_reaches hreach hk hs, h]

/-- A counted run with a counter and a limit of 64 bits, the limit compared with the counter in
every round. There is no answer if the counter overflows or `fuel` steps do not suffice. -/
def countWord (limit steps : UInt64) (m : Machine size δ) (fuel : Nat) :
    Option (Outcome size δ Interruption Nat) :=
  if m.isRunning then
    if limit ≠ 0 ∧ limit ≤ steps then
      some ⟨.error (.limit steps.toNat m.processor.pc), m⟩
    else
      match fuel with
      | 0 => none
      | fuel + 1 =>
        match m.step with
        | ⟨.ok (), m⟩ =>
          if steps.toNat + 1 < UInt64.size then m.countWord limit (steps + 1) fuel else none
        | ⟨.error fault, m⟩ => some ⟨.error (.fault fault), m⟩
  else some ⟨.ok steps.toNat, m⟩

theorem toNat_succ {n : UInt64} (h : n.toNat + 1 < UInt64.size) : (n + 1).toNat = n.toNat + 1 := by
  simpa using Nat.mod_eq_of_lt h

/-- The counter of a limited run never passes the limit, so it does not overflow. -/
theorem countWord_eq_countLimited {limit counter : UInt64} (hl : limit ≠ 0)
    (hc : limit.toNat = counter.toNat + left) (hf : left ≤ fuel) :
    m.countWord limit counter fuel = some (m.countLimited counter.toNat left) := by
  induction left generalizing m counter fuel with
  | zero =>
    have hle : limit ≤ counter := by rw [UInt64.le_iff_toNat_le]; omega
    cases hrun : m.isRunning <;> unfold countWord <;> simp [countLimited, hrun, hl, hle]
  | succ left ih =>
    obtain ⟨fuel, rfl⟩ := Nat.exists_eq_add_of_le' (show 1 ≤ fuel by omega)
    cases hrun : m.isRunning with
    | false => simp [countWord, countLimited, hrun]
    | true =>
      have hlt : ¬ (limit ≠ 0 ∧ limit ≤ counter) := by rw [UInt64.le_iff_toNat_le]; omega
      have hsize : counter.toNat + 1 < UInt64.size := by have := limit.toNat_lt_size; omega
      rw [countWord, countLimited, if_pos hrun, if_pos hrun, if_neg hlt]
      rcases hr : m.step.result with fault | _ <;> rw [step_eq hr]
      show (if _ then m.step.machine.countWord limit (counter + 1) fuel else none) =
        some (m.step.machine.countLimited (counter.toNat + 1) left)
      rw [if_pos hsize, ih (by rw [toNat_succ hsize]; omega) (by omega), toNat_succ hsize]

/-- Without a limit the counter does not overflow if the end comes before step 2^64. -/
theorem countWord_of_reaches {counter : UInt64} (h : m.Reaches k s) (hk : k ≤ fuel)
    (hs : s ≠ .running) (hm : ∀ fault, m.processor.status ≠ .faulted fault)
    (hc : counter.toNat + k < UInt64.size) : m.countWord 0 counter fuel =
      some ⟨s.answer (counter.toNat + k) (m.after k).processor.pc, m.after k⟩ := by
  induction k generalizing m counter fuel with
  | zero =>
    have hst : m.processor.status = s := h.status
    subst hst
    cases hp : m.processor.status with
    | running => exact (hs hp).elim
    | halted => unfold countWord; simp [isRunning, hp, Status.answer, after]
    | faulted fault => exact (hm fault hp).elim
  | succ k ih =>
    obtain ⟨hrun, ht⟩ := h.tail
    obtain ⟨fuel, rfl⟩ := Nat.exists_eq_add_of_le' (show 1 ≤ fuel by omega)
    have hsize : counter.toNat + 1 < UInt64.size := by omega
    have hcount : (counter + 1).toNat = counter.toNat + 1 := toNat_succ hsize
    rcases h.first with ⟨hok, hnf⟩ | ⟨rfl, fault, herr, rfl⟩
    · rw [countWord, if_pos hrun, if_neg (by simp), step_eq hok]
      show (if _ then m.step.machine.countWord 0 (counter + 1) fuel else none) = _
      rw [if_pos hsize, ih ht (by omega) hnf (by omega), hcount, after_step, Nat.add_right_comm,
        Nat.add_assoc]
    · rw [countWord, if_pos hrun, if_neg (by simp), step_eq herr]
      rfl

omit [Device δ] in
theorem not_faulted_of_isRunning (h : m.isRunning = true) (fault : Fault) :
    m.processor.status ≠ .faulted fault := by
  simp [isRunning_iff.mp h]

theorem runCounted_of_reaches {limit : Nat} (hr : m.isRunning = true) (h : m.Reaches k s)
    (hl : 0 < limit) (hk : k ≤ limit) (hs : s = .running → k = limit) :
    m.runCounted fuel limit = some ⟨s.answer k (m.after k).processor.pc, m.after k⟩ := by
  rw [runCounted, if_neg (by omega),
    countLimited_of_reaches h hk hs (not_faulted_of_isRunning hr), Nat.zero_add]

/-- Without a limit there is no answer while the machine runs. -/
theorem countUnlimited_of_running (h : m.Reaches fuel .running) :
    m.countUnlimited steps fuel = none := by
  induction fuel generalizing m steps with
  | zero => exact if_pos (isRunning_iff.mpr h.status)
  | succ fuel ih =>
    obtain ⟨hrun, ht⟩ := h.tail
    rcases h.first with ⟨hok, _⟩ | ⟨_, fault, _, hs⟩
    · rw [countUnlimited, if_pos hrun, step_eq hok]
      exact ih ht
    · cases hs

/-- A counted run stops after `k` steps because of the status `s`. A machine that runs is stopped
only by the limit. -/
structure Stops (m : Machine size δ) (limit k : Nat) (s : Status) : Prop where
  reaches : m.Reaches k s
  within : limit = 0 ∨ k ≤ limit
  full : s = .running → limit ≠ 0 ∧ k = limit

/-- A counted run of a running machine answers where it stops, and fuel is needed only if there is
no limit. -/
theorem runCounted_eq_some_iff {limit : Nat} {o : Outcome size δ Interruption Nat}
    (hr : m.isRunning = true) : m.runCounted fuel limit = some o ↔
      ∃ k s, m.Stops limit k s ∧ (limit = 0 → k ≤ fuel) ∧
        o = ⟨s.answer k (m.after k).processor.pc, m.after k⟩ := by
  have hm := not_faulted_of_isRunning hr
  constructor
  · intro h
    by_cases hl : limit = 0
    · obtain ⟨k, hk, s, hreach, hs⟩ := m.exists_reaches fuel
      rw [runCounted, if_pos hl] at h
      by_cases hrun : s = .running
      · obtain rfl := hs hrun
        rw [countUnlimited_of_running (hrun ▸ hreach)] at h
        cases h
      · rw [countUnlimited_of_reaches hreach hk hrun hm, Nat.zero_add] at h
        exact ⟨k, s, ⟨hreach, .inl hl, fun he => (hrun he).elim⟩, fun _ => hk,
          (Option.some.inj h).symm⟩
    · obtain ⟨k, hk, s, hreach, hs⟩ := m.exists_reaches limit
      rw [runCounted_of_reaches hr hreach (Nat.pos_of_ne_zero hl) hk hs] at h
      exact ⟨k, s, ⟨hreach, .inr hk, fun he => ⟨hl, hs he⟩⟩, fun h0 => (hl h0).elim,
        (Option.some.inj h).symm⟩
  · rintro ⟨k, s, ⟨hreach, hwithin, hfull⟩, hfuel, rfl⟩
    by_cases hl : limit = 0
    · have hs : s ≠ .running := fun he => (hfull he).1 hl
      rw [runCounted, if_pos hl, countUnlimited_of_reaches hreach (hfuel hl) hs hm, Nat.zero_add]
    · exact runCounted_of_reaches hr hreach (Nat.pos_of_ne_zero hl) (hwithin.resolve_left hl)
        fun he => (hfull he).2

/-- The answer of a counted run that goes on behind `n` steps of another one. -/
def later (n : Nat) : Except Interruption Nat → Except Interruption Nat
  | .ok steps => .ok (n + steps)
  | .error (.limit steps pc) => .error (.limit (n + steps) pc)
  | .error (.fault fault) => .error (.fault fault)

theorem later_answer (n k : Nat) (s : Status) (pc : UInt16) :
    later n (s.answer k pc) = s.answer (n + k) pc := by
  cases s <;> rfl

/-- A run that goes on where another one has met its limit ends like one run with both limits. -/
theorem runCounted_add {n n' stop : Nat} {pc : UInt16} {m' : Machine size δ}
    (hr : m.isRunning = true) (hn : 0 < n) (hn' : 0 < n')
    (h : m.runCounted fuel n = some ⟨.error (.limit stop pc), m'⟩) :
    ∃ o, m'.runCounted fuel n' = some o ∧
      m.runCounted fuel (n + n') = some ⟨later n o.result, o.machine⟩ := by
  obtain ⟨k, hk, s, hreach, hs⟩ := m.exists_reaches n
  rw [runCounted_of_reaches hr hreach hn hk hs] at h
  cases s with
  | halted | faulted => simp [Status.answer] at h
  | running =>
    obtain rfl := hs rfl
    obtain rfl : m.after k = m' := by simpa [Status.answer] using congrArg (·.map (·.machine)) h
    obtain ⟨k', hk', s', hreach', hs'⟩ := (m.after k).exists_reaches n'
    have hboth := hreach.trans hreach'
    refine ⟨_, runCounted_of_reaches (isRunning_iff.mpr hreach.status) hreach' hn' hk' hs', ?_⟩
    rw [runCounted_of_reaches hr hboth (by omega) (by omega)
      (fun he => by have := hs' he; omega), later_answer, after_add]

/-- All ways of running a machine lead through the same machines. A limited run stops where the
machine does, if that is within the limit, and else exactly at the limit, where another run can
take it up again. Runs without a limit stop where the machine does. A counter of 64 bits is large
enough. -/
theorem runs_agree (hr : m.isRunning = true) :
    (∀ limit, 0 < limit → ∃ outcome, (∀ fuel, m.runCounted fuel limit = some outcome) ∧
      (∀ k ≤ limit, m.Reaches k .halted → outcome = ⟨.ok k, m.after k⟩) ∧
      (∀ k ≤ limit, ∀ fault, m.Reaches k (.faulted fault) →
        outcome = ⟨.error (.fault fault), m.after k⟩) ∧
      ((∀ k ≤ limit, (m.after k).isRunning = true) → ∃ stop,
        outcome = ⟨.error stop, m.after limit⟩ ∧
        stop.message = "stopped after " ++ decimal limit ++ " instructions at 0x" ++
          hexUpper (m.after limit).processor.pc.toNat)) ∧
    (∀ k fuel, k ≤ fuel →
      (m.Reaches k .halted → m.runCounted fuel 0 = some ⟨.ok k, m.after k⟩ ∧
        ∃ log, m.run fuel = some ⟨.ok (), { m.after k with log }⟩) ∧
      ∀ fault, m.Reaches k (.faulted fault) →
        m.runCounted fuel 0 = some ⟨.error (.fault fault), m.after k⟩ ∧
        m.run fuel = some ⟨.error fault, m.after k⟩) ∧
    (∀ n n' stop pc m' fuel, 0 < n → 0 < n' →
      m.runCounted fuel n = some ⟨.error (.limit stop pc), m'⟩ →
      ∃ o, m'.runCounted fuel n' = some o ∧
        m.runCounted fuel (n + n') = some ⟨later n o.result, o.machine⟩) ∧
    (∀ (limit : UInt64) fuel, limit ≠ 0 → limit.toNat ≤ fuel →
      m.countWord limit 0 fuel = m.runCounted fuel limit.toNat) ∧
    ∀ k s fuel, m.Reaches k s → s ≠ .running → k < UInt64.size → k ≤ fuel →
      m.countWord 0 0 fuel = m.runCounted fuel 0 := by
  have hm := not_faulted_of_isRunning hr
  have hlimited : ∀ {k s limit}, m.Reaches k s → k ≤ limit → (s = .running → k = limit) →
      m.countLimited 0 limit = ⟨s.answer k (m.after k).processor.pc, m.after k⟩ := by
    intro k s limit h hk hs
    rw [countLimited_of_reaches h hk hs hm, Nat.zero_add]
  have hunlimited : ∀ {k s fuel}, m.Reaches k s → s ≠ .running → k ≤ fuel →
      m.runCounted fuel 0 = some ⟨s.answer k (m.after k).processor.pc, m.after k⟩ := by
    intro k s fuel h hs hk
    rw [runCounted, if_pos rfl, countUnlimited_of_reaches h hk hs hm, Nat.zero_add]
  refine ⟨?_, ?_, ?_, ?_, ?_⟩
  · intro limit hl
    refine ⟨m.countLimited 0 limit, ?_, ?_, ?_, ?_⟩
    · intro fuel
      exact if_neg (by omega)
    · intro k hk h
      exact hlimited h hk (by simp)
    · intro k hk fault h
      exact hlimited h hk (by simp)
    · intro h
      have hreach : m.Reaches limit .running :=
        ⟨fun j hj => h j (Nat.le_of_lt hj), isRunning_iff.mp (h limit (Nat.le_refl limit))⟩
      exact ⟨_, hlimited hreach (Nat.le_refl limit) fun _ => rfl, rfl⟩
  · intro k fuel hk
    constructor
    · intro h
      obtain ⟨log, hrun⟩ := run_of_halted h
      exact ⟨hunlimited h (by simp) hk, log, hrun fuel hk⟩
    · intro fault h
      refine ⟨hunlimited h (by simp) hk, ?_⟩
      rw [run_of_reaches h hk (by simp), finish?, h.status]
  · intro n n' stop pc m' fuel hn hn' h
    exact runCounted_add hr hn hn' h
  · intro limit fuel hl hf
    have hpos : limit.toNat ≠ 0 := by simpa [← UInt64.toNat_inj] using hl
    rw [countWord_eq_countLimited hl (by simp) hf, runCounted, if_neg hpos]
    rfl
  · intro k s fuel h hs hsize hk
    rw [hunlimited h hs hk, countWord_of_reaches h hk hs hm (by simpa using hsize)]
    simp

/-- Loads 8 into a register, prints it and halts. -/
def printer : Machine 6 Unlimited where
  processor := .startingAt 0
  memory := ⟨#v[0x82, 0, 8, 0x47, 0, 0x01]⟩
  output := ⟨.device, ""⟩
  log := .empty .off

theorem reaches_printer : printer.Reaches 3 .halted :=
  ⟨by decide, by decide⟩

theorem printer_runs_agree :
    printer.isRunning = true ∧ printer.Reaches 3 .halted ∧
    printer.runCounted 0 3 = some ⟨.ok 3, printer.after 3⟩ ∧
    (∃ stop, printer.runCounted 0 2 = some ⟨.error stop, printer.after 2⟩ ∧
      stop.message = "stopped after 2 instructions at 0x05") ∧
    (∃ log, printer.run 3 = some ⟨.ok (), { printer.after 3 with log }⟩) ∧
    (∃ o, (printer.after 2).runCounted 0 1 = some o ∧
      printer.runCounted 0 (2 + 1) = some ⟨later 2 o.result, o.machine⟩) ∧
    printer.countWord 3 0 3 = printer.runCounted 3 3 ∧
    printer.countWord 0 0 3 = printer.runCounted 3 0 := by
  have hrun : printer.isRunning = true := by decide
  obtain ⟨hlimited, hfree, hadd, hword, hfreeWord⟩ := runs_agree hrun
  obtain ⟨o, ho, hhalt, _, _⟩ := hlimited 3 (by decide)
  obtain ⟨o', ho', _, _, hstop⟩ := hlimited 2 (by decide)
  obtain ⟨stop, hstop, hmessage⟩ := hstop (by decide)
  have hlimit : printer.runCounted 0 2 = some ⟨.error (.limit 2 5), printer.after 2⟩ := by rfl
  refine ⟨hrun, reaches_printer, ?_, ⟨stop, ?_, hmessage⟩, ?_, ?_, ?_, ?_⟩
  · rw [ho, hhalt 3 (by decide) reaches_printer]
  · rw [ho', hstop]
  · exact ((hfree 3 3 (by decide)).1 reaches_printer).2
  · exact hadd 2 1 2 5 _ 0 (by decide) (by decide) hlimit
  · exact hword 3 3 (by decide) (by decide)
  · exact hfreeWord 3 .halted 3 reaches_printer (by simp) (by decide) (by decide)

end Machine
end EightBit
