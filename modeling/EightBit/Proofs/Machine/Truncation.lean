import EightBit.Proofs.Machine.History
import EightBit.Proofs.Printing.Limited

/-! Machines that print on a device with limited room, beside machines that are the same but for a
device that refuses nothing. -/
namespace EightBit.Machine

open Output

variable {size : Nat} {δ ε : Type}

/-- The same processor, memory and printed text; devices and logs may differ. -/
structure Alike (m : Machine size δ) (m' : Machine size ε) : Prop where
  processor : m'.processor = m.processor
  memory : m'.memory = m.memory
  printed : m'.output.printed = m.output.printed

/-- The number that the next step is to print. -/
def prints? (m : Machine size δ) : Option UInt8 :=
  match m.instruction? with
  | some (.prn r) => (m.processor.registers.get r).toOption
  | _ => none

/-- What the next step offers to the device. -/
def offer (m : Machine size δ) : List Char :=
  offered m.prints?

/-- What the first `n` steps offer. -/
def offers [Device δ] (m : Machine size δ) (n : Nat) : List Char :=
  (List.range n).flatMap fun k => (m.after k).offer

section

variable {m : Machine size δ} {m' : Machine size ε} {i : Instruction} {e : Effect} {fault : Fault}

theorem prints?_of_no_instruction (h : m.instruction? = none) : m.prints? = none := by
  simp [prints?, h]

theorem prints?_of_effect (hi : m.instruction? = some i)
    (he : i.effect m.processor m.memory = .ok e) : m.prints? = e.prints := by
  cases Instruction.performs_of_effect he <;>
    simp_all [prints?, Instruction.passing, Except.toOption]

theorem prints?_of_refusal (hi : m.instruction? = some i)
    (he : i.effect m.processor m.memory = .error fault) : m.prints? = none := by
  cases i with
  | prn r =>
    rcases bind_eq_error_iff.mp he with hg | ⟨_, _, hp⟩
    · simp [prints?, hi, hg, Except.toOption]
    · cases hp
  | _ => simp [prints?, hi]

theorem prn_of_prints? {value : UInt8} (h : m.prints? = some value) :
    ∃ r, m.instruction? = some (.prn r) ∧ m.processor.registers.get r = .ok value := by
  unfold prints? at h
  split at h
  next r hi =>
    refine ⟨r, hi, ?_⟩
    cases hg : m.processor.registers.get r <;> simp_all [Except.toOption]
  next => cases h

theorem Alike.instruction? (h : m.Alike m') : m'.instruction? = m.instruction? := by
  simp [Machine.instruction?, isRunning, h.processor, h.memory]

theorem Alike.prints? (h : m.Alike m') : m'.prints? = m.prints? := by
  simp [Machine.prints?, h.instruction?, h.processor]

end

section

variable [Device δ] [Device ε] {m : Machine size δ} {m' : Machine size ε}

/-- A step offers to the device what it is to print, and nothing else. -/
theorem output_step (m : Machine size δ) :
    m.step.machine.output = (m.output.emit m.prints?).2 := by
  cases hrun : m.isRunning with
  | false =>
    rw [step_of_not_running hrun, prints?_of_no_instruction (by simp [instruction?, hrun])]
    rfl
  | true =>
    have hr := isRunning_iff.mp hrun
    have hs := stepped_step hr
    generalize m.step = outcome at hs ⊢
    cases hs with
    | unfetched hf =>
      rw [prints?_of_no_instruction (by simp [instruction?, hf, Except.toOption])]
      rfl
    | refused hf he =>
      rw [prints?_of_refusal (instruction?_of_fetch hr hf) he]
      rfl
    | unprinted hf he ho =>
      rw [prints?_of_effect (instruction?_of_fetch hr hf) he, ho]
      rfl
    | done hf he ho =>
      rw [prints?_of_effect (instruction?_of_fetch hr hf) he, ho]
      rfl

/-- Machines that are alike stay alike in a step in which their devices do the same. -/
theorem Alike.step (h : m.Alike m')
    (hres : (m'.output.emit m.prints?).1 = (m.output.emit m.prints?).1)
    (hout : (m'.output.emit m.prints?).2.printed = (m.output.emit m.prints?).2.printed) :
    m'.step.result = m.step.result ∧ m.step.machine.Alike m'.step.machine := by
  cases hrun : m.isRunning with
  | false =>
    have hrun' : m'.isRunning = false := by rwa [isRunning, h.processor]
    rw [step_of_not_running hrun, step_of_not_running hrun']
    exact ⟨rfl, h⟩
  | true =>
    have hr := isRunning_iff.mp hrun
    have hr' : m'.processor.status = .running := by rw [h.processor, hr]
    have hs := stepped_step hr
    generalize m.step = outcome at hs ⊢
    cases hs with
    | unfetched hf =>
      rw [← h.processor, ← h.memory] at hf
      rw [step_eq_of_stepped hr' (.unfetched hf)]
      exact ⟨rfl, by simp [fail, traced, record, h.processor], h.memory, h.printed⟩
    | refused hf he =>
      rw [← h.processor, ← h.memory] at hf he
      rw [step_eq_of_stepped hr' (.refused hf he)]
      exact ⟨rfl, by simp [fail, traced, record, h.processor], h.memory, h.printed⟩
    | @unprinted i e failure output hf he ho =>
      rw [prints?_of_effect (instruction?_of_fetch hr hf) he, ho] at hres hout
      have ho' : m'.output.emit e.prints = (.error failure, (m'.output.emit e.prints).2) :=
        Prod.ext hres rfl
      rw [← h.processor, ← h.memory] at hf he
      rw [step_eq_of_stepped hr' (.unprinted hf he ho')]
      exact ⟨rfl, by simp [fail, traced, record, h.processor], h.memory, hout⟩
    | @done i e output text hf he ho hn =>
      rw [prints?_of_effect (instruction?_of_fetch hr hf) he, ho] at hres hout
      have ho' : m'.output.emit e.prints = (.ok (), (m'.output.emit e.prints).2) :=
        Prod.ext hres rfl
      rw [← h.processor, ← h.memory] at hf he
      rw [step_eq_of_stepped hr' (.done hf he ho' hn)]
      exact ⟨rfl, rfl, by simp [completed, memory_commit, h.memory], hout⟩

/-- On a device that refuses nothing a step prints all that it offers. -/
theorem printed_step_of_takesAll (h : TakesAll m.output.device) :
    TakesAll m.step.machine.output.device ∧
      m.step.machine.output.printed = m.output.printed ++ String.ofList m.offer := by
  obtain ⟨d, hd, hall⟩ := emit_of_takesAll h m.output.printed m.prints?
  rw [output_step, hd]
  exact ⟨hall, rfl⟩

theorem offers_succ (m : Machine size δ) (n : Nat) :
    m.offers (n + 1) = m.offers n ++ (m.after n).offer := by
  simp [offers, List.range_succ]

theorem offers_prefix {a b : Nat} (m : Machine size δ) (h : a ≤ b) : m.offers a <+: m.offers b := by
  obtain ⟨k, rfl⟩ := Nat.exists_eq_add_of_le h
  induction k with
  | zero => exact List.prefix_rfl
  | succ k ih =>
    rw [← Nat.add_assoc, offers_succ]
    exact (ih (by omega)).trans (List.prefix_append _ _)

/-- What fits of the offers of a run, told by the step that passes the bound. -/
theorem take_offers {m : Machine size δ} {bound k n : Nat} (hk : k < n)
    (hle : (m.offers k).length ≤ bound) (hlt : bound < (m.offers (k + 1)).length) :
    (m.offers n).take bound =
      m.offers k ++ (m.after k).offer.take (bound - (m.offers k).length) := by
  obtain ⟨rest, hrest⟩ := m.offers_prefix (show k + 1 ≤ n from hk)
  rw [← hrest, List.take_append_of_le_length (Nat.le_of_lt hlt), offers_succ, List.take_append,
    List.take_of_length_le hle]

theorem utf8ByteSize_offers (m : Machine size δ) (n : Nat) :
    (String.ofList (m.offers n)).utf8ByteSize = (m.offers n).length := by
  refine utf8ByteSize_of_single fun c hc => ?_
  obtain ⟨k, _, hk⟩ := List.mem_flatMap.mp hc
  exact utf8Size_of_offered hk

theorem printed_after_of_takesAll (h : TakesAll m.output.device) (n : Nat) :
    TakesAll (m.after n).output.device ∧
      (m.after n).output.printed = m.output.printed ++ String.ofList (m.offers n) := by
  induction n with
  | zero => exact ⟨h, by simp [after, offers]⟩
  | succ n ih =>
    obtain ⟨hall, hprinted⟩ := printed_step_of_takesAll ih.1
    refine ⟨hall, ?_⟩
    rw [after, hprinted, ih.2, offers_succ, String.append_assoc, ← String.ofList_append]

/-- Where the offers pass a bound, a single step takes them past it. -/
theorem exists_passing {bound n : Nat} (h : bound < (m.offers n).length) :
    ∃ k < n, (m.offers k).length ≤ bound ∧ bound < (m.offers (k + 1)).length := by
  induction n with
  | zero => simp [offers] at h
  | succ n ih =>
    by_cases hn : bound < (m.offers n).length
    · obtain ⟨k, hk, hpass⟩ := ih hn
      exact ⟨k, by omega, hpass⟩
    · exact ⟨n, by omega, by omega, h⟩

end

section Limited

variable [Device δ] {u : Machine size δ} {l : Machine size Limited} {d : Limited}
  {failure : WriteFailure} {room : Nat} (hchunk : 1 ≤ d.chunk) (hfail : d.Fails failure)
include hchunk hfail

theorem emit_of_room (hd : l.output.device = d.withRoom room) : l.output.emit l.prints? =
    (if l.offer.length ≤ room then .ok () else .error failure,
      ⟨d.withRoom (room - l.offer.length),
        l.output.printed ++ String.ofList (l.offer.take room)⟩) := by
  rw [offer, ← d.emit_room hchunk hfail, ← hd]

/-- While there is room, the limited machine does the same. -/
theorem step_of_fits (h : u.Alike l) (hall : TakesAll u.output.device)
    (hd : l.output.device = d.withRoom room) (hfits : u.offer.length ≤ room) :
    l.step.result = u.step.result ∧ u.step.machine.Alike l.step.machine ∧
      l.step.machine.output.device = d.withRoom (room - u.offer.length) := by
  obtain ⟨d', hu, _⟩ := emit_of_takesAll hall u.output.printed u.prints?
  have hl := emit_of_room hchunk hfail hd
  have hoffer : l.offer = u.offer := by rw [offer, h.prints?, offer]
  rw [hoffer, if_pos hfits, List.take_of_length_le hfits, h.printed] at hl
  have hdevice : l.step.machine.output.device = d.withRoom (room - u.offer.length) := by
    rw [output_step, hl]
  rw [h.prints?] at hl
  obtain ⟨hres, halike⟩ := h.step (by rw [hl, hu]) (by rw [hl, hu]; rfl)
  exact ⟨hres, halike, hdevice⟩

/-- A line that does not fit stops the limited machine and leaves the beginning for which there is
room. -/
theorem step_of_cut (hd : l.output.device = d.withRoom room) (hcut : room < l.offer.length) :
    l.step.result = .error (.writeFailed failure) ∧
    l.step.machine.processor =
      { l.processor with status := .faulted (.writeFailed failure) } ∧
    l.step.machine.memory = l.memory ∧
    l.step.machine.output.printed = l.output.printed ++ String.ofList (l.offer.take room) := by
  have hl := emit_of_room hchunk hfail hd
  rw [if_neg (by omega)] at hl
  cases hp : l.prints? with
  | none => simp [offer, hp, offered] at hcut
  | some value =>
    obtain ⟨r, hi, hg⟩ := prn_of_prints? hp
    obtain ⟨hr, hf⟩ := fetch_of_instruction? hi
    have he : ∃ e, (Instruction.prn r).effect l.processor l.memory = .ok e := by
      simp only [Instruction.effect, hg]
      exact ⟨_, rfl⟩
    obtain ⟨e, he⟩ := he
    rw [prints?_of_effect hi he] at hl
    rw [step_eq_of_stepped hr (.unprinted hf he hl)]
    exact ⟨rfl, rfl, rfl, rfl⟩

theorem after_of_fits (h : u.Alike l) (hall : TakesAll u.output.device)
    (hd : l.output.device = d.withRoom room) {n : Nat} (hfits : (u.offers n).length ≤ room) :
    (u.after n).Alike (l.after n) ∧
      (l.after n).output.device = d.withRoom (room - (u.offers n).length) := by
  induction n with
  | zero => exact ⟨h, by simpa [after, offers] using hd⟩
  | succ n ih =>
    rw [offers_succ, List.length_append] at hfits ⊢
    obtain ⟨halike, hdevice⟩ := ih (by omega)
    obtain ⟨_, halike', hdevice'⟩ := step_of_fits hchunk hfail halike
      (printed_after_of_takesAll hall n).1 hdevice (by omega)
    exact ⟨halike', by rw [after, hdevice', Nat.sub_sub]⟩

/-- While everything fits, the limited machine does the same step for step. -/
theorem same_of_fits (h : u.Alike l) (hall : TakesAll u.output.device)
    (hd : l.output.device = d.withRoom room) {n : Nat} (hfits : (u.offers n).length ≤ room) :
    (∀ k ≤ n, (u.after k).Alike (l.after k)) ∧
      ∀ k < n, (l.after k).step.result = (u.after k).step.result := by
  have hbefore : ∀ k ≤ n, (u.offers k).length ≤ room := by
    intro k hk
    have := (u.offers_prefix hk).length_le
    omega
  constructor
  · intro k hk
    exact (after_of_fits hchunk hfail h hall hd (hbefore k hk)).1
  · intro k hk
    obtain ⟨halike, hdevice⟩ := after_of_fits hchunk hfail h hall hd (hbefore k (by omega))
    have hnext := hbefore (k + 1) hk
    rw [offers_succ, List.length_append] at hnext
    exact (step_of_fits hchunk hfail halike (printed_after_of_takesAll hall k).1 hdevice
      (by omega)).1

/-- The step that passes the room stops the limited machine for good. -/
theorem after_of_passing (h : u.Alike l) (hall : TakesAll u.output.device)
    (hd : l.output.device = d.withRoom room) {k n : Nat} (hk : k < n)
    (hle : (u.offers k).length ≤ room) (hlt : room < (u.offers (k + 1)).length) :
    (l.after k).step.result = .error (.writeFailed failure) ∧
    (l.after n).processor =
      { (u.after k).processor with status := .faulted (.writeFailed failure) } ∧
    (l.after n).memory = (u.after k).memory ∧
    (l.after n).output.printed =
      u.output.printed ++ String.ofList ((u.offers n).take room) := by
  obtain ⟨halike, hdevice⟩ := after_of_fits hchunk hfail h hall hd hle
  have hoffer : (l.after k).offer = (u.after k).offer := by rw [offer, halike.prints?, offer]
  have hcut : room - (u.offers k).length < (l.after k).offer.length := by
    rw [offers_succ, List.length_append] at hlt
    rw [hoffer]
    omega
  obtain ⟨hres, hprocessor, hmemory, hprinted⟩ := step_of_cut hchunk hfail hdevice hcut
  have hstop : l.after n = (l.after k).step.machine :=
    after_of_stopped (a := k + 1) (by simp [after, isRunning, hprocessor]) hk
  rw [hstop]
  refine ⟨hres, ?_, ?_, ?_⟩
  · rw [hprocessor, halike.processor]
  · rw [hmemory, halike.memory]
  · rw [hprinted, halike.printed, (printed_after_of_takesAll hall k).2, hoffer,
      take_offers hk hle hlt, String.ofList_append, String.append_assoc]

end Limited

/-- A device with limited room only cuts a run short. While all that is printed fits, nothing is
different. Otherwise the run stops with the failure of the device at the first line that does not
fit, the machine is what it was before that line, and the device has taken as much of the text of
the whole run as there was room for. -/
theorem limited_run_truncates [Device δ] {u : Machine size δ} {l : Machine size Limited}
    {room : Nat} {failure : WriteFailure} (h : u.Alike l) (hall : TakesAll u.output.device)
    (hroom : l.output.device.room = some room) (hchunk : 1 ≤ l.output.device.chunk)
    (hfail : l.output.device.Fails failure) (n : Nat) :
    ∃ text : String, (u.after n).output.printed = u.output.printed ++ text ∧
      text.utf8ByteSize = text.length ∧
      (text.length ≤ room → (∀ k ≤ n, (u.after k).Alike (l.after k)) ∧
        ∀ k < n, (l.after k).step.result = (u.after k).step.result) ∧
      (room < text.length → ∃ k < n, ∃ r value before,
        (u.after k).instruction? = some (.prn r) ∧
        (u.after k).processor.registers.get r = .ok value ∧
        (u.after k).output.printed = u.output.printed ++ String.ofList before ∧
        before.length ≤ room ∧ room < before.length + (lineOf value.toNat).length ∧
        (∀ j ≤ k, (u.after j).Alike (l.after j)) ∧
        (∀ j < k, (l.after j).step.result = (u.after j).step.result) ∧
        (l.after k).step.result = .error (.writeFailed failure) ∧
        (l.after n).processor =
          { (u.after k).processor with status := .faulted (.writeFailed failure) } ∧
        (l.after n).memory = (u.after k).memory ∧
        (l.after n).output.printed =
          u.output.printed ++ String.ofList (text.toList.take room)) := by
  have hd : l.output.device = l.output.device.withRoom room := by
    simp [Limited.withRoom, ← hroom]
  refine ⟨String.ofList (u.offers n), (printed_after_of_takesAll hall n).2, ?_, ?_, ?_⟩
  · rw [utf8ByteSize_offers, String.length_ofList]
  · intro hfits
    rw [String.length_ofList] at hfits
    exact same_of_fits hchunk hfail h hall hd hfits
  · intro hlong
    rw [String.length_ofList] at hlong
    rw [String.toList_ofList]
    obtain ⟨k, hk, hle, hlt⟩ := exists_passing hlong
    obtain ⟨halike, hresults⟩ := same_of_fits hchunk hfail h hall hd hle
    have hstop := after_of_passing hchunk hfail h hall hd hk hle hlt
    rw [offers_succ, List.length_append] at hlt
    cases hp : (u.after k).prints? with
    | none =>
      simp [offer, hp, offered] at hlt
      omega
    | some value =>
      obtain ⟨r, hi, hg⟩ := prn_of_prints? hp
      rw [offer, hp, offered] at hlt
      exact ⟨k, hk, r, value, u.offers k, hi, hg, (printed_after_of_takesAll hall k).2, hle, hlt,
        halike, hresults, hstop⟩

/-- Prints 8 twice. -/
def echo : Machine 5 Unlimited where
  processor := { Processor.startingAt 0 with registers := ⟨Vector.replicate 8 8, .zero⟩ }
  memory := ⟨#v[0x47, 0, 0x47, 0, 0x01]⟩
  output := ⟨.device, ""⟩
  log := .empty .off

/-- The same on a device that takes two characters at once and three in total. -/
def faintEcho : Machine 5 Limited :=
  { echo with output := ⟨⟨some 3, 2, .took 0⟩, ""⟩ }

theorem faintEcho_truncates :
    echo.Alike faintEcho ∧ TakesAll echo.output.device ∧
    faintEcho.output.device.room = some 3 ∧ 1 ≤ faintEcho.output.device.chunk ∧
    faintEcho.output.device.Fails .writeZero ∧
    (echo.after 3).output.printed = "8\n8\n" ∧
    (faintEcho.after 3).output.printed = "8\n8" ∧
    ∃ k < 3, (faintEcho.after 3).processor =
      { (echo.after k).processor with status := .faulted (.writeFailed .writeZero) } := by
  have halike : echo.Alike faintEcho := ⟨rfl, rfl, rfl⟩
  have hall : TakesAll echo.output.device := takesAll_unlimited _
  have hfails : faintEcho.output.device.Fails .writeZero := .inr ⟨rfl, rfl⟩
  have hprinted : (echo.after 3).output.printed = "8\n8\n" := by decide
  obtain ⟨text, htext, _, _, hcut⟩ := limited_run_truncates halike hall rfl (by decide) hfails 3
  obtain rfl : text = "8\n8\n" := by
    rw [← hprinted, htext]
    exact String.empty_append.symm
  obtain ⟨k, hk, _, _, _, _, _, _, _, _, _, _, _, hprocessor, _, hout⟩ := hcut (by decide)
  exact ⟨halike, hall, rfl, by decide, hfails, hprinted, hout, k, hk, hprocessor⟩

end EightBit.Machine
