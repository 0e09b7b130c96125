import EightBit.Output.Limited
import EightBit.Proofs.Stack.Discipline

/-! Runs in which values and return addresses are nested in each other. A pair is undisturbed
unless, between its two steps, the stack pointer comes back to its cell at another opener. -/
namespace EightBit.Machine

variable {size : Nat} {δ : Type} [Device δ] {m : Machine size δ} {o c : Opcode}
  {x y : List Opcode} {a b k n : Nat}

/-- Every opcode of a word belongs to a step, and what follows it in the word comes after it. -/
theorem exists_step_of_word (hab : a ≤ b) (hw : m.stackWord a b = x ++ o :: y) :
    ∃ k, a ≤ k ∧ k < b ∧ (m.after k).stackOpcode? = some o ∧ m.stackWord (k + 1) b = y := by
  induction b, hab using Nat.le_induction generalizing y with
  | base => simp [stackWord_self] at hw
  | succ b hab ih =>
    rw [stackWord_succ hab] at hw
    cases hb : (m.after b).stackOpcode? with
    | none =>
      obtain ⟨k, hak, hkb, ho, hy⟩ := ih (by simpa [hb] using hw)
      exact ⟨k, hak, by omega, ho, by rw [stackWord_succ (by omega), hb, hy]; simp⟩
    | some q =>
      rw [hb, Option.toList_some] at hw
      rcases List.eq_nil_or_concat y with rfl | ⟨y', q', rfl⟩
      · obtain ⟨_, hq⟩ := List.append_inj' hw rfl
        cases hq
        exact ⟨b, hab, by omega, hb, stackWord_self⟩
      · rw [List.concat_eq_append, ← List.cons_append, ← List.append_assoc] at hw
        obtain ⟨hy', hq⟩ := List.append_inj' hw rfl
        cases hq
        obtain ⟨k, hak, hkb, ho, hy⟩ := ih hy'
        exact ⟨k, hak, by omega, ho, by rw [stackWord_succ (by omega), hb, hy]; simp⟩

/-- In a well-nested run every closer has its opener. -/
theorem exists_pair {d : Nat} (hw : Stack.Nested d (m.stackWord 0 n)) (hbn : b < n)
    (hb : (m.after b).stackOpcode? = some c) (hc : c = .pop ∨ c = .ret) :
    ∃ a, m.Pair a b := by
  rw [stackWord_append (Nat.zero_le b) (Nat.le_of_lt hbn),
    stackWord_append (Nat.le_succ b) (show b + 1 ≤ n from hbn), stackWord_succ (Nat.le_refl b),
    stackWord_self, hb, Option.toList_some, List.nil_append, List.singleton_append] at hw
  obtain ⟨o, x, y, hx, hoc, hy⟩ := Stack.exists_opener hw hc
  obtain ⟨a, _, hab, ho, rfl⟩ := exists_step_of_word (Nat.zero_le b) hx
  exact ⟨a, hab, ⟨o, c, ho, hb, hoc⟩, hy⟩

/-- If at most 127 pairs are open, an opener inside a pair hits its cell exactly if the open values
and the open return addresses inside the pair balance. -/
theorem meets_iff (h : m.Succeeds n) (hw : Stack.Nested 127 (m.stackWord 0 n)) (hp : m.Pair a b)
    (hak : a < k) (hkb : k < b) (hbn : b < n) : m.Meets a k ↔ (m.after k).Opens ∧
      (m.after (k + 1)).processor.sp = (m.after (a + 1)).processor.sp := by
  refine and_congr_right fun _ => ?_
  obtain ⟨d, hd⟩ := hp.nested
  have hlt := (m.after (a + 1)).processor.sp.toNat_lt
  have hsp := sp_after h (show a + 1 ≤ k + 1 by omega) (by omega)
  -- the pairs open inside the pair are among all those open in the run
  have houter : Stack.Nested 127 (m.stackWord 0 (a + 1) ++ (m.stackWord (a + 1) (k + 1) ++
      m.stackWord (k + 1) n)) := by
    rwa [← stackWord_append (by omega) (by omega), ← stackWord_append (by omega) (by omega)]
  have hbefore := Stack.open_of_append houter
  rw [← List.append_assoc] at houter
  have hall := Stack.open_of_append houter
  have hinner := Stack.open_of_append (show Stack.Nested d (m.stackWord (a + 1) (k + 1) ++
      m.stackWord (k + 1) b) by rwa [← stackWord_append (by omega) (by omega)])
  rw [Stack.openValues_append, Stack.openAddresses_append] at hall
  rw [← UInt8.toNat_inj]
  simp only [Stack.height] at hsp
  omega

/-- In a successful run whose stack opcodes are nested at most 127 deep, the stack pointer ends
where it began, and every closer closes a pair and brings the stack pointer back to where it was
before the pair. The closer takes what its own opener has put on the stack, unless values and
return addresses balance at an opener in between; then it takes what the last such opener has put
there. -/
theorem closer_takes_last_met (h : m.Succeeds n) (hw : Stack.Nested 127 (m.stackWord 0 n)) :
    (m.after n).processor.sp = m.processor.sp ∧
    (∀ b < n, (m.after b).stackOpcode? = some .pop ∨ (m.after b).stackOpcode? = some .ret →
      ∃ a, m.Pair a b) ∧
    ∀ a b, b < n → m.Pair a b →
      (m.after (b + 1)).processor.sp = (m.after a).processor.sp ∧
      ((∀ k, a < k → k < b → ¬ m.Meets a k) → m.Hands a b) ∧
      ∀ j, a < j → j < b → m.Meets a j → (∀ k, j < k → k < b → ¬ m.Meets a k) →
        m.Hands j b := by
  refine ⟨?_, ?_, fun a b hbn hp => ⟨sp_after_pair h hp hbn, fun hnone => ?_, ?_⟩⟩
  · have hlt := m.processor.sp.toNat_lt
    have hsp := sp_after h (Nat.zero_le n) (Nat.le_refl n)
    rw [Stack.height_eq_zero hw, after] at hsp
    apply UInt8.toNat_inj.mp
    omega
  · rintro b hbn (hb | hb)
    · exact exists_pair hw hbn hb (.inl rfl)
    · exact exists_pair hw hbn hb (.inr rfl)
  · obtain ⟨o, c, ho, _, hoc⟩ := hp.closes
    refine hands_of_last h hp hbn hp.lt (opens_iff.mpr ⟨o, c, ho, hoc⟩) rfl fun k hak hkb hk hsp => ?_
    exact hnone k hak hkb ((meets_iff h hw hp hak hkb hbn).mpr ⟨hk, hsp⟩)
  · intro j haj hjb hmeet hnone
    obtain ⟨hopens, hsp⟩ := (meets_iff h hw hp haj hjb hbn).mp hmeet
    refine hands_of_last h hp hbn hjb hopens hsp fun k hjk hkb hk hsp => ?_
    exact hnone k hjk hkb ((meets_iff h hw hp (by omega) hkb hbn).mpr ⟨hk, hsp⟩)

/-- Pushes the same value twice, calls a subroutine that only returns, and pops both values. -/
def crowded : Machine 16 Unlimited where
  processor :=
    { pc := 0
      sp := 11
      registers := ⟨#v[7, 10, 0, 0, 0, 0, 0, 0], .zero⟩
      status := .running }
  memory := ⟨#v[0x45, 0, 0x45, 0, 0x50, 1, 0x46, 2, 0x46, 3, 0x11, 0, 0, 0, 0, 0]⟩
  output := ⟨.device, ""⟩
  log := .empty .off

theorem succeeds_crowded : crowded.Succeeds 6 := by
  intro k hk
  match k with
  | 0 | 1 | 2 | 3 | 4 | 5 => rfl

theorem nested_crowded : Stack.Nested 127 (crowded.stackWord 0 6) := by
  have hw : crowded.stackWord 0 6 = [.push, .push, .call, .ret, .pop, .pop] := by decide
  rw [hw]
  exact .pair (w := [.push, .call, .ret, .pop]) rfl (.pair (w := [.call, .ret]) rfl
    (.pair (w := []) rfl .nil))

theorem pair_crowded : crowded.Pair 0 5 := by
  refine ⟨by decide, ⟨.push, .pop, by decide, by decide, rfl⟩, 2, ?_⟩
  have hw : crowded.stackWord 1 5 = [.push, .call, .ret, .pop] := by decide
  rw [hw]
  exact .pair (w := [.call, .ret]) rfl (.pair (w := []) rfl .nil)

/-- The subroutine overwrites the first of two values that its caller has pushed: 7 is pushed, and
the return address 6 is popped. -/
theorem call_overwrites_pushed_value :
    crowded.Succeeds 6 ∧ Stack.Nested 127 (crowded.stackWord 0 6) ∧ crowded.Pair 0 5 ∧
    crowded.stores? 0 = some 7 ∧ crowded.takes? 5 = some 6 ∧ ¬ crowded.Hands 0 5 := by
  have hs : crowded.stores? 0 = some 7 := by decide
  have ht : crowded.takes? 5 = some 6 := by decide
  refine ⟨succeeds_crowded, nested_crowded, pair_crowded, hs, ht, ?_⟩
  rintro ⟨x, hx, hx'⟩
  rw [hs] at hx
  rw [ht] at hx'
  cases hx
  cases hx'

theorem crowded_takes_last_met :
    crowded.Succeeds 6 ∧ Stack.Nested 127 (crowded.stackWord 0 6) ∧
    (crowded.after 6).processor.sp = crowded.processor.sp ∧ crowded.Hands 2 5 := by
  obtain ⟨hsp, _, hpairs⟩ := closer_takes_last_met succeeds_crowded nested_crowded
  have hmeets : ∀ k < 5, 0 < k → (crowded.Meets 0 k ↔ k = 2) := by decide
  refine ⟨succeeds_crowded, nested_crowded, hsp, ?_⟩
  obtain ⟨_, _, hlast⟩ := hpairs 0 5 (by decide) pair_crowded
  refine hlast 2 (by decide) (by decide) ((hmeets 2 (by decide) (by decide)).mpr rfl) ?_
  intro k hk hk5 hmeet
  have := (hmeets k hk5 (by omega)).mp hmeet
  omega

end EightBit.Machine
