import EightBit.Memory
import EightBit.Registers

/-! Computations that make several checks. More than one can have a reason to fail, and the first
one that is made counts. -/
namespace EightBit

section Except

variable {ε α β : Type} {x : Except ε α} {f : α → Except ε β} {b : β} {err : ε}

theorem bind_eq_ok_iff : (x >>= f) = .ok b ↔ ∃ a, x = .ok a ∧ f a = .ok b := by
  cases x <;> simp [bind, Except.bind]

theorem bind_eq_error_iff :
    (x >>= f) = .error err ↔ x = .error err ∨ ∃ a, x = .ok a ∧ f a = .error err := by
  cases x <;> simp [bind, Except.bind]

theorem mapError_eq_ok_iff {ε' : Type} {g : ε → ε'} {a : α} :
    x.mapError g = .ok a ↔ x = .ok a := by
  constructor
  · intro h
    cases x with
    | ok _ =>
      cases h
      rfl
    | error _ => cases h
  · rintro rfl
    rfl

theorem mapError_eq_error_iff {ε' : Type} {g : ε → ε'} {err' : ε'} :
    x.mapError g = .error err' ↔ ∃ err, x = .error err ∧ err' = g err := by
  constructor
  · intro h
    cases x with
    | ok _ => cases h
    | error err =>
      cases h
      exact ⟨err, rfl, rfl⟩
  · rintro ⟨err, rfl, rfl⟩
    rfl

end Except

/-- Something that can be wrong, told by the faults that it causes. -/
abbrev Hazard := Fault → Prop

namespace Hazard

/-- An address that does not lie below a bound. -/
def address (bound a : Nat) : Hazard :=
  fun fault => bound ≤ a ∧ fault = .noSuchAddress a

def register (index : UInt8) : Hazard :=
  fun fault => 8 ≤ index.toNat ∧ fault = .noSuchRegister index

end Hazard

/-- The fault is caused by the first hazard that there is. -/
def FirstOf : List Hazard → Fault → Prop
  | [], _ => False
  | c :: cs, fault => c fault ∨ (∀ f, ¬ c f) ∧ FirstOf cs fault

/-- A computation that fails with the first of these hazards, and only then. -/
def Checked {α : Type} (x : Except Fault α) (cs : List Hazard) : Prop :=
  ∀ fault, x = .error fault ↔ FirstOf cs fault

section

variable {α β : Type} {c : Hazard} {cs ds : List Hazard} {fault : Fault} {x : Except Fault α}
  {f : α → Except Fault β}

theorem not_firstOf_cons :
    (∀ f, ¬ FirstOf (c :: cs) f) ↔ (∀ f, ¬ c f) ∧ ∀ f, ¬ FirstOf cs f := by
  constructor
  · intro h
    have hc : ∀ f, ¬ c f := fun f hf => h f (.inl hf)
    exact ⟨hc, fun f hf => h f (.inr ⟨hc, hf⟩)⟩
  · rintro ⟨hc, hcs⟩ f (hf | ⟨_, hf⟩)
    · exact hc f hf
    · exact hcs f hf

/-- There is a first hazard as soon as there is any. -/
theorem not_firstOf_iff : (∀ f, ¬ FirstOf cs f) ↔ ∀ c ∈ cs, ∀ f, ¬ c f := by
  induction cs with
  | nil => simp [FirstOf]
  | cons c cs ih => rw [not_firstOf_cons, ih, List.forall_mem_cons]

theorem FirstOf.exists_mem (h : FirstOf cs fault) : ∃ c ∈ cs, c fault := by
  induction cs with
  | nil => cases h
  | cons c cs ih =>
    rcases h with hc | ⟨_, hcs⟩
    · exact ⟨c, List.mem_cons_self, hc⟩
    · obtain ⟨d, hd, hf⟩ := ih hcs
      exact ⟨d, List.mem_cons_of_mem c hd, hf⟩

theorem firstOf_append : FirstOf (cs ++ ds) fault ↔
    FirstOf cs fault ∨ (∀ f, ¬ FirstOf cs f) ∧ FirstOf ds fault := by
  induction cs with
  | nil => simp [FirstOf]
  | cons c cs ih =>
    rw [not_firstOf_cons, List.cons_append, FirstOf, ih, FirstOf, and_or_left, or_assoc, and_assoc]

namespace Checked

theorem ok (a : α) : Checked (.ok a) [] := by
  intro fault
  simp [FirstOf]

theorem single (h : ∀ fault, x = .error fault ↔ c fault) : Checked x [c] := by
  intro fault
  simp [FirstOf, h]

/-- A hazard that is not there can be put before the others. -/
theorem skip (hx : Checked x cs) (hc : ∀ f, ¬ c f) : Checked x (c :: cs) := by
  intro fault
  simp [FirstOf, hc, hx fault]

/-- The second computation fails only if the first one does not. -/
theorem bind (hx : Checked x cs) (hf : ∀ a, x = .ok a → Checked (f a) ds) :
    Checked (x >>= f) (cs ++ ds) := by
  intro fault
  rw [bind_eq_error_iff, firstOf_append, hx fault]
  cases h : x with
  | error f' =>
    have hfirst := (hx f').mp h
    constructor
    · rintro (hc | ⟨a, ha, _⟩)
      · exact .inl hc
      · cases ha
    · rintro (hc | ⟨hn, _⟩)
      · exact .inl hc
      · exact (hn f' hfirst).elim
  | ok a =>
    have hn : ∀ f', ¬ FirstOf cs f' := by
      intro f' hf'
      cases h.symm.trans ((hx f').mpr hf')
    simp [hn, hf a h fault]

theorem ok_iff {x : Except Fault Unit} (hx : Checked x cs) :
    x = .ok () ↔ ∀ c ∈ cs, ∀ f, ¬ c f := by
  rw [← not_firstOf_iff]
  constructor
  · rintro rfl f hf
    cases (hx f).mpr hf
  · intro hnone
    cases x with
    | ok _ => rfl
    | error fault => exact (hnone fault ((hx fault).mp rfl)).elim

theorem read {size : Nat} (memory : Memory size) (a : UInt16) :
    Checked (memory.read a) [.address size a.toNat] :=
  single fun _ => Memory.read_eq_error_iff

theorem locate {size : Nat} (memory : Memory size) (a : UInt16) :
    Checked (memory.locate a) [.address size a.toNat] :=
  single fun _ => Memory.locate_eq_error_iff

theorem get (r : Registers) (index : UInt8) : Checked (r.get index) [.register index] :=
  single fun _ => Registers.get_eq_error_iff

theorem set (r : Registers) (index value : UInt8) :
    Checked (r.set index value) [.register index] :=
  single fun _ => Registers.set_eq_error_iff

end Checked

end

end EightBit
