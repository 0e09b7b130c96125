import EightBit.InPlace

/-! A memory of `size` bytes that holds code, data and the stack. -/
namespace EightBit

structure Memory (size : Nat) where
  cells : Vector UInt8 size
  deriving DecidableEq

namespace Memory

variable {size : Nat}

def filled (value : UInt8) : Memory size :=
  ⟨Vector.replicate size value⟩

def zero : Memory size :=
  filled 0

def get? (m : Memory size) (i : Nat) : Option UInt8 :=
  m.cells[i]?

/-- Changes nothing outside of the memory. -/
def set (m : Memory size) (i : Nat) (value : UInt8) : Memory size :=
  ⟨m.cells.setIfInBounds i value⟩

/-- Refuses an address outside of the memory. -/
def locate (m : Memory size) (address : UInt16) : Except Fault Unit :=
  if address.toNat < m.cells.size then .ok () else .error (.noSuchAddress address.toNat)

def read (m : Memory size) (address : UInt16) : Except Fault UInt8 :=
  match m.get? address.toNat with
  | some value => .ok value
  | none => .error (.noSuchAddress address.toNat)

/-- Writes a byte in place. -/
def store (address : UInt16) (value : UInt8) : InPlace (Memory size) Unit := do
  liftExcept ((← get).locate address)
  modify (·.set address.toNat value)

def write (m : Memory size) (address : UInt16) (value : UInt8) : Except Fault (Memory size) :=
  (store address value).leaves m

/-- Sets the cells from `i` on, leaving out bytes that fall outside of the memory. -/
def place (m : Memory size) (i : Nat) : List UInt8 → Memory size
  | [] => m
  | b :: bs => (m.set i b).place (i + 1) bs

/-- Writes all bytes in place or none, naming the first address that does not exist. -/
def storeBlock (address : UInt16) (bytes : List UInt8) : InPlace (Memory size) Unit := do
  unless address.toNat + bytes.length ≤ size do
    throw (.noSuchAddress (max address.toNat size))
  modify (·.place address.toNat bytes)

def writeBlock (m : Memory size) (address : UInt16) (bytes : List UInt8) :
    Except Fault (Memory size) :=
  (storeBlock address bytes).leaves m

variable {m n : Memory size} {i j : Nat} {address : UInt16} {value : UInt8} {fault : Fault}

theorem ext_get? (h : ∀ i, m.get? i = n.get? i) : m = n := by
  obtain ⟨a⟩ := m
  obtain ⟨b⟩ := n
  congr 1
  apply Vector.ext
  intro i hi
  simpa [get?, hi] using h i

theorem get?_eq_none_iff : m.get? i = none ↔ size ≤ i := by
  simp [get?]

theorem lt_size_of_get? (h : m.get? i = some value) : i < size :=
  (Vector.getElem?_eq_some_iff.mp h).1

@[simp] theorem get?_filled : (filled value : Memory size).get? i =
    if i < size then some value else none := by
  simp [get?, filled, Vector.getElem?_replicate]

@[simp] theorem get?_set : (m.set i value).get? j =
    if i = j then if i < size then some value else none else m.get? j := by
  simp [get?, set, Vector.getElem?_setIfInBounds]

theorem locate_eq_ok_iff : m.locate address = .ok () ↔ address.toNat < size := by
  simp [locate]

theorem locate_eq_error_iff : m.locate address = .error fault ↔
    size ≤ address.toNat ∧ fault = .noSuchAddress address.toNat := by
  by_cases h : address.toNat < size
  · have hlt : ¬ size ≤ address.toNat := Nat.not_le.mpr h
    simp [locate, h, hlt]
  · have hge : size ≤ address.toNat := Nat.le_of_not_lt h
    simp [locate, h, hge, eq_comm]

theorem read_eq_ok_iff : m.read address = .ok value ↔ m.get? address.toNat = some value := by
  cases h : m.get? address.toNat <;> simp [read, h]

theorem read_eq_error_iff :
    m.read address = .error fault ↔ size ≤ address.toNat ∧ fault = .noSuchAddress address.toNat := by
  rw [← get?_eq_none_iff]
  cases h : m.get? address.toNat <;> simp [read, h, eq_comm]

/-- The address is looked for before anything is changed. -/
theorem run_store (m : Memory size) (address : UInt16) (value : UInt8) :
    (store address value).run m =
      match m.locate address with
      | .ok () => .ok () (m.set address.toNat value)
      | .error fault => .error fault m := by
  simp only [store, EStateM.run_bind, EStateM.run_get, InPlace.run_liftExcept]
  cases m.locate address <;> rfl

theorem run_storeBlock (m : Memory size) (address : UInt16) (bytes : List UInt8) :
    (storeBlock address bytes).run m =
      if address.toNat + bytes.length ≤ size then .ok () (m.place address.toNat bytes)
      else .error (.noSuchAddress (max address.toNat size)) m := by
  unfold storeBlock
  split <;> rfl

theorem writeBlock_eq (m : Memory size) (address : UInt16) (bytes : List UInt8) :
    m.writeBlock address bytes =
      if address.toNat + bytes.length ≤ size then .ok (m.place address.toNat bytes)
      else .error (.noSuchAddress (max address.toNat size)) := by
  by_cases h : address.toNat + bytes.length ≤ size <;>
    simp [writeBlock, InPlace.leaves, run_storeBlock, h]

/-- Placed bytes stand one behind the other; all other cells are as before. -/
theorem get?_place (bytes : List UInt8) : (m.place i bytes).get? j =
    if i ≤ j ∧ j < i + bytes.length ∧ j < size then bytes[j - i]? else m.get? j := by
  induction bytes generalizing m i with
  | nil =>
    have : ¬ (i ≤ j ∧ j < i + ([] : List UInt8).length ∧ j < size) := by simp; omega
    rw [if_neg this, place]
  | cons b bs ih =>
    rw [place, ih, get?_set]
    by_cases hj : i = j
    · subst hj
      have hi : ¬ (i + 1 ≤ i ∧ i < i + 1 + bs.length ∧ i < size) := by omega
      rw [if_neg hi, if_pos rfl]
      by_cases hs : i < size
      · simp [hs]
      · simp [hs, get?_eq_none_iff.mpr (Nat.le_of_not_lt hs)]
    · simp only [List.length_cons]
      by_cases h : i + 1 ≤ j ∧ j < i + 1 + bs.length ∧ j < size
      · have h' : i ≤ j ∧ j < i + (bs.length + 1) ∧ j < size := by omega
        have hd : j - i = (j - (i + 1)) + 1 := by omega
        rw [if_pos h, if_pos h', hd, List.getElem?_cons_succ]
      · have h' : ¬ (i ≤ j ∧ j < i + (bs.length + 1) ∧ j < size) := by omega
        rw [if_neg h, if_neg h', if_neg hj]

end Memory
end EightBit
