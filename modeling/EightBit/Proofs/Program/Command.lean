import EightBit.Proofs.Machine.Step

/-! Commands that only calculate, compare and print, on registers that exist, beside a calculation
with natural numbers of any size. -/
namespace EightBit

namespace Registers

/-- The byte that names a register. -/
def index (r : Fin 8) : UInt8 :=
  UInt8.ofNat r

def put (rs : Registers) (r : Fin 8) (value : UInt8) : Registers :=
  { rs with values := rs.values.set r value }

theorem toNat_index (r : Fin 8) : (index r).toNat = r := by
  rw [index, UInt8.toNat_ofNat']
  omega

theorem get_index (rs : Registers) (r : Fin 8) : rs.get (index r) = .ok rs.values[r] := by
  simp [get, toNat_index]

theorem set_index (rs : Registers) (r : Fin 8) (value : UInt8) :
    rs.set (index r) value = .ok (rs.put r value) := by
  have hlt : index r < 8 := by
    rw [UInt8.lt_iff_toNat_lt, toNat_index]
    exact r.isLt
  rw [set_eq, if_pos hlt, put, toNat_index]
  congr 2
  apply Vector.ext
  intro i hi
  rw [Vector.getElem_setIfInBounds hi, Vector.getElem_set r.isLt hi]

theorem values_put (rs : Registers) (r s : Fin 8) (value : UInt8) :
    (rs.put r value).values[s] = if r = s then value else rs.values[s] := by
  simp [put, Vector.getElem_set, Fin.ext_iff]

end Registers

/-- A command of a program without branches, stack and end. -/
inductive Command where
  | load (r : Fin 8) (value : UInt8)
  | operate (op : Operation) (a b : Fin 8)
  | print (r : Fin 8)

namespace Command

open Registers

def instruction : Command → Instruction
  | load r value => .ldi (index r) value
  | operate op a b => .arith op (index a) (index b)
  | print r => .prn (index r)

/-- The registers after the command. -/
def apply (c : Command) (rs : Registers) : Registers :=
  match c with
  | load r value => rs.put r value
  | operate .add a b => rs.put a (rs.values[a] + rs.values[b])
  | operate .mul a b => rs.put a (rs.values[a] * rs.values[b])
  | operate .cmp a b => { rs with flags := .comparing rs.values[a] rs.values[b] }
  | print _ => rs

def prints? (c : Command) (rs : Registers) : Option UInt8 :=
  match c with
  | print r => some rs.values[r]
  | _ => none

theorem apply_operate (op : Operation) (a b : Fin 8) (rs : Registers) :
    op.apply rs (index a) (index b) = .ok ((operate op a b).apply rs) := by
  rw [Operation.apply_eq_ok_iff]
  refine ⟨_, _, get_index rs a, get_index rs b, ?_⟩
  cases op with
  | add | mul => exact set_index rs a _
  | cmp => rfl

variable {size : Nat}

/-- No check of a command finds anything. -/
theorem effect_instruction (c : Command) (p : Processor) (memory : Memory size) : ∃ note,
    c.instruction.effect p memory = .ok { c.instruction.passing p with
      registers := c.apply p.registers
      prints := c.prints? p.registers
      note } := by
  cases c with
  | load r value =>
    simp only [instruction, Instruction.effect, set_index]
    exact ⟨_, rfl⟩
  | operate op a b =>
    simp only [instruction, Instruction.effect, Instruction.opcode, Operation.ofOpcode_opcode]
    simp only [bind, Except.bind, apply_operate]
    exact ⟨_, rfl⟩
  | print r =>
    simp only [instruction, Instruction.effect, get_index]
    exact ⟨_, rfl⟩

/-- The bytes of a program. -/
def code (P : List Command) : List UInt8 :=
  P.flatMap (·.instruction.encode)

/-- The registers after a program. -/
def applyAll (P : List Command) (rs : Registers) : Registers :=
  P.foldl (fun rs c => c.apply rs) rs

/-- All the lines that a program prints. -/
def lines : List Command → Registers → List Char
  | [], _ => []
  | c :: P, rs => Output.offered (c.prints? rs) ++ lines P (c.apply rs)

end Command

/-- What has been calculated without any overflow: the values of the registers, the two values
that were compared last, and all values printed. -/
structure Calculation where
  values : Fin 8 → Nat
  compared : Option (Nat × Nat)
  printed : List Nat

/-- The flag for an order. -/
def Flags.ofOrdering : Ordering → Flags
  | .lt => less
  | .eq => equal
  | .gt => greater

theorem Flags.comparing_eq (x y : UInt8) :
    comparing x y = ofOrdering (compare x.toNat y.toNat) := by
  unfold comparing
  cases h : compare x.toNat y.toNat with
  | lt => rw [if_pos (UInt8.lt_iff_toNat_lt.mpr (Nat.compare_eq_lt.mp h)), ofOrdering]
  | eq =>
    obtain rfl : x = y := UInt8.toNat_inj.mp (Nat.compare_eq_eq.mp h)
    simp [ofOrdering]
  | gt =>
    have hlt : y.toNat < x.toNat := Nat.compare_eq_gt.mp h
    have hne : x ≠ y := by
      rintro rfl
      omega
    have hnlt : ¬ x < y := by
      rw [UInt8.lt_iff_toNat_lt]
      omega
    simp [hnlt, hne, ofOrdering]

namespace Calculation

/-- A calculation that begins with the values in the registers. -/
def startingAt (rs : Registers) : Calculation where
  values r := rs.values[r].toNat
  compared := none
  printed := []

def assign (s : Calculation) (r : Fin 8) (value : Nat) : Calculation :=
  { s with values := fun r' => if r = r' then value else s.values r' }

/-- The flag for the residues that were compared last, or the flags from before. -/
def flags (s : Calculation) (before : Flags) : Flags :=
  match s.compared with
  | some (x, y) => .ofOrdering (compare (x % 256) (y % 256))
  | none => before

/-- The residues of the printed values, on a line each. -/
def text (s : Calculation) : List Char :=
  s.printed.flatMap fun n => Output.lineOf (n % 256)

/-- The registers hold the residues of the calculation. -/
structure Shows (s : Calculation) (before : Flags) (rs : Registers) : Prop where
  values : ∀ r : Fin 8, rs.values[r].toNat = s.values r % 256
  flags : rs.flags = s.flags before

theorem shows_startingAt (rs : Registers) : (startingAt rs).Shows rs.flags rs where
  values r := (Nat.mod_eq_of_lt rs.values[r].toNat_lt).symm
  flags := rfl

variable {s : Calculation} {before : Flags} {rs : Registers} {r : Fin 8} {byte : UInt8} {n : Nat}

theorem Shows.put (h : s.Shows before rs) (hb : byte.toNat = n % 256) :
    (s.assign r n).Shows before (rs.put r byte) where
  values r' := by
    rw [Registers.values_put, assign]
    by_cases hr : r = r'
    · simpa [hr] using hb
    · simpa [hr] using h.values r'
  flags := h.flags

end Calculation

namespace Command

open Calculation Output

/-- The command without any overflow. -/
def calculate (c : Command) (s : Calculation) : Calculation :=
  match c with
  | load r value => s.assign r value.toNat
  | operate .add a b => s.assign a (s.values a + s.values b)
  | operate .mul a b => s.assign a (s.values a * s.values b)
  | operate .cmp a b => { s with compared := some (s.values a, s.values b) }
  | print r => { s with printed := s.printed ++ [s.values r] }

def calculateAll (P : List Command) (s : Calculation) : Calculation :=
  P.foldl (fun s c => c.calculate s) s

variable {s : Calculation} {before : Flags} {rs : Registers}

/-- Residues are enough to go on: a command keeps the registers residues of the calculation. -/
theorem shows_apply (c : Command) (h : s.Shows before rs) :
    (c.calculate s).Shows before (c.apply rs) := by
  cases c with
  | load r value => exact h.put (Nat.mod_eq_of_lt value.toNat_lt).symm
  | operate op a b =>
    cases op with
    | add =>
      refine h.put ?_
      rw [UInt8.toNat_add, h.values, h.values, ← Nat.add_mod]
    | mul =>
      refine h.put ?_
      rw [UInt8.toNat_mul, h.values, h.values, ← Nat.mul_mod]
    | cmp =>
      refine ⟨h.values, ?_⟩
      simp only [apply, calculate, Calculation.flags, Flags.comparing_eq, h.values]
  | print r => exact ⟨h.values, h.flags⟩

theorem text_calculate (c : Command) (h : s.Shows before rs) :
    (c.calculate s).text = s.text ++ offered (c.prints? rs) := by
  cases c with
  | operate op a b => cases op <;> simp [calculate, text, assign, prints?, offered]
  | load r value => simp [calculate, text, assign, prints?, offered]
  | print r =>
    have hline : lineOf (s.values r % 256) = lineOf rs.values[r].toNat := by rw [h.values]
    simp [calculate, text, prints?, offered, hline]

theorem shows_applyAll (P : List Command) (h : s.Shows before rs) :
    (calculateAll P s).Shows before (applyAll P rs) := by
  induction P generalizing s rs with
  | nil => exact h
  | cons c P ih => exact ih (shows_apply c h)

theorem text_calculateAll (P : List Command) (h : s.Shows before rs) :
    (calculateAll P s).text = s.text ++ lines P rs := by
  induction P generalizing s rs with
  | nil => simp [calculateAll, lines]
  | cons c P ih =>
    have hrest := ih (shows_apply c h)
    rw [text_calculate c h, List.append_assoc] at hrest
    exact hrest

end Command
end EightBit
