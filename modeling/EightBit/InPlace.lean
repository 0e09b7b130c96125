import EightBit.Fault

/-! Computations that change a state in place. What they have changed before a fault stays changed. -/
namespace EightBit

abbrev InPlace (σ α : Type) :=
  EStateM Fault σ α

namespace InPlace

variable {σ α : Type}

/-- The state behind a computation, unless it fails. -/
def leaves (x : InPlace σ Unit) (s : σ) : Except Fault σ :=
  match x.run s with
  | .ok () s => .ok s
  | .error fault _ => .error fault

/-- A check does not change the state. -/
theorem run_liftExcept (x : Except Fault α) (s : σ) : (liftExcept x : InPlace σ α).run s =
    match x with
    | .ok a => .ok a s
    | .error fault => .error fault s := by
  cases x <;> rfl

theorem leaves_get (f : σ → InPlace σ Unit) (s : σ) : leaves (get >>= f) s = (f s).leaves s := rfl

theorem leaves_check (x : Except Fault α) (f : α → InPlace σ Unit) (s : σ) :
    leaves (liftExcept x >>= f) s = x >>= fun a => (f a).leaves s := by
  cases x <;> rfl

end InPlace
end EightBit
