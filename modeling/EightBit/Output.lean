import EightBit.Fault

/-! Printing to a device that may take a text piecemeal or refuse it. -/
namespace EightBit

/-- A device takes some characters from the front of a text or refuses it. It waits out
interruptions itself. -/
inductive Answer where
  | took (count : Nat)
  | refused (failure : WriteFailure)
  deriving DecidableEq

class Device (δ : Type) where
  write : δ → List Char → Answer × δ

/-- A device and what it has taken so far. -/
structure Output (δ : Type) where
  device : δ
  printed : String

namespace Output

variable {δ : Type} [Device δ]

/-- Offers what is left of a text whose first `taken` characters are on the device already, until
nothing is left. A device that takes nothing has failed. -/
def send (out : Output δ) (taken : Nat) : List Char → Except WriteFailure Unit × Output δ
  | [] => (.ok (), out)
  | c :: cs =>
    match taken with
    | taken + 1 => out.send taken cs
    | 0 =>
      match Device.write out.device (c :: cs) with
      | (.took 0, device) => (.error .writeZero, { out with device })
      | (.took (n + 1), device) =>
        let piece := String.ofList ((c :: cs).take (n + 1))
        send { device, printed := out.printed ++ piece } n cs
      | (.refused failure, device) => (.error failure, { out with device })

def print (out : Output δ) (text : String) : Except WriteFailure Unit × Output δ :=
  out.send 0 text.toList

/-- Prints a number and ends the line; the line end is not tried after a failure. -/
def printLine (out : Output δ) (n : Nat) : Except WriteFailure Unit × Output δ :=
  match out.print (decimal n) with
  | (.ok (), out) => out.print "\n"
  | (.error failure, out) => (.error failure, out)

theorem send_eq_drop (out : Output δ) (taken : Nat) (text : List Char) :
    out.send taken text = out.send 0 (text.drop taken) := by
  induction text generalizing taken with
  | nil => simp [send]
  | cons c cs ih =>
    cases taken with
    | zero => rfl
    | succ taken => simpa [send] using ih taken

/-- What is sent behind a piece that the device took is the rest of the text. -/
theorem send_took {out : Output δ} {text : List Char} {n : Nat} {device : δ} (ht : text ≠ [])
    (h : Device.write out.device text = (.took (n + 1), device)) : out.send 0 text =
      send ⟨device, out.printed ++ String.ofList (text.take (n + 1))⟩ 0 (text.drop (n + 1)) := by
  cases text with
  | nil => contradiction
  | cons c cs =>
    rw [send, h]
    simp [send_eq_drop _ n]

end Output
end EightBit
