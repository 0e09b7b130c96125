import EightBit.Listing.Error
import EightBit.Text.Blank

/-! The token of a line: what stands before a comment, read as a byte in binary. -/
namespace EightBit.Listing

/-- A number sign starts a comment; blanks around the token do not count. -/
def token (line : List Char) : List Char :=
  Text.trim (line.takeWhile (· ≠ '#'))

/-- The value of a token that is at most eight bytes long in UTF-8, or what is wrong with it. -/
def byte (token : List Char) : Except (Cause × String) UInt8 :=
  let text := String.ofList token
  if 8 < text.utf8ByteSize then
    .error (.tooManyDigits, "`" ++ text ++ "` has " ++ decimal text.utf8ByteSize ++ " digits")
  else
    match unsigned? 2 256 token with
    | some n => .ok (UInt8.ofNat n)
    | none => .error (.notBinary, "`" ++ text ++ "` is not a binary number")

end EightBit.Listing
