import Aesd.Driver.Device

/-!
# Reading a seek command

`write_new_packet` asks `sscanf` whether a packet is the seek command.  This is the part of `sscanf`
that its format `"AESDCHAR_IOCSEEKTO:%u,%u"` uses: literal characters, and `%u`, which skips white
space, accepts a sign, takes the digits that follow and reduces their value to 32 bits.  The input
ends at its first `NUL`.

That the value is reduced, of whatever size it is, is an assumption: the C standard leaves a number
that does not fit to the library, and one that goes by way of a 64-bit `strtoul` takes all numbers
from `2 ^ 64` on for the largest one.
-/

set_option autoImplicit false

namespace Aesd

/-- `isspace`. -/
def isSpace (c : Byte) : Bool := c == 32 || (9 ≤ c && c ≤ 13)

/-- `isdigit`. -/
def isDigit (c : Byte) : Bool := 48 ≤ c && c ≤ 57

/-- The value of decimal digits. -/
def decimal (digits : List Byte) : ℕ := digits.foldl (fun n c ↦ 10 * n + (c.toNat - 48)) 0

/-- An optional sign: whether it is a minus, and what follows. -/
def scanSign : List Byte → Bool × List Byte
  | 43 :: input => (false, input)
  | 45 :: input => (true, input)
  | input => (false, input)

/-- `%u`: the value, modulo `2 ^ 32`, and what follows it. -/
def scanUnsigned (input : List Byte) : Option (UInt32 × List Byte) :=
  let (minus, input) := scanSign (input.dropWhile isSpace)
  let digits := input.takeWhile isDigit
  if digits = [] then none
  else
    let value := UInt32.ofNat (decimal digits)
    some (if minus then -value else value, input.dropWhile isDigit)

/-- Literal characters of the format: what follows them. -/
def scanLiteral (literal input : List Byte) : Option (List Byte) :=
  if literal.isPrefixOf input then some (input.drop literal.length) else none

/-- The characters `AESDCHAR_IOCSEEKTO:`. -/
def seektoText : List Byte :=
  [65, 69, 83, 68, 67, 72, 65, 82, 95, 73, 79, 67, 83, 69, 69, 75, 84, 79, 58]

/-- `sscanf(flat_data, "AESDCHAR_IOCSEEKTO:%u,%u", …)`: how many conversions were made, and the
structure they were stored in.  The source asks only whether there were two, so `EOF` is `0` too. -/
def sscanfSeekto (flatData : List Byte) : ℕ × AesdSeekto :=
  match scanLiteral seektoText (flatData.takeWhile (· ≠ 0)) with
  | none => (0, ⟨0, 0⟩)
  | some input =>
    match scanUnsigned input with
    | none => (0, ⟨0, 0⟩)
    | some (writeCmd, input) =>
      match scanLiteral [44] input with
      | none => (1, ⟨writeCmd, 0⟩)
      | some input =>
        match scanUnsigned input with
        | none => (1, ⟨writeCmd, 0⟩)
        | some (writeCmdOffset, _) => (2, ⟨writeCmd, writeCmdOffset⟩)

/-- What `write_new_packet` makes of a packet, whose newline it replaces by a `NUL` meanwhile: the
seek command's values, or `none` for a packet to store. -/
def seekCommand (packet : List Byte) : Option AesdSeekto :=
  let (params, seekto) := sscanfSeekto (packet.dropLast ++ [0])
  if params = 2 then some seekto else none

end Aesd
