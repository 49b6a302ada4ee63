/-!
# Decimal numerals

Reading of an unsigned decimal numeral below a limit. A numeral is a nonempty run of the digits
`0` to `9`, with one optional `+` before it. The text is read from left to right, and reading
ends at the first fault.
-/

namespace TermRules.Text

/-- Why a text is not a numeral. -/
inductive NumeralError
  | empty
  | invalidDigit
  | tooLarge
  deriving DecidableEq, Repr

/-- The text of the error. -/
def NumeralError.message : NumeralError → String
  | .empty => "cannot parse integer from empty string"
  | .invalidDigit => "invalid digit found in string"
  | .tooLarge => "number too large to fit in target type"

/-- The largest number of 64 bits. -/
def maxWord64 : Nat := 0xFFFFFFFFFFFFFFFF

/-- The number denoted by the digits read so far, of value `value`, followed by `digits`. -/
def readDigits (limit value : Nat) : List Char → Except NumeralError Nat
  | [] => .ok value
  | c :: cs =>
    if c.isDigit then
      let value := 10 * value + (c.toNat - '0'.toNat)
      if value ≤ limit then readDigits limit value cs else .error .tooLarge
    else .error .invalidDigit

/-- The number, at most `limit`, that a text denotes. -/
def readNumeral (limit : Nat) (text : String) : Except NumeralError Nat :=
  match text.toList with
  | [] => .error .empty
  | ['+'] => .error .invalidDigit
  | '+' :: digits => readDigits limit 0 digits
  | digits => readDigits limit 0 digits

end TermRules.Text
