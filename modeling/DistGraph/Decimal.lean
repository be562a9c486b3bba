/-! Numbers of 64 bits read from decimal text. -/

namespace DistGraph.Decimal

/-- Why a text is not a number. -/
inductive Fault where
  /-- There is no text. -/
  | empty
  /-- A character is not a digit, or there are no digits. -/
  | invalidDigit
  /-- The number needs more than 64 bits. -/
  | tooLarge
  deriving DecidableEq

/-- The wording of a fault. -/
def Fault.message : Fault → String
  -- The text itself is not repeated.
  | .empty => "cannot parse integer from empty string"
  | .invalidDigit => "invalid digit found in string"
  | .tooLarge => "number too large to fit in target type"

/-- The value of a decimal digit. -/
def digit? (c : Char) : Option Nat :=
  -- Only the ten ASCII digits count.
  if '0' ≤ c ∧ c ≤ '9' then some (c.toNat - '0'.toNat) else none

/-- Reads digits after a number that has been read so far. -/
def readDigits (number : Nat) : List Char → Except Fault Nat
  -- A character that is not a digit is noticed unless the number has grown too large before.
  | [] => .ok number
  | c :: rest =>
    match digit? c with
    | none => .error .invalidDigit
    | some digit =>
      if number * 10 + digit < 2 ^ 64 then readDigits (number * 10 + digit) rest
      else .error .tooLarge

/-- Reads a number that may have a plus sign. -/
def read (text : String) : Except Fault Nat :=
  -- A sign by itself is no number, and neither is nothing.
  match text.toList with
  | [] => .error .empty
  | ['+'] => .error .invalidDigit
  | '+' :: digits => readDigits 0 digits
  | digits => readDigits 0 digits

end DistGraph.Decimal
