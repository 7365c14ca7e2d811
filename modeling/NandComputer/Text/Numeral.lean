/-!
Numerals: natural numbers in decimal and binary, padding to a width, and the reading
of numbers that have to stay below a bound.
-/

namespace NandComputer.Text

/-- The decimal numeral of a number. -/
def decimal (n : Nat) : List Char := Nat.toDigits 10 n

/-- A decimal numeral with zeros in front up to `width` digits. -/
def paddedDecimal (width n : Nat) : List Char := (decimal n).leftpad width '0'

/-- The binary numeral of a number with zeros in front up to `width` digits. -/
def binary (width n : Nat) : List Char := (Nat.toDigits 2 n).leftpad width '0'

def isBit (c : Char) : Bool := c == '0' || c == '1'

/-- The value of a text of decimal digits. -/
def ofDecimal? (digits : List Char) : Option Nat :=
  if digits ≠ [] ∧ digits.all Char.isDigit then some (Nat.ofDigitChars 10 digits 0) else none

/-- Number of bytes of a text in UTF-8. -/
def byteLength : List Char → Nat
  | [] => 0
  | c :: rest => c.utf8Size + byteLength rest

/-- Why a text is no numeral of a number below a bound. -/
inductive NumeralFault where
  | empty
  | invalidDigit
  | tooLarge
  deriving DecidableEq, Repr, Inhabited

def NumeralFault.message : NumeralFault → String
  | .empty => "cannot parse integer from empty string"
  | .invalidDigit => "invalid digit found in string"
  | .tooLarge => "number too large to fit in target type"

/-- Reads binary digits after those of `value`, up to the first that is none or
takes the value to the bound. -/
def readBits (bound value : Nat) : List Char → Except NumeralFault Nat
  | [] => .ok value
  | c :: rest =>
    if !isBit c then .error .invalidDigit
    else if 2 * value + (c.toNat - '0'.toNat) < bound then
      readBits bound (2 * value + (c.toNat - '0'.toNat)) rest
    else .error .tooLarge

/-- The number below `bound` that a binary numeral stands for. There may be a plus
sign before the digits. -/
def readBinary (bound : Nat) : List Char → Except NumeralFault Nat
  | [] => .error .empty
  | ['+'] => .error .invalidDigit
  | '+' :: digits => readBits bound 0 digits
  | digits => readBits bound 0 digits

/-- The decimal numeral of an integer, with a sign if it is negative. -/
def signedDecimal : Int → List Char
  | .ofNat n => decimal n
  | .negSucc n => '-' :: decimal (n + 1)

end NandComputer.Text
