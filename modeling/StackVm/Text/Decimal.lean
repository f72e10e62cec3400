/-!
# Unsigned decimal numbers

Numbers are read from ASCII digits, with any number of leading zeros and an
upper bound that the caller sets.
-/

namespace StackVm

namespace Text

/-- The value of a sequence of ASCII digits, most significant first. -/
def decimalValue (digits : List Char) : Nat :=
  digits.foldl (fun value c => 10 * value + (c.toNat - '0'.toNat)) 0

/-- Read a non-empty sequence of digits whose value is at most `bound`. -/
def readDigits? (bound : Nat) (cs : List Char) : Option Nat :=
  if cs ≠ [] ∧ cs.all Char.isDigit ∧ decimalValue cs ≤ bound then
    some (decimalValue cs)
  else
    none

/-- Read digits that may follow one plus sign. -/
def readUnsigned? (bound : Nat) : List Char → Option Nat
  | '+' :: digits => readDigits? bound digits
  | digits => readDigits? bound digits

def maxWord : Nat := 65535

def readWord? (cs : List Char) : Option UInt16 :=
  (readDigits? maxWord cs).map UInt16.ofNat

end Text

end StackVm
