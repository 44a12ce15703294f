import OptionSchema.Text.Characters
/-! # Reading integer ranges

A range is two integers with two dots between them, and white space anywhere around them. Digits of
any script make an integer, but only ASCII digits have a value here.
-/
namespace OptionSchema.Raw

inductive NumberFault where
  | invalidDigit
  | tooLarge
  | tooSmall
deriving DecidableEq, Repr

def NumberFault.message : NumberFault → String
  | .invalidDigit => "invalid digit found in string"
  | .tooLarge => "number too large to fit in target type"
  | .tooSmall => "number too small to fit in target type"

def skipBlanks (text : List Char) : List Char := text.dropWhile Text.isBlank

structure Numeral where
  negative : Bool
  digits : List Char
deriving DecidableEq, Repr

def splitNumeral? (text : List Char) : Option (Numeral × List Char) :=
  let negative := text.head? == some '-'
  let unsigned := if negative then text.drop 1 else text
  let digits := unsigned.takeWhile Text.isDecimalDigit
  if digits.isEmpty then none
  else some (⟨negative, digits⟩, unsigned.dropWhile Text.isDecimalDigit)

def splitRange? (text : List Char) : Option (Numeral × Numeral) :=
  match splitNumeral? (skipBlanks text) with
  | none => none
  | some (first, rest) =>
    match skipBlanks rest with
    | '.' :: '.' :: rest =>
      match splitNumeral? (skipBlanks rest) with
      | none => none
      | some (last, rest) => if (skipBlanks rest).isEmpty then some (first, last) else none
    | _ => none

/-- Reads digits after those of `start`, up to the first that is not ASCII or that passes the
limit. -/
def readDigits (limit : Nat) (overflow : NumberFault) (start : Nat) :
    List Char → Except NumberFault Nat
  | [] => .ok start
  | digit :: digits =>
    if digit.isDigit then
      let next := 10 * start + (digit.toNat - '0'.toNat)
      if next ≤ limit then readDigits limit overflow next digits else .error overflow
    else .error .invalidDigit

def Numeral.read (numeral : Numeral) : Except NumberFault Int64 :=
  if numeral.negative then
    (readDigits (Nat.pow 2 63) .tooSmall 0 numeral.digits).map fun n => Int64.ofInt (-(n : Int))
  else
    (readDigits (Nat.pow 2 63 - 1) .tooLarge 0 numeral.digits).map fun n => Int64.ofInt n

end OptionSchema.Raw
