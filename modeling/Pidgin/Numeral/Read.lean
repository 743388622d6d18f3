import Pidgin.Numeral.Binary64

/-!
# Reading numerals

Reading numerals.

An integer is an optional sign and at least one digit, and has to fit in
sixty-four bits.  A double is an optional sign followed by digits with an
optional point and exponent, or by a name for infinity or for no number.
-/

namespace Pidgin.Numeral

def value (digits : List Char) : Nat :=
  digits.foldl (fun n c => 10 * n + (c.toNat - '0'.toNat)) 0

/-- Take an optional sign off the front; `true` stands for minus. -/
def splitSign : List Char → Bool × List Char
  | '-' :: rest => (true, rest)
  | '+' :: rest => (false, rest)
  | rest => (false, rest)

def isDigits (text : List Char) : Bool := !text.isEmpty && text.all Char.isDigit

def fits (n : Int) : Bool := -9223372036854775808 ≤ n && n ≤ 9223372036854775807

def readInt? (text : String) : Option Int :=
  let (negative, digits) := splitSign text.toList
  if isDigits digits then
    let magnitude : Int := value digits
    let n := if negative then -magnitude else magnitude
    if fits n then some n else none
  else none

def readExponent? : List Char → Option Int
  | [] => some 0
  | mark :: rest =>
      let (negative, digits) := splitSign rest
      if (mark = 'e' || mark = 'E') && isDigits digits then
        some (if negative then -(value digits : Int) else value digits)
      else none

/-- Digits with an optional point among, before or after them, and an exponent. -/
def readDecimal? (negative : Bool) (text : List Char) : Option Binary64 :=
  let whole := text.takeWhile Char.isDigit
  let afterWhole := text.dropWhile Char.isDigit
  let (fraction, rest) :=
    match afterWhole with
    | '.' :: more => (more.takeWhile Char.isDigit, more.dropWhile Char.isDigit)
    | _ => ([], afterWhole)
  if (whole ++ fraction).isEmpty then none
  else
    (readExponent? rest).map fun exponent =>
      Binary64.ofDecimal negative (value (whole ++ fraction)) (exponent - fraction.length)

def readFloat? (text : String) : Option Binary64 :=
  let (negative, body) := splitSign text.toList
  let word := String.ofList (body.map Char.toLower)
  if word = "inf" || word = "infinity" then some (.infinity negative)
  else if word = "nan" then some (.nan negative)
  else readDecimal? negative body

end Pidgin.Numeral
