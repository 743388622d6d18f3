/-!
# Double-precision numbers

Double-precision binary numbers, held as their sixty-four bits.

Reading and writing go through exact integer arithmetic, so a decimal is read
as the nearest double and a double is written from its exact value.  In both
directions a tie goes to the even neighbour.
-/

namespace Pidgin

/-- A double-precision number, given by its bits: sign, exponent, fraction. -/
structure Binary64 where
  bits : UInt64
  deriving DecidableEq, Repr

/-- The integer nearest to `num / den`; a tie goes to the even one. -/
def roundDiv (num den : Nat) : Nat :=
  let quotient := num / den
  let twice := 2 * (num % den)
  if twice < den then quotient
  else if den < twice then quotient + 1
  else quotient + quotient % 2

namespace Binary64

/-- The bits of infinity; every larger pattern below the sign is no number. -/
def infinityBits : Nat := 0x7ff * Nat.pow 2 52

def ofMagnitude (negative : Bool) (bits : Nat) : Binary64 :=
  ⟨UInt64.ofNat (if negative then Nat.pow 2 63 + bits else bits)⟩

def infinity (negative : Bool) : Binary64 := ofMagnitude negative infinityBits

def nan (negative : Bool) : Binary64 := ofMagnitude negative (infinityBits + Nat.pow 2 51)

/-- The largest `e` with `2 ^ e ≤ num / den`. -/
def ratioExponent (num den : Nat) : Int :=
  let guess : Int := (num.log2 : Int) - den.log2
  let reached :=
    if guess ≥ 0 then den * Nat.pow 2 guess.toNat ≤ num
    else den ≤ num * Nat.pow 2 (-guess).toNat
  if reached then guess else guess - 1

/--
The bits of the double nearest to `num / den`.  The quotient is counted in units
of `2 ^ unit`, where the unit leaves fifty-three bits or is the smallest there
is.  Adding the unit's place to the rounded count also carries into the exponent
when rounding reaches the next power of two.
-/
def ratioBits (num den : Nat) : Nat :=
  if num = 0 then 0
  else
    let unit : Int := max (ratioExponent num den - 52) (-1074)
    let count :=
      if unit ≥ 0 then roundDiv num (den * Nat.pow 2 unit.toNat)
      else roundDiv (num * Nat.pow 2 (-unit).toNat) den
    min ((unit + 1074).toNat * Nat.pow 2 52 + count) infinityBits

/--
The bits of the double nearest to `digits * 10 ^ scale`.  Scales that can only
give infinity or zero are settled without forming the power.
-/
def decimalBits (digits : Nat) (scale : Int) : Nat :=
  if digits = 0 then 0
  else if scale > 309 then infinityBits
  else if scale + (digits.log2 / 3 + 1 : Nat) < -330 then 0
  else if scale ≥ 0 then ratioBits (digits * Nat.pow 10 scale.toNat) 1
  else ratioBits digits (Nat.pow 10 (-scale).toNat)

def ofDecimal (negative : Bool) (digits : Nat) (scale : Int) : Binary64 :=
  ofMagnitude negative (decimalBits digits scale)

def isNegative (x : Binary64) : Bool := Nat.pow 2 63 ≤ x.bits.toNat

def exponentField (x : Binary64) : Nat := x.bits.toNat / Nat.pow 2 52 % Nat.pow 2 11

def fractionField (x : Binary64) : Nat := x.bits.toNat % Nat.pow 2 52

def isNan (x : Binary64) : Bool := x.exponentField = 2047 && x.fractionField ≠ 0

/-- The magnitude of a finite number in units of `10 ^ (-places)`, rounded. -/
def scaled (x : Binary64) (places : Nat) : Nat :=
  if x.exponentField = 0 then
    roundDiv (x.fractionField * Nat.pow 10 places) (Nat.pow 2 1074)
  else
    let significand := Nat.pow 2 52 + x.fractionField
    if x.exponentField ≥ 1075 then
      significand * Nat.pow 2 (x.exponentField - 1075) * Nat.pow 10 places
    else
      roundDiv (significand * Nat.pow 10 places) (Nat.pow 2 (1075 - x.exponentField))

def paddedDigits (width n : Nat) : List Char :=
  let digits := Nat.toDigits 10 n
  List.replicate (width - digits.length) '0' ++ digits

def fixed (places : Nat) (x : Binary64) : String :=
  if x.isNan then "NaN"
  else
    let sign := if x.isNegative then "-" else ""
    if x.exponentField = 2047 then sign ++ "inf"
    else
      let count := x.scaled places
      sign ++ String.ofList (Nat.toDigits 10 (count / Nat.pow 10 places)) ++ "." ++
        String.ofList (paddedDigits places (count % Nat.pow 10 places))

end Binary64

end Pidgin
