/-!
# Binary64 numbers

Number literals denote IEEE-754 double precision numbers. A double is kept as its bit pattern,
and a decimal literal is rounded to the nearest one in exact arithmetic on natural numbers, a
tie going to the even neighbour.
-/
namespace LamScope

structure Double where
  bits : UInt64
deriving DecidableEq, Repr, Inhabited

namespace Double

def infinityBits : Nat := 0x7ff0000000000000

/-- The bit above the 52 bits of the fraction, which a normal number has unwritten. -/
def hiddenBit : Nat := 0x10000000000000

/-- The sign is the first bit. -/
def isNegative (x : Double) : Bool := 0x8000000000000000 ≤ x.bits.toNat

/-- The eleven bits between the sign and the fraction. -/
def exponentField (x : Double) : Nat := x.bits.toNat / hiddenBit % 0x800

def fractionField (x : Double) : Nat := x.bits.toNat % hiddenBit

/-- `num / den` rounded to the nearest natural number, a tie to the even one. -/
def roundDiv (num den : Nat) : Nat :=
  let q := num / den
  let r := num % den
  if den < 2 * r ∨ (2 * r = den ∧ q % 2 = 1) then q + 1 else q

/-- The exponent of the largest power of two that is at most `num / den`. -/
def floorLog2 (num den : Nat) : Int :=
  let e : Int := (Nat.log2 num : Int) - (Nat.log2 den : Int)
  let fits := if 0 ≤ e then den <<< e.toNat ≤ num else den ≤ num <<< (-e).toNat
  if fits then e else e - 1

/-- The double nearest to `num / den`. The exponent and the rounded significand are added, so a
significand that rounds up to the next power of two raises the exponent by itself, and a value
past the largest finite double becomes infinity. -/
def ofRatio (num den : Nat) : Double :=
  if num = 0 then ⟨0⟩
  else
    let unit : Int := max (floorLog2 num den) (-1022) - 52
    let significand :=
      if 0 ≤ unit then roundDiv num (den <<< unit.toNat)
      else roundDiv (num <<< (-unit).toNat) den
    let bits := (unit + 1074).toNat * hiddenBit + significand
    ⟨UInt64.ofNat (min bits infinityBits)⟩

/-- The value of a run of decimal digits. -/
def digitsValue (ds : List Char) : Nat := ds.foldl (fun n d => 10 * n + (d.toNat - '0'.toNat)) 0

/-- Reads digits, which a point and more digits may follow. -/
def ofDecimal? (cs : List Char) : Option Double :=
  let whole := cs.takeWhile Char.isDigit
  if whole.isEmpty then none
  else
    match cs.dropWhile Char.isDigit with
    | [] => some (ofRatio (digitsValue whole) 1)
    | '.' :: fraction =>
        if !fraction.isEmpty && fraction.all Char.isDigit then
          some (ofRatio (digitsValue (whole ++ fraction)) (Nat.pow 10 fraction.length))
        else none
    | _ => none

end Double

end LamScope
