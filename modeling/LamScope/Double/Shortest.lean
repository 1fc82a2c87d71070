import LamScope.Double

/-!
# The shortest decimal text of a double

Of the decimals that read back as a given double, the one with the fewest digits is written, of
those the nearest, and of two that are as near the larger. The decimals are searched grid by grid:
on the grid of `n` digits only the two neighbours of the value matter.
-/
namespace LamScope.Double

/-- The reals that read back as one double: everything from `low` to `high`, measured in units of
`2 ^ unit`, the ends included when `closed`. -/
structure Interval where
  value : Nat
  low : Nat
  high : Nat
  unit : Int
  closed : Bool

/-- A quarter of the last place is a fine enough unit for the middles between neighbours. Below a
power of two the neighbours stand twice as close. -/
def interval (x : Double) : Interval :=
  let hidden := if x.exponentField = 0 then 0 else hiddenBit
  let m := x.fractionField + hidden
  let narrow := x.fractionField = 0 ∧ 1 < x.exponentField
  { value := 4 * m
    low := if narrow then 4 * m - 1 else 4 * m - 2
    high := 4 * m + 2
    unit := (max x.exponentField 1 : Nat) - 1077
    closed := m % 2 = 0 }

/-- Decimal digits of a natural number; zero has none. -/
def digitCount (n : Nat) : Nat := if n = 0 then 0 else (Nat.toDigits 10 n).length

/-- The number `p` with `10 ^ (p - 1) ≤ num / den < 10 ^ p`. -/
def magnitude (num den : Nat) : Int :=
  if den ≤ num then digitCount (num / den) else 1 - (digitCount ((den - 1) / num) : Int)

/-- A value as `digits * 10 ^ exponent`. -/
structure Scientific where
  digits : Nat
  exponent : Int

/-- A multiple of `10 ^ e`, as a ratio with the given denominator's scale. -/
def scaleUp (n : Nat) (base : Nat) (e : Int) : Nat := if 0 ≤ e then n * Nat.pow base e.toNat else n

/-- The better of the two neighbours of the value on the grid of `10 ^ e` that read back. -/
def nearest? (i : Interval) (e : Int) : Option Scientific :=
  -- both sides are brought over the common denominator 2 ^ (-unit) * 10 ^ (-e)
  let grid := scaleUp (scaleUp 1 10 e) 2 (-i.unit)
  let place := fun n => scaleUp (scaleUp n 2 i.unit) 10 (-e)
  let below := place i.value / grid
  let reads := fun d =>
    if i.closed then place i.low ≤ d * grid ∧ d * grid ≤ place i.high
    else place i.low < d * grid ∧ d * grid < place i.high
  let gapBelow := place i.value - below * grid
  let gapAbove := (below + 1) * grid - place i.value
  if reads below ∧ (¬ reads (below + 1) ∨ gapBelow < gapAbove) then some ⟨below, e⟩
  else if reads (below + 1) then some ⟨below + 1, e⟩
  else none

/-- Above nine on the coarsest grid comes ten, which one digit suffices for. -/
def Scientific.normal (s : Scientific) : Scientific :=
  if s.digits % 10 = 0 then ⟨s.digits / 10, s.exponent + 1⟩ else s

/-- Tries `tries` grids, each ten times finer than the one before. -/
def search (i : Interval) : Nat → Int → Scientific
  | 0, _ => ⟨i.value, 0⟩
  | tries + 1, e => (nearest? i e).getD (search i tries (e - 1))

/-- Seventeen digits tell any two doubles apart. -/
def shortest (x : Double) : Scientific :=
  let i := interval x
  let num := scaleUp i.value 2 i.unit
  let den := scaleUp 1 2 (-i.unit)
  (search i 17 (magnitude num den - 1)).normal

def zeros (n : Nat) : String := String.ofList (List.replicate n '0')

/-- Digits with the point after the first `point` of them, and at least one digit on either side
of it. -/
def positional (digits : String) (point : Int) : String :=
  let n : Int := digits.length
  if point ≤ 0 then "0." ++ zeros (-point).toNat ++ digits
  else if n ≤ point then digits ++ zeros (point - n).toNat ++ ".0"
  else
    let cs := digits.toList
    String.ofList (cs.take point.toNat) ++ "." ++ String.ofList (cs.drop point.toNat)

/-- One digit before the point, and the power of ten after an `e`. -/
def exponential (digits : String) (point : Int) : String :=
  let power := "e" ++ toString (point - 1)
  match digits.toList with
  | [] => power
  | [d] => d.toString ++ power
  | d :: ds => d.toString ++ "." ++ String.ofList ds ++ power

/-- Numbers below `10 ^ 16` and from `10 ^ -4` on are written positionally. -/
def magnitudeText (x : Double) : String :=
  if x.exponentField = 0 ∧ x.fractionField = 0 then "0.0"
  else
    let s := shortest x
    let digits := toString s.digits
    let point : Int := digits.length + s.exponent
    if -4 < point ∧ point < 17 then positional digits point else exponential digits point

def text (x : Double) : String :=
  if x.exponentField = 2047 then
    if x.fractionField ≠ 0 then "NaN" else if x.isNegative then "-inf" else "inf"
  else if x.isNegative then "-" ++ x.magnitudeText
  else x.magnitudeText

end LamScope.Double
