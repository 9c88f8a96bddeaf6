import TraversalSql.Number.Double

/-!
# The shortest decimal of a number

The reals that round to a double form an interval, ends included exactly when the mantissa is
even. The shortest decimal is the first hit on the grids of one, two, … seventeen digits: on each
grid only the two neighbours of the value are tried, the nearer one wins, and the caller's rule
breaks an exact tie. All comparisons are between naturals.
-/

set_option autoImplicit false

namespace TraversalSql.Double

/-- Which of two equally near decimals is written. -/
inductive Tie where
  | up
  | even
deriving DecidableEq, Repr

/-- A decimal `0.d₁d₂… * 10 ^ point`, by its digits. -/
structure Decimal where
  digits : List Char
  point : Int
deriving DecidableEq, Repr

def decimalLength (n : Nat) : Nat := (Nat.toDigits 10 n).length

/-- The least `k` with `num / den < 10 ^ k`, for a positive quotient. -/
def scaleOf (num den : Nat) : Int :=
  if num < den then 1 - (decimalLength ((den - 1) / num) : Int)
  else decimalLength (num / den)

/-- The value `a * 10 ^ p` against the quotient `num / den`. -/
def compareScaled (a : Nat) (p : Int) (num den : Nat) : Ordering :=
  compare (a * Nat.pow 10 p.toNat * den) (num * Nat.pow 10 (-p).toNat)

/-- `a * 10 ^ p` lies among the reals that round to the finite, non-zero number `x`. The ends of
the interval are half a gap away, here counted in quarters of the unit. -/
def readsBack (x : Double) (a : Nat) (p : Int) : Bool :=
  let low := 4 * x.mantissa - (if x.narrowBelow then 1 else 2)
  let high := 4 * x.mantissa + 2
  let ends := x.mantissa % 2 == 0
  let den := 4 <<< (-x.exponent).toNat
  let atLow := compareScaled a p (low <<< x.exponent.toNat) den
  let atHigh := compareScaled a p (high <<< x.exponent.toNat) den
  (atLow == .gt || (ends && atLow == .eq)) && (atHigh == .lt || (ends && atHigh == .eq))

/-- The neighbour of `x` on the grid `10 ^ p` that reads back and is nearest, if one does. -/
def hitOn (tie : Tie) (x : Double) (p : Int) : Option Nat :=
  let num := x.mantissa <<< x.exponent.toNat * Nat.pow 10 (-p).toNat
  let den := 1 <<< (-x.exponent).toNat * Nat.pow 10 p.toNat
  let below := num / den
  match x.readsBack below p, x.readsBack (below + 1) p with
  | true, false => some below
  | false, true => some (below + 1)
  | false, false => none
  | true, true =>
    match compare (2 * (num % den)) den, tie with
    | .lt, _ => some below
    | .gt, _ => some (below + 1)
    | .eq, .up => some (below + 1)
    | .eq, .even => some (if below % 2 == 0 then below else below + 1)

/-- Digits without the zeros at their end, and the place of the point before the first one. -/
def Decimal.ofScaled (a : Nat) (p : Int) : Decimal :=
  let digits := Nat.toDigits 10 a
  ⟨(digits.reverse.dropWhile (· == '0')).reverse, digits.length + p⟩

/-- The shortest decimal that reads back as the finite, non-zero number `x`. Seventeen digits
always suffice; the exact value stands behind them. -/
def shortest (tie : Tie) (x : Double) : Decimal :=
  let num := x.mantissa <<< x.exponent.toNat
  let den := 1 <<< (-x.exponent).toNat
  let scale := scaleOf num den
  let hit := (List.range 17).findSome? fun (n : Nat) =>
    let p := scale - (n + 1 : Nat)
    (hitOn tie x p).map (Decimal.ofScaled · p)
  match hit with
  | some d => d
  | none => Decimal.ofScaled (num * Nat.pow 5 (-x.exponent).toNat) (min x.exponent 0)

end TraversalSql.Double
