/-!
# Double-precision numbers

A number of the 64-bit binary format, kept as its bit pattern: one sign bit, eleven bits of
exponent, fifty-two of fraction. Everything the library does with such a number (order, numeric
equality, nearest value of a quotient, shortest decimal) is integer arithmetic on these parts.
-/

set_option autoImplicit false

namespace TraversalSql

/-- A double-precision number, by its bits. -/
structure Double where
  bits : UInt64
deriving DecidableEq, Repr

namespace Double

instance : Inhabited Double := ⟨⟨0⟩⟩

/-- The sign bit is set. -/
def negative (x : Double) : Bool := x.bits ≥ 0x8000000000000000

/-- The bits below the sign; for finite numbers they grow with the absolute value. -/
def magnitude (x : Double) : Nat := (x.bits &&& 0x7FFFFFFFFFFFFFFF).toNat

/-- The magnitude of the infinities; anything above it is not a number. -/
def infiniteMagnitude : Nat := 0x7FF0000000000000

def isInfinite (x : Double) : Bool := x.magnitude == infiniteMagnitude

def isNaN (x : Double) : Bool := x.magnitude > infiniteMagnitude

def isZero (x : Double) : Bool := x.magnitude == 0

def ofMagnitude (negative : Bool) (magnitude : Nat) : Double :=
  ⟨(if negative then 0x8000000000000000 else 0) ||| magnitude.toUInt64⟩

def infinity (negative : Bool) : Double := ofMagnitude negative infiniteMagnitude

def notANumber (negative : Bool) : Double := ofMagnitude negative 0x7FF8000000000000

/-- Place in the total order of bit patterns: the negative numbers, largest magnitude first,
then the positive ones. Negative zero stands just below zero, and what is not a number stands
outside the infinities on the side of its sign. -/
def place (x : Double) : Int :=
  if x.negative then -(x.magnitude : Int) - 1 else x.magnitude

/-- The total order of bit patterns. -/
def compareTotal (x y : Double) : Ordering := compare x.place y.place

/-- Equality of the numbers meant: the two zeros are equal, and what is not a number equals
nothing. -/
def numericallyEqual (x y : Double) : Bool :=
  !x.isNaN && !y.isNaN && (x == y || (x.isZero && y.isZero))

/-- The magnitude of the least number with a full mantissa: one more than fifty-two bits hold. -/
def fullMantissa : Nat := 0x10000000000000

/-- The finite value `mantissa * 2 ^ exponent` that a magnitude below infinity stands for. -/
def mantissa (x : Double) : Nat :=
  if x.magnitude < fullMantissa then x.magnitude else fullMantissa + x.magnitude % fullMantissa

/-- The exponent beside `mantissa`. -/
def exponent (x : Double) : Int :=
  if x.magnitude < fullMantissa then -1074 else (x.magnitude / fullMantissa : Nat) - 1075

/-- The neighbour below a power of two is nearer than the one above. -/
def narrowBelow (x : Double) : Bool :=
  x.magnitude % fullMantissa == 0 && x.magnitude / fullMantissa > 1

/-- The quotient of two naturals rounded to a natural, halves to the even neighbour. -/
def roundHalfEven (num den : Nat) : Nat :=
  let q := num / den
  match compare (2 * (num % den)) den with
  | .lt => q
  | .gt => q + 1
  | .eq => q + q % 2

/-- `num / den` in units of `2 ^ e`, as a quotient of naturals. -/
def inUnits (num den : Nat) (e : Int) : Nat × Nat :=
  (num <<< (-e).toNat, den <<< e.toNat)

/-- The magnitude nearest to the positive quotient `num / den`, halves to even: the quotient is
rounded in the unit that leaves fifty-three bits, or in the least unit of the format where that
is coarser. A mantissa that rounds up to the next power of two carries into the exponent by the
sum, and what reaches the magnitude of infinity is infinite. -/
def nearestMagnitude (num den : Nat) : Nat :=
  if num = 0 then 0 else
    let estimate : Int := (num.log2 : Int) - den.log2 - 52
    let (n, d) := inUnits num den estimate
    let unit : Int := if n < d * fullMantissa then estimate - 1 else estimate
    -- below the normal range the unit stays that of the least number
    let unit := max unit (-1074)
    let (n, d) := inUnits num den unit
    min infiniteMagnitude ((unit + 1074).toNat * fullMantissa + roundHalfEven n d)

/-- The number nearest to `num / den`, with the given sign. -/
def nearest (negative : Bool) (num den : Nat) : Double :=
  ofMagnitude negative (nearestMagnitude num den)

/-- The number nearest to an integer. -/
def ofInt (i : Int) : Double := nearest (i < 0) i.natAbs 1

/-- The number nearest to `digits * 10 ^ exp`. Exponents that put the value far outside the
format are settled by the length of the digits alone. -/
def ofDecimal (negative : Bool) (digits : Nat) (exp : Int) : Double :=
  if digits = 0 then ofMagnitude negative 0 else
    let scale := (Nat.toDigits 10 digits).length + exp
    if scale > 310 then infinity negative
    else if scale < -330 then ofMagnitude negative 0
    else nearest negative (digits * Nat.pow 10 exp.toNat) (Nat.pow 10 (-exp).toNat)

end Double

end TraversalSql
