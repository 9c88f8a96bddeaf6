import TraversalSql.Number.Double

/-!
# Numbers read from text

Integers are read digit by digit from the left, so the first fault on the way is the one that is
reported: a character that is no digit, or a value beyond the range. A leading `+` is allowed.
Decimals are read exactly and rounded once.
-/

set_option autoImplicit false

namespace TraversalSql.Reading

/-- Why a text is not an integer of the wanted range. -/
inductive IntegerFault where
  | empty
  | invalidDigit
  | tooLarge
  | tooSmall
deriving DecidableEq, Repr

/-- The value of an ASCII digit. -/
def digit? (c : Char) : Option Nat :=
  if c.isDigit then some (c.toNat - '0'.toNat) else none

/-- Read digits into an accumulator that must stay within `limit`. -/
def digitsWithin (limit : Nat) (overflow : IntegerFault) : Nat → List Char → Except IntegerFault Nat
  | acc, [] => .ok acc
  | acc, c :: cs =>
    match digit? c with
    | none => .error .invalidDigit
    | some d =>
      let next := acc * 10 + d
      if next ≤ limit then digitsWithin limit overflow next cs else .error overflow

/-- At least one digit, within `limit`. -/
def naturalWithin (limit : Nat) (overflow : IntegerFault) : List Char → Except IntegerFault Nat
  | [] => .error .invalidDigit
  | cs => digitsWithin limit overflow 0 cs

/-- A count: an optional `+` and digits, at most `2 ^ 64 - 1`. -/
def count (text : String) : Except IntegerFault Nat :=
  let limit := UInt64.size - 1
  match text.toList with
  | [] => .error .empty
  | '+' :: cs => naturalWithin limit .tooLarge cs
  | cs => naturalWithin limit .tooLarge cs

/-- The largest 64-bit integer. -/
def largest : Nat := 0x7FFFFFFFFFFFFFFF

/-- A 64-bit integer: an optional sign and digits. -/
def integer (text : String) : Except IntegerFault Int64 :=
  match text.toList with
  | [] => .error .empty
  | '+' :: cs => (naturalWithin largest .tooLarge cs).map fun n => Int64.ofInt n
  | '-' :: cs => (naturalWithin (largest + 1) .tooSmall cs).map fun n => Int64.ofInt (-(n : Int))
  | cs => (naturalWithin largest .tooLarge cs).map fun n => Int64.ofInt n

/-- A 64-bit integer, or nothing. -/
def integer? (text : String) : Option Int64 := (integer text).toOption

/-- The digits at the front of a text, and what follows them. -/
def spanDigits (cs : List Char) : List Char × List Char := cs.span Char.isDigit

/-- The natural that a list of digits spells; zero for no digits. -/
def naturalOf (cs : List Char) : Nat :=
  cs.foldl (fun acc c => acc * 10 + (c.toNat - '0'.toNat)) 0

/-- An exponent: sign and at least one digit, to the end of the text. -/
def exponent? : List Char → Option Int
  | '+' :: cs => digits cs 1
  | '-' :: cs => digits cs (-1)
  | cs => digits cs 1
where
  digits (cs : List Char) (sign : Int) : Option Int :=
    if cs.isEmpty || !cs.all Char.isDigit then none else some (sign * naturalOf cs)

/-- Digits, optionally a point and digits, optionally an exponent; at least one digit stands
before or after the point. -/
def unsignedDouble? (negative : Bool) (cs : List Char) : Option Double :=
  let (whole, rest) := spanDigits cs
  let (fraction, rest) := match rest with
    | '.' :: rest => spanDigits rest
    | rest => ([], rest)
  if whole.isEmpty && fraction.isEmpty then none else
    let value (exp : Int) : Double :=
      Double.ofDecimal negative (naturalOf (whole ++ fraction)) (exp - fraction.length)
    match rest with
    | [] => some (value 0)
    | c :: rest => if c == 'e' || c == 'E' then (exponent? rest).map value else none

/-- The names of the values that no digits spell, in any case of letters. -/
def namedDouble? (negative : Bool) (cs : List Char) : Option Double :=
  match String.ofList (cs.map Char.toLower) with
  | "inf" | "infinity" => some (Double.infinity negative)
  | "nan" => some (Double.notANumber negative)
  | _ => none

/-- A number: an optional sign, then a name or digits. -/
def double? (text : String) : Option Double :=
  match text.toList with
  | '+' :: cs => body false cs
  | '-' :: cs => body true cs
  | cs => body false cs
where
  body (negative : Bool) (cs : List Char) : Option Double :=
    (namedDouble? negative cs).or (unsignedDouble? negative cs)

end TraversalSql.Reading
