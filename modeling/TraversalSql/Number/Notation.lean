import TraversalSql.Number.Shortest

/-!
# Written forms of a number

Two notations are in use. The plain one, of traversal texts and statements, is always positional:
`1`, `0.1`, a one with three hundred zeros. The other, of exported documents, keeps a point in
every number (`1.0`) and turns to an exponent for very large and very small values.
-/

set_option autoImplicit false

namespace TraversalSql.Double

def zeros (n : Nat) : List Char := List.replicate n '0'

/-- Digits around the point, without an exponent. A whole number has no point. -/
def Decimal.positional (d : Decimal) : List Char :=
  if d.point ≤ 0 then ['0', '.'] ++ zeros (-d.point).toNat ++ d.digits
  else
    let point := d.point.toNat
    if d.digits.length ≤ point then d.digits ++ zeros (point - d.digits.length)
    else d.digits.take point ++ ['.'] ++ d.digits.drop point

/-- One digit before the point, then the exponent with its sign: `1e+30`, `1.5e-7`. -/
def Decimal.scientific (d : Decimal) : List Char :=
  let exp := (if 1 ≤ d.point then ['+'] else []) ++ (toString (d.point - 1)).toList
  match d.digits with
  | [] => []
  | [c] => c :: 'e' :: exp
  | c :: cs => c :: '.' :: cs ++ 'e' :: exp

/-- The sign in front of a text. -/
def signed (x : Double) (text : List Char) : String :=
  String.ofList (if x.negative then '-' :: text else text)

/-- Plain text: the fewest digits that read back, of two nearest ones the larger, always
positional. -/
def text (x : Double) : String :=
  if x.isNaN then "NaN"
  else if x.isInfinite then x.signed "inf".toList
  else if x.isZero then x.signed ['0']
  else x.signed (x.shortest .up).positional

/-- Text of a number in an exported document; there is none for values that are not finite. Of
two nearest decimals the even one is written, positional from `0.00001` up to sixteen digits
before the point. -/
def exportText? (x : Double) : Option String :=
  if x.isNaN || x.isInfinite then none
  else if x.isZero then some (x.signed "0.0".toList)
  else
    let d := x.shortest .even
    if -5 < d.point ∧ d.point ≤ 16 then
      some (x.signed (if d.digits.length ≤ d.point then d.positional ++ ['.', '0'] else d.positional))
    else some (x.signed d.scientific)

end TraversalSql.Double
