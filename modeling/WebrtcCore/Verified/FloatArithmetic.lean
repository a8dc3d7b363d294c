/-!
# Floating point as a parameter

Ports whose results do not depend on rounding take the operations on `float` or `double`
as a parameter: what is proved holds for every arithmetic, IEEE 754 included.
`rational` is the one that computes exactly.
-/

namespace WebrtcCore.Verified

/-- The operations on a floating point type. -/
structure FloatArithmetic (F : Type) where
  /-- The value of a literal. -/
  ofRat : Rat → F
  ofInt : Int → F
  add : F → F → F
  sub : F → F → F
  mul : F → F → F
  div : F → F → F
  abs : F → F
  /-- The conversion to an integer type. -/
  trunc : F → Int
  lt : F → F → Bool
  le : F → F → Bool

namespace FloatArithmetic

/-- Arithmetic without rounding. -/
def rational : FloatArithmetic Rat where
  ofRat := id
  ofInt x := x
  add := (· + ·)
  sub := (· - ·)
  mul := (· * ·)
  div := (· / ·)
  abs x := if x < 0 then -x else x
  trunc x := if x < 0 then x.ceil else x.floor
  lt x y := x < y
  le x y := x ≤ y

end FloatArithmetic

end WebrtcCore.Verified
