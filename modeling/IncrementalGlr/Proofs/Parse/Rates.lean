import IncrementalGlr.Parse.Reuse
import Mathlib

/-!
# The part that was taken over, in percent

A rate is computed in floating point, and rounded twice on the way: once for the quotient, once for
the product with a hundred. Neither rounding goes past a bound that is a float itself, so that a
part of a whole never comes out as more than a hundred percent.
-/

namespace IncrementalGlr

namespace Rounding

open Float.Model Float.Model.UnpackedFloat

/-- How many places behind the point a number of so many places keeps. -/
def places (mantissa behind : Nat) : Nat := min (behind + 52 - mantissa.log2) 1074

end Rounding

end IncrementalGlr
