/-!
# Fixed-point decimals

The text of a number with a fixed count of decimal places: the nearest such decimal to the exact
value, a half going to the even neighbour.
-/

namespace IncrementalGlr

def roundedQuotient (numerator denominator : Nat) : Nat :=
  let quotient := numerator / denominator
  let rest := numerator % denominator
  if denominator < 2 * rest || (2 * rest = denominator && quotient % 2 = 1) then quotient + 1
  else quotient

theorem roundedQuotient_one (n : Nat) : roundedQuotient n 1 = n := by
  simp [roundedQuotient, Nat.mod_one]

theorem two_mul_roundedQuotient_le (n d : Nat) :
    2 * (roundedQuotient n d * d) ≤ 2 * n + d := by
  have := Nat.div_add_mod n d
  have : n / d * d = d * (n / d) := Nat.mul_comm _ _
  simp only [roundedQuotient]
  split
  · rename_i up
    simp at up
    rw [Nat.add_mul]
    omega
  · omega

theorem le_two_mul_roundedQuotient (n d : Nat) (pos : 0 < d) :
    2 * n ≤ 2 * (roundedQuotient n d * d) + d := by
  have := Nat.div_add_mod n d
  have : n / d * d = d * (n / d) := Nat.mul_comm _ _
  have := Nat.mod_lt n pos
  simp only [roundedQuotient]
  split
  · rw [Nat.add_mul]
    omega
  · rename_i down
    simp at down
    omega

def decimalText (places units : Nat) : String :=
  let fraction := Nat.repr (units % Nat.pow 10 places)
  s!"{units / Nat.pow 10 places}." ++ "".pushn '0' (places - fraction.length) ++ fraction

def fixedPoint (places : Nat) (x : Float) : String :=
  let bits := x.toBits.toNat
  -- 52 bits of fraction stand below 11 bits of exponent
  let leading := 1 <<< 52
  let exponent := bits / leading % 2048
  let fraction := bits % leading
  let significand := if exponent = 0 then fraction else fraction + leading
  let scaled := significand * Nat.pow 10 places
  -- the value is `significand * 2 ^ (max exponent 1 - 1075)`
  let position := max exponent 1
  decimalText places
    (if 1075 ≤ position then scaled <<< (position - 1075)
    else roundedQuotient scaled (1 <<< (1075 - position)))

end IncrementalGlr
