/-!
# Binary floating point

The values of the IEEE 754 binary64 format, and the nearest of them to a decimal fraction. A tie goes to the
even mantissa.
-/

namespace TestHooks

/-- A binary64 value. A finite one is its mantissa times two to the exponent. -/
inductive Binary64
  | nan
  | infinite (negative : Bool)
  | finite (negative : Bool) (mantissa : Nat) (exponent : Int)
  deriving DecidableEq, Repr

namespace Binary64

/-- The quotient rounded to the nearest integer, a tie to the even one. -/
def roundDiv (num den : Nat) : Nat :=
  let q := num / den
  let r := num % den
  if 2 * r > den || (2 * r = den && q % 2 = 1) then q + 1 else q

theorem roundDiv_eq_or (num den : Nat) : roundDiv num den = num / den ∨ roundDiv num den = num / den + 1 := by
  unfold roundDiv
  dsimp only
  split
  · exact .inr rfl
  · exact .inl rfl

/-- Rounding is off by half a unit at most. -/
theorem roundDiv_near (num : Nat) {den : Nat} (hden : 0 < den) :
    2 * num ≤ (2 * roundDiv num den + 1) * den ∧ 2 * roundDiv num den * den ≤ 2 * num + den := by
  have hdiv := Nat.div_add_mod num den
  have hmod := Nat.mod_lt num hden
  have hcomm := Nat.mul_comm den (num / den)
  unfold roundDiv
  dsimp only
  split
  · next h =>
    have hle : den ≤ 2 * (num % den) := by
      simp only [Bool.or_eq_true, decide_eq_true_eq, Bool.and_eq_true] at h
      omega
    constructor <;> grind
  · next h =>
    have hle : 2 * (num % den) ≤ den := by
      simp only [Bool.or_eq_true, decide_eq_true_eq, Bool.and_eq_true] at h
      omega
    constructor <;> grind

/-- The scaled ratio `num / den / 2 ^ exponent`, as numerator and denominator. -/
def scale (num den : Nat) (exponent : Int) : Nat × Nat :=
  if 0 ≤ exponent then (num, den <<< exponent.toNat) else (num <<< (-exponent).toNat, den)

/-- The least mantissa of 53 bits. -/
def leastFull : Nat := 1 <<< 52

/-- Ten to a power. -/
def tenTo (power : Nat) : Nat := Nat.pow 10 power

/-- The exponent at which the ratio has a mantissa of 53 bits, or the least exponent of the format. -/
def exponentOf (num den : Nat) : Int :=
  let guess : Int := (num.log2 : Int) - den.log2 - 52
  let (n, d) := scale num den guess
  max (-1074) (if n / d < leastFull then guess - 1 else guess)

/-- The binary64 value nearest to the ratio of two positive numbers. -/
def ofRatio (negative : Bool) (num den : Nat) : Binary64 :=
  let exponent := exponentOf num den
  let (n, d) := scale num den exponent
  let rounded := roundDiv n d
  let (mantissa, exponent) := if rounded = 2 * leastFull then (leastFull, exponent + 1) else (rounded, exponent)
  if 971 < exponent then infinite negative else finite negative mantissa exponent

/-- The binary64 value nearest to `digits` times ten to the `exponent`. -/
def ofDecimal (negative : Bool) (digits : Nat) (exponent : Int) : Binary64 :=
  let magnitude : Int := exponent + (Nat.toDigits 10 digits).length
  if digits = 0 || magnitude < -330 then finite negative 0 0
  else if 310 < magnitude then infinite negative
  else if 0 ≤ exponent then ofRatio negative (digits * tenTo exponent.toNat) 1
  else ofRatio negative digits (tenTo (-exponent).toNat)

/-- The integer that the value equals, if there is one. -/
def toInt? : Binary64 → Option Int
  | finite negative mantissa exponent =>
    let signed (n : Nat) : Int := if negative then -n else n
    if 0 ≤ exponent then some (signed (mantissa <<< exponent.toNat))
    else
      let den := 1 <<< (-exponent).toNat
      if mantissa % den = 0 then some (signed (mantissa / den)) else none
  | _ => none

def isFinite : Binary64 → Bool
  | finite _ _ _ => true
  | _ => false

theorem toInt?_eq_none_of_not_isFinite {x : Binary64} (h : x.isFinite = false) : x.toInt? = none := by
  cases x <;> simp_all [isFinite, toInt?]

end Binary64

end TestHooks
