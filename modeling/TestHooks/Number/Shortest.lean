import TestHooks.Number.Binary64

/-!
# Shortest decimals

The decimal with the fewest digits that reads back as a given binary64 value; of several, the
nearest, and of two that are as near the one with an even last digit.
-/

namespace TestHooks.Binary64

/-- A finite value without its sign, as numerator and denominator. -/
def ratio (mantissa : Nat) (exponent : Int) : Nat × Nat :=
  if 0 ≤ exponent then (mantissa <<< exponent.toNat, 1) else (mantissa, 1 <<< (-exponent).toNat)

/-- The exponent of the first decimal digit of a positive ratio. -/
def decimalExponent (num den : Nat) : Int :=
  if den ≤ num then ((Nat.toDigits 10 (num / den)).length : Int) - 1
  else -(((List.range 400).find? fun j => decide (den ≤ num * tenTo j)).getD 0 : Nat)

/-- The digits and the exponent of a decimal of `count` digits next to the ratio that reads back as `x`. -/
def decimalOf? (x : Binary64) (num den count : Nat) : Option (Nat × Int) :=
  let power := decimalExponent num den - count + 1
  let (n, d) := if 0 ≤ power then (num, den * tenTo power.toNat) else (num * tenTo (-power).toNat, den)
  let below := n / d
  let isHit (digits : Nat) : Bool := ofDecimal false digits power == x
  match isHit below, isHit (below + 1) with
  | true, true => some (roundDiv n d, power)
  | true, false => some (below, power)
  | false, true => some (below + 1, power)
  | false, false => none

/-- A decimal found for a value reads back as that value. -/
theorem ofDecimal_of_decimalOf? {x : Binary64} {num den count digits : Nat} {power : Int}
    (h : decimalOf? x num den count = some (digits, power)) : ofDecimal false digits power = x := by
  unfold decimalOf? at h
  dsimp only at h
  split at h
  · rename_i hbelow habove
    obtain ⟨rfl, rfl⟩ := Prod.mk.inj (Option.some.inj h)
    rcases roundDiv_eq_or _ _ with hr | hr
    · rw [hr]
      exact eq_of_beq hbelow
    · rw [hr]
      exact eq_of_beq habove
  · grind
  · grind
  · contradiction

/-- The shortest decimal of a positive finite value: its digits, and the exponent of the last of them. -/
def shortest (mantissa : Nat) (exponent : Int) : Nat × Int :=
  let (num, den) := ratio mantissa exponent
  ((List.range 17).findSome? fun i => decimalOf? (.finite false mantissa exponent) num den (i + 1)).getD (0, 0)

end TestHooks.Binary64
