namespace FunctorCalls

/-- The number `± digits · 10 ^ exponent`. The digits end in a digit other than zero, so that equal
values of one sign are equal decimals. Zero keeps its sign. -/
structure Decimal where
  negative : Bool
  digits : Nat
  exponent : Int
  normal : digits % 10 ≠ 0 ∨ digits = 0 ∧ exponent = 0
  deriving DecidableEq

namespace Decimal

def stripZeros (digits : Nat) (exponent : Int) : Nat × Int :=
  if digits ≠ 0 ∧ digits % 10 = 0 then stripZeros (digits / 10) (exponent + 1)
  else (digits, exponent)
termination_by digits

theorem stripZeros_normal {digits : Nat} (exponent : Int) (h : digits ≠ 0) :
    (stripZeros digits exponent).1 % 10 ≠ 0 := by
  fun_induction stripZeros digits exponent with
  | case1 digits exponent hd ih => exact ih (by omega)
  | case2 digits exponent hd => exact fun hz ↦ hd ⟨h, hz⟩

def ofScientific (negative : Bool) (digits : Nat) (exponent : Int) : Decimal :=
  if h : digits = 0 then
    ⟨negative, 0, 0, .inr ⟨rfl, rfl⟩⟩
  else
    ⟨negative, (stripZeros digits exponent).1, (stripZeros digits exponent).2,
      .inl (stripZeros_normal exponent h)⟩

def length (d : Decimal) : Nat := (Nat.toDigits 10 d.digits).length

/-- The number of digits in front of the decimal point; negative where zeros follow the point. -/
def point (d : Decimal) : Int := d.exponent + d.length

end Decimal

end FunctorCalls
