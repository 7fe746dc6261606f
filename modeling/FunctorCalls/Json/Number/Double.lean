import FunctorCalls.Decimal.Shortest
import FunctorCalls.Json.Number

namespace FunctorCalls.Json.Number

def lastDigits (n : Nat) : Nat → List (Fin 10)
  | 0 => []
  | k + 1 => lastDigits (n / 10) k ++ [lastDigit n]

def pointed (negative : Bool) (n k : Nat) (exponent : Option Int) : Number :=
  ⟨negative, n / Nat.pow 10 k, lastDigits n k, exponent⟩

/-- Decimals from `0.00001` up to and without `1e+16` are written without an exponent and with a
fraction; all others have one digit in front of the point, and no point after a lone digit. -/
def ofDecimal (d : Decimal) : Number :=
  if -5 < d.point ∧ d.point ≤ 16 then
    match d.exponent with
    | .ofNat k => pointed d.negative (d.digits * Nat.pow 10 (k + 1)) 1 none
    | .negSucc k => pointed d.negative d.digits (k + 1) none
  else pointed d.negative d.digits (d.length - 1) (some (d.point - 1))

def ofFloat (x : Float) : Number := ofDecimal (.ofFloat x)

def dropDigits (n : Nat) : Nat × Nat :=
  if n < UInt64.size then (n, 0)
  else
    let (m, dropped) := dropDigits (n / 10)
    (m, dropped + 1)
termination_by n
decreasing_by
  have : 0 < UInt64.size := by decide
  omega

/-- Takes digits up to the first one with which the significand would no longer fit into a word, and
counts them. -/
def takeDigits (significand : Nat) : List (Fin 10) → Nat × Nat
  | [] => (significand, 0)
  | d :: ds =>
    if 10 * significand + d < UInt64.size then
      let (s, taken) := takeDigits (10 * significand + d) ds
      (s, taken + 1)
    else (significand, 0)

def maxScale : Nat := 308

def power (k : Nat) : Float := .ofScientific 1 false k

def shrink (x : Float) (k : Nat) : Float :=
  if k ≤ maxScale then x / power k
  else if x == 0 then x
  else shrink (x / power maxScale) (k - maxScale)
termination_by k
decreasing_by
  have : 0 < maxScale := by decide
  omega

/-- Scales by a power of ten. What lies beyond the largest finite number is refused. -/
def scale? (x : Float) : Int → Option Float
  | .ofNat k =>
    if x == 0 then some x
    else if k ≤ maxScale then
      let y := x * power k
      if y.isInf then none else some y
    else none
  | .negSucc k => some (shrink x (k + 1))

/-- Scales the leading digits, as many as fit into a word, by a power of ten. This need not give the
nearest number of 64 bits, so that some numbers do not read back from what is written for them. -/
def toFloat? (n : Number) : Option Float :=
  let (m, dropped) := dropDigits n.whole
  let (s, taken) := takeDigits m n.fraction
  let e := n.exponent.getD 0 + Int.ofNat dropped - Int.ofNat taken
  (scale? (.ofScientific s false 0) e).map fun x ↦ if n.negative then -x else x

end FunctorCalls.Json.Number
