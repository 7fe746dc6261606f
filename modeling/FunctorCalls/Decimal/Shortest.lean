import FunctorCalls.Decimal

namespace FunctorCalls

/-- The positive real `significand · 2 ^ exponent`, as a finite number of 64 bits holds it. `lowest`
marks a significand whose lower neighbour lies half as far away as its upper one. -/
structure Binary where
  significand : Nat
  exponent : Int
  lowest : Bool

namespace Binary

def ofBits (bits : UInt64) : Binary :=
  let hidden := Nat.pow 2 52
  let fraction := bits.toNat % hidden
  let scale := bits.toNat / hidden % 2048
  if scale = 0 then ⟨fraction, -1074, false⟩
  else ⟨fraction + hidden, Int.ofNat scale - 1075, fraction == 0 && scale != 1⟩

/-- The integers `(a, b)` with `a / b = 2 ^ exponent / (4 · 10 ^ grid)`. -/
def unit (x : Binary) (grid : Int) : Nat × Nat :=
  (Nat.pow 2 x.exponent.toNat * Nat.pow 10 (-grid).toNat,
    4 * Nat.pow 2 (-x.exponent).toNat * Nat.pow 10 grid.toNat)

/-- Whether `c · 10 ^ grid` rounds to `x`: the ends of the interval do for even significands. -/
def holds (x : Binary) (grid : Int) (c : Nat) : Bool :=
  let (a, b) := x.unit grid
  let low := (4 * x.significand - (if x.lowest then 1 else 2)) * a
  let high := (4 * x.significand + 2) * a
  if x.significand % 2 = 0 then low ≤ c * b && c * b ≤ high else low < c * b && c * b < high

def onGrid? (x : Binary) (grid : Int) : Option Nat :=
  let (a, b) := x.unit grid
  let value := 4 * x.significand * a
  let below := value / b
  let low := 2 * (value - below * b)
  match x.holds grid below, x.holds grid (below + 1) with
  | true, true => some (if low < b || (low == b && below % 2 == 0) then below else below + 1)
  | true, false => some below
  | false, true => some (below + 1)
  | false, false => none

def magnitude (x : Binary) : Int :=
  let (a, b) := x.unit (-400)
  (Nat.toDigits 10 (4 * x.significand * a / b)).length - 401

/-- The coarsest of the grids of one up to seventeen digits with a point that rounds to `x`; on a
grid of seventeen digits there always is one. -/
def shortest (x : Binary) : Nat × Int :=
  let grids := (List.range 17).map fun n : Nat ↦ x.magnitude - n
  (grids.findSome? fun grid ↦ (x.onGrid? grid).map (·, grid)).getD (0, 0)

end Binary

namespace Decimal

/-- The fewest digits to which the finite number `x` is the nearest one of 64 bits, of those the
nearest to it, and on a tie the even one. -/
def ofFloat (x : Float) : Decimal :=
  let negative := x.toBits ≥ 0x8000000000000000
  let magnitude := Binary.ofBits x.toBits
  if magnitude.significand = 0 then ofScientific negative 0 0
  else ofScientific negative magnitude.shortest.1 magnitude.shortest.2

end Decimal

end FunctorCalls
