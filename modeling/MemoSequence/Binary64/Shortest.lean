import MemoSequence.Binary64.Basic
set_option autoImplicit false

/-!
# Shortest decimals

The decimal with the fewest digits among those that read back as a given magnitude; of several with
equally many digits the nearest one, and of two equally near ones the even one.

The reals that round to `m · 2 ^ e` form an interval around it, its ends included iff `m` is even.
On the grid of the multiples of `10 ^ p` only the two neighbours of the value can be nearest, so for
ever finer grids these two are tried.
-/
namespace MemoSequence

structure Decimal where
  digits : Nat
  exponent : Int
  deriving DecidableEq, Repr

namespace Magnitude

/-- Value and interval in units of `2 ^ (exponent - 2)`: the lower end is nearer below a power of
two, where the doubles get denser. -/
structure Neighbourhood where
  low : Nat
  value : Nat
  high : Nat
  closed : Bool
  exponent : Int

def neighbourhood (x : Magnitude) : Neighbourhood where
  low := if x.mantissa = 1 <<< 52 ∧ minExponent < x.exponent then 4 * x.mantissa - 1
    else 4 * x.mantissa - 2
  value := 4 * x.mantissa
  high := 4 * x.mantissa + 2
  closed := x.mantissa % 2 = 0
  exponent := x.exponent - 2

namespace Neighbourhood

def scales (n : Neighbourhood) (p : Int) : Nat × Nat :=
  (Nat.pow 10 (-p).toNat <<< n.exponent.toNat, Nat.pow 10 p.toNat <<< (-n.exponent).toNat)

def holds (n : Neighbourhood) (p : Int) (c : Nat) : Bool :=
  let (unit, grid) := n.scales p
  if n.closed then n.low * unit ≤ c * grid ∧ c * grid ≤ n.high * unit
  else n.low * unit < c * grid ∧ c * grid < n.high * unit

/-- The multiple of `10 ^ p` to take, if one of the value's two neighbours reads back. -/
def onGrid? (n : Neighbourhood) (p : Int) : Option Nat :=
  let (unit, grid) := n.scales p
  let below := n.value * unit / grid
  let above := below + 1
  match n.holds p below, n.holds p above with
  | true, true =>
    let toBelow := n.value * unit - below * grid
    let toAbove := above * grid - n.value * unit
    if toBelow < toAbove then some below
    else if toAbove < toBelow then some above
    else some (if below % 2 = 0 then below else above)
  | true, false => some below
  | false, true => some above
  | false, false => none

/-- The first of the grids `10 ^ p`, `10 ^ (p - 1)` and so on that has a decimal which reads back. -/
def finest (n : Neighbourhood) : (tries : Nat) → Int → Decimal
  | 0, p => ⟨n.value * (n.scales p).1 / (n.scales p).2, p⟩
  | tries + 1, p => match n.onGrid? p with
    | some c => ⟨c, p⟩
    | none => n.finest tries (p - 1)

end Neighbourhood

def decimalLength (n : Nat) : Nat := (Nat.toDigits 10 n).length

def leading (x : Magnitude) : Int :=
  let (num, den) := x.ratio
  (decimalLength num : Int) - decimalLength den + 1

def trimmed : (fuel : Nat) → Decimal → Decimal
  | 0, d => d
  | fuel + 1, d =>
    if d.digits ≠ 0 ∧ d.digits % 10 = 0 then trimmed fuel ⟨d.digits / 10, d.exponent + 1⟩ else d

/-- The shortest decimal of a magnitude. Seventeen digits are always enough, and the grids that are
tried have as many. -/
def shortest (x : Magnitude) : Decimal :=
  if x.mantissa = 0 then ⟨0, 0⟩
  else trimmed 20 (x.neighbourhood.finest 20 x.leading)

end Magnitude

end MemoSequence
