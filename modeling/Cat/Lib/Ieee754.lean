import Mathlib.Algebra.Group.Int.Defs
import Mathlib.Algebra.Group.Nat.Defs
import Mathlib.Data.Nat.Log
import Mathlib.Data.Int.Order.Basic

/-!
# IEEE 754 binary64, on the bits

A double is its 64 bits. Every finite double is an integer multiple of the smallest subnormal
`2^-1074`, so `F64.scaled` — that multiple — is exact, comparisons of doubles are comparisons of
integers, and no rational arithmetic is needed. Infinities scale to integers beyond every finite
one, which is why only NaN has to be singled out.

The narrower formats matter only on the way in: `widen` is the exact conversion of a half or
single to a double.

Addition and the like are not here: code that compares, truncates and converts is modelled
exactly, and code that computes takes its operations as parameters. Rounding comes in at one
place, where an integer becomes a double (`ofInt`), to the nearest with ties to even.
-/

set_option autoImplicit false

/-- A binary64 datum. -/
structure F64 where
  bits : UInt64
  deriving DecidableEq

namespace F64

def negative (f : F64) : Bool := 2 ^ 63 ≤ f.bits.toNat
def exponent (f : F64) : Nat := f.bits.toNat / 2 ^ 52 % 2 ^ 11
def mantissa (f : F64) : Nat := f.bits.toNat % 2 ^ 52

def isNan (f : F64) : Bool := f.exponent == 2047 && f.mantissa != 0
def isInfinite (f : F64) : Bool := f.exponent == 2047 && f.mantissa == 0
def isFinite (f : F64) : Bool := f.exponent != 2047

/-- The value in units of `2^-1074`, for everything but a NaN. -/
def scaled (f : F64) : Int :=
  let mag : Nat :=
    if f.exponent = 0 then f.mantissa else (2 ^ 52 + f.mantissa) * 2 ^ (f.exponent - 1)
  if f.negative then -(mag : Int) else (mag : Int)

/-- `a < b`: false as soon as one side is a NaN. -/
def lt (a b : F64) : Bool := !a.isNan && !b.isNan && a.scaled < b.scaled

/-- `a <= b`: false as soon as one side is a NaN. -/
def le (a b : F64) : Bool := !a.isNan && !b.isNan && a.scaled ≤ b.scaled

/-- `|f|`: the sign bit cleared. -/
def abs (f : F64) : F64 := ⟨UInt64.ofNat (f.bits.toNat % 2 ^ 63)⟩

/-- `f == f.trunc()`: no bits below the units place. Infinities are their own
    truncation, a NaN is not equal to anything. -/
def isIntegral (f : F64) : Bool := f.isInfinite || (f.isFinite && f.scaled % 2 ^ 1074 == 0)

/-- The integer part, towards zero. -/
def toInt (f : F64) : Int := f.scaled.tdiv (2 ^ 1074)

/-- The bits of a natural number's double: nearest, ties to even. The carry out of the
    mantissa runs into the exponent field, which is the rounding up to the next binade. -/
def bitsOfNat (n : Nat) : Nat :=
  if n = 0 then 0
  else
    let e := Nat.log2 n
    if e ≤ 52 then (e + 1023) * 2 ^ 52 + (n * 2 ^ (52 - e) - 2 ^ 52)
    else
      let q := n / 2 ^ (e - 52)
      let rem := n % 2 ^ (e - 52)
      let half := 2 ^ (e - 53)
      let up := if half < rem ∨ (rem = half ∧ q % 2 = 1) then 1 else 0
      (e + 1023) * 2 ^ 52 + (q + up - 2 ^ 52)

/-- The double nearest to an integer (`as f64`). -/
def ofInt (n : Int) : F64 :=
  ⟨UInt64.ofNat (bitsOfNat n.natAbs + if n < 0 then 2 ^ 63 else 0)⟩

/-- A finite positive double divided by `2^k`, for results that stay normal: the exponent
    field drops by `k`. Zero stays zero. -/
def divPow2 (f : F64) (k : Nat) : F64 :=
  if f.bits = 0 then f else ⟨UInt64.ofNat (f.bits.toNat - k * 2 ^ 52)⟩

/-- The exact double of a narrower format with `eb` exponent and `mb` mantissa bits. A
    NaN keeps its payload and becomes quiet. -/
def widen (eb mb : Nat) (bits : Nat) : F64 :=
  let sign := bits / 2 ^ (eb + mb) % 2
  let e := bits / 2 ^ mb % 2 ^ eb
  let m := bits % 2 ^ mb
  let bias := 2 ^ (eb - 1) - 1
  let body :=
    if e = 2 ^ eb - 1 then
      2047 * 2 ^ 52 + (if m = 0 then 0 else m * 2 ^ (52 - mb) ||| 2 ^ 51)
    else if e = 0 then
      if m = 0 then 0
      else
        let k := Nat.log2 m
        (k + 1024 - bias - mb) * 2 ^ 52 + (m - 2 ^ k) * 2 ^ (52 - k)
    else (e + 1023 - bias) * 2 ^ 52 + m * 2 ^ (52 - mb)
  ⟨UInt64.ofNat (sign * 2 ^ 63 + body)⟩

def ofHalf (bits : UInt16) : F64 := widen 5 10 bits.toNat
def ofSingle (bits : UInt32) : F64 := widen 8 23 bits.toNat

-- 1.5, the smallest half subnormal, and the largest `u64`, which rounds up to `2^64`.
example : ofHalf 0x3E00 = ⟨0x3FF8000000000000⟩ ∧ ofHalf 1 = ⟨0x3E70000000000000⟩ ∧
    ofInt (2 ^ 64 - 1) = ⟨0x43F0000000000000⟩ := by decide

end F64
