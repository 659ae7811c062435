import Mathlib.Algebra.Group.Int.Defs
import Mathlib.Order.Basic

/-!
# 64-bit arithmetic that does not wrap

The checked and saturating operations on `Int64`, with their results as integers: a checked
result is the exact one, a saturated one the nearest in range.

Lean's operations wrap, as Rust's do in a release build without overflow checks. A model of code
that uses `checked_add` or `saturating_sub` says so with the operations from here, and a proof
about it goes over to integers at once, by one equation for each operation; there is no
reasoning about words of 64 bits elsewhere.
-/

set_option autoImplicit false

namespace Int64

/-- The number as an `Int64`, if it is one. -/
def ofInt? (n : Int) : Option Int64 :=
  if -2 ^ 63 ≤ n ∧ n < 2 ^ 63 then some (.ofInt n) else none

def checkedAdd (a b : Int64) : Option Int64 := ofInt? (a.toInt + b.toInt)
def checkedSub (a b : Int64) : Option Int64 := ofInt? (a.toInt - b.toInt)
def checkedMul (a b : Int64) : Option Int64 := ofInt? (a.toInt * b.toInt)

/-- The `Int64` nearest to a number. -/
def clampInt (n : Int) : Int64 :=
  if n < -2 ^ 63 then .minValue else if 2 ^ 63 ≤ n then .maxValue else .ofInt n

def saturatingSub (a b : Int64) : Int64 := clampInt (a.toInt - b.toInt)

theorem ofInt?_eq_some {n : Int} {a : Int64} : ofInt? n = some a ↔ a.toInt = n := by
  unfold ofInt?
  constructor
  · intro h
    split at h
    · rename_i hr
      rw [← Option.some.inj h]
      exact toInt_ofInt_of_le hr.1 hr.2
    · simp at h
  · rintro rfl
    rw [if_pos ⟨a.le_toInt, a.toInt_lt⟩, ofInt_toInt]

theorem ofInt?_eq_none {n : Int} : ofInt? n = none ↔ ¬(-2 ^ 63 ≤ n ∧ n < 2 ^ 63) := by
  unfold ofInt?
  split <;> simp_all

theorem checkedSub_eq_some {a b d : Int64} :
    checkedSub a b = some d ↔ d.toInt = a.toInt - b.toInt := ofInt?_eq_some

/-- A bound above the least `Int64` is reached after saturation as it was before. -/
theorem clampInt_lt {n : Int} {w : Int64} (hw : -2 ^ 63 < w.toInt) :
    (clampInt n).toInt < w.toInt ↔ n < w.toInt := by
  have hlt := w.toInt_lt
  unfold clampInt
  split
  · rw [show Int64.minValue.toInt = -2 ^ 63 from by decide]
    omega
  · split
    · rw [show Int64.maxValue.toInt = 2 ^ 63 - 1 from by decide]
      omega
    · rw [toInt_ofInt_of_le (by omega) (by omega)]

/-- A number that does not saturate below reaches any bound after saturation as before. -/
theorem clampInt_lt_of_le {n : Int} {w : Int64} (hn : -2 ^ 63 ≤ n) :
    (clampInt n).toInt < w.toInt ↔ n < w.toInt := by
  have hlt := w.toInt_lt
  unfold clampInt
  rw [if_neg (by omega)]
  split
  · rw [show Int64.maxValue.toInt = 2 ^ 63 - 1 from by decide]
    omega
  · rw [toInt_ofInt_of_le (by omega) (by omega)]

theorem saturatingSub_lt {a b w : Int64} (hw : -2 ^ 63 < w.toInt) :
    (saturatingSub a b).toInt < w.toInt ↔ a.toInt - b.toInt < w.toInt := clampInt_lt hw

end Int64
