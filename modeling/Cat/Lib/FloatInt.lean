import Cat.Lib.Ieee754
import Mathlib.Tactic.Ring
import Mathlib.Data.Nat.Log
import Mathlib.Algebra.Order.Group.Abs
import Mathlib.Algebra.Order.Ring.Abs

/-!
# Doubles that are integers

`F64.ofInt` rounds an integer to the nearest double. In the range of a 64-bit machine integer
the result is finite, integral and has the sign of the integer (`scaled_ofInt`), and a double
that is integral to begin with is the rounding of its own integer part (`ofInt_toInt`). Divided
by a power of two it keeps its digits (`divPow2_ofInt`).

Doubles are bits here, and all statements about their values are in integers: `scaled` is the
value in units of `2 ^ -1074`, the smallest step there is, so every finite double has one.
Comparison, integrality and sign are then about integers, and no real number is needed. The
price is that an exponent of 1074 stands in the statements; it is never computed with, but taken
apart as `52 + 1022` where a mantissa is shifted.

The bits of an integer are those of its binary logarithm and of the digits behind the first,
rounded. Rounding may carry into the exponent. `bitsOfNat_eq` has the carry in the mantissa,
which may be `2 ^ 52`, and says that the value is right all the same: a mantissa that is full
and the next exponent with an empty one spell the same number.

A program that mixes integers and doubles compares across the two. What it needs is here: that a
machine integer's double is ordinary, and that the comparisons of doubles are those of their
values.
-/

set_option autoImplicit false

namespace F64

/-! ## The fields of a double

Bits to exponent and mantissa, and from these to the multiple of the smallest subnormal.
-/

/-- The bits of a double, without the sign. -/
def magnitude (e m : Nat) : Nat := if e = 0 then m else (2 ^ 52 + m) * 2 ^ (e - 1)

theorem scaled_eq (f : F64) :
    f.scaled = if f.negative then -(magnitude f.exponent f.mantissa : Int)
      else (magnitude f.exponent f.mantissa : Int) := rfl

/-- A double put together from a sign, an exponent and a mantissa. -/
theorem fields_mk {e m s : Nat} (he : e < 2 ^ 11) (hm : m < 2 ^ 52) (hs : s < 2) :
    (⟨UInt64.ofNat (e * 2 ^ 52 + m + s * 2 ^ 63)⟩ : F64).exponent = e ∧
      (⟨UInt64.ofNat (e * 2 ^ 52 + m + s * 2 ^ 63)⟩ : F64).mantissa = m ∧
      (⟨UInt64.ofNat (e * 2 ^ 52 + m + s * 2 ^ 63)⟩ : F64).negative = (s == 1) := by
  have hb : (UInt64.ofNat (e * 2 ^ 52 + m + s * 2 ^ 63)).toNat = e * 2 ^ 52 + m + s * 2 ^ 63 := by
    rw [UInt64.toNat_ofNat_of_lt']
    show _ < 2 ^ 64
    omega
  unfold exponent mantissa negative
  rw [hb]
  refine ⟨by omega, by omega, ?_⟩
  rw [Bool.eq_iff_iff, decide_eq_true_iff, beq_iff_eq]
  omega

/-- And one taken apart. -/
theorem bits_eq (f : F64) : f.bits.toNat =
    f.exponent * 2 ^ 52 + f.mantissa + (if f.negative then 1 else 0) * 2 ^ 63 := by
  have h := f.bits.toNat_lt
  unfold exponent mantissa negative
  by_cases hn : 2 ^ 63 ≤ f.bits.toNat
  · rw [decide_eq_true hn, if_pos rfl]; omega
  · rw [decide_eq_false hn]; simp only [Bool.false_eq_true, if_false]; omega

theorem mantissa_lt (f : F64) : f.mantissa < 2 ^ 52 := Nat.mod_lt _ (by decide)
/-- A number, finite and not minus zero. -/
def Ordinary (f : F64) : Prop := f.isNan = false ∧ f.isInfinite = false ∧
  ¬(f.scaled = 0 ∧ f.negative = true)

/-! ## Rounding

A number of more than 53 bits is rounded, and the carry may run into the exponent. The bits of
the result, as a number, are what is computed with.
-/

/-- The natural number that `bitsOfNat` spells. -/
def roundNat (n : Nat) : Nat :=
  let e := Nat.log2 n
  if e ≤ 52 then n
  else
    let q := n / 2 ^ (e - 52)
    let rem := n % 2 ^ (e - 52)
    let half := 2 ^ (e - 53)
    let up := if half < rem ∨ (rem = half ∧ q % 2 = 1) then 1 else 0
    (q + up) * 2 ^ (e - 52)

/-- The bits of a natural number's double have its binary logarithm in the exponent, and a
    mantissa that may carry into it. -/
theorem bitsOfNat_eq {n : Nat} (hn : n ≠ 0) :
    ∃ m, m ≤ 2 ^ 52 ∧ bitsOfNat n = (Nat.log2 n + 1023) * 2 ^ 52 + m ∧
      (2 ^ 52 + m) * 2 ^ Nat.log2 n = roundNat n * 2 ^ 52 := by
  have hlo : 2 ^ Nat.log2 n ≤ n := Nat.log2_self_le hn
  have hhi : n < 2 ^ (Nat.log2 n + 1) := Nat.lt_log2_self
  unfold bitsOfNat roundNat
  rw [if_neg hn]
  generalize Nat.log2 n = e at hlo hhi
  dsimp only
  by_cases he : e ≤ 52
  · rw [if_pos he, if_pos he]
    have h52 : 2 ^ 52 = 2 ^ e * 2 ^ (52 - e) := by rw [← pow_add]; congr 1; omega
    have h53 : 2 ^ 53 = 2 ^ (e + 1) * 2 ^ (52 - e) := by rw [← pow_add]; congr 1; omega
    have hlo' : 2 ^ 52 ≤ n * 2 ^ (52 - e) := h52 ▸ Nat.mul_le_mul_right _ hlo
    have hhi' : n * 2 ^ (52 - e) < 2 ^ 53 :=
      h53 ▸ Nat.mul_lt_mul_of_pos_right hhi (Nat.pow_pos (by decide))
    refine ⟨n * 2 ^ (52 - e) - 2 ^ 52, by omega, rfl, ?_⟩
    rw [Nat.add_sub_cancel' hlo', Nat.mul_assoc, Nat.mul_comm _ (2 ^ e), ← h52]
  · rw [if_neg he, if_neg he]
    have hpos : 0 < 2 ^ (e - 52) := Nat.pow_pos (by decide)
    have h52 : 2 ^ e = 2 ^ 52 * 2 ^ (e - 52) := by rw [← pow_add]; congr 1; omega
    have h53 : 2 ^ (e + 1) = 2 ^ 53 * 2 ^ (e - 52) := by rw [← pow_add]; congr 1; omega
    have hlo' : 2 ^ 52 ≤ n / 2 ^ (e - 52) := (Nat.le_div_iff_mul_le hpos).mpr (h52 ▸ hlo)
    have hhi' : n / 2 ^ (e - 52) < 2 ^ 53 := (Nat.div_lt_iff_lt_mul hpos).mpr (h53 ▸ hhi)
    generalize hup : (if 2 ^ (e - 53) < n % 2 ^ (e - 52) ∨
      (n % 2 ^ (e - 52) = 2 ^ (e - 53) ∧ n / 2 ^ (e - 52) % 2 = 1) then 1 else 0) = up
    have hup1 : up ≤ 1 := by rw [← hup]; split <;> omega
    refine ⟨n / 2 ^ (e - 52) + up - 2 ^ 52, by omega, rfl, ?_⟩
    rw [Nat.add_sub_cancel' (by omega), h52]
    ring

theorem roundNat_pos {n : Nat} (hn : n ≠ 0) : 0 < roundNat n := by
  obtain ⟨m, -, -, hround⟩ := bitsOfNat_eq hn
  have hpos : 0 < (2 ^ 52 + m) * 2 ^ Nat.log2 n :=
    Nat.mul_pos (by omega) (Nat.pow_pos (by decide))
  rw [hround] at hpos
  exact Nat.pos_of_mul_pos_right hpos

/-- The value of the smallest double that is one, in the units of `scaled`. -/
theorem magnitude_integer {e m r : Nat} (h : (2 ^ 52 + m) * 2 ^ e = r * 2 ^ 52) :
    (2 ^ 52 + m) * 2 ^ (e + 1022) = r * 2 ^ 1074 := by
  calc (2 ^ 52 + m) * 2 ^ (e + 1022)
      = (2 ^ 52 + m) * 2 ^ e * 2 ^ 1022 := by rw [pow_add, Nat.mul_assoc]
    _ = r * (2 ^ 52 * 2 ^ 1022) := by rw [h, Nat.mul_assoc]
    _ = r * 2 ^ 1074 := by rw [← pow_add]

/-- The fields of an integer's double. The exponent is neither the one of small numbers nor the one
    of infinities, as the integer has fewer than 64 digits. -/
theorem fields_ofInt {n : Int} (hn : n.natAbs < 2 ^ 64) (h0 : n ≠ 0) :
    (ofInt n).exponent ≠ 0 ∧ (ofInt n).exponent ≠ 2047 ∧ (ofInt n).negative = decide (n < 0) ∧
      magnitude (ofInt n).exponent (ofInt n).mantissa = roundNat n.natAbs * 2 ^ 1074 := by
  have hne : n.natAbs ≠ 0 := Int.natAbs_ne_zero.mpr h0
  obtain ⟨m, hm, hbits, hround⟩ := bitsOfNat_eq hne
  have hlog : Nat.log2 n.natAbs < 64 := (Nat.log2_lt hne).mpr hn
  have hsign : (if n < 0 then 2 ^ 63 else 0) = (if n < 0 then 1 else 0) * 2 ^ 63 := by
    split <;> rfl
  have hs : (if n < 0 then 1 else 0) < 2 := by split <;> decide
  have hneg : ((if n < 0 then 1 else 0) == 1) = decide (n < 0) := by
    by_cases h : n < 0 <;> simp [h]
  unfold ofInt
  rw [hbits, hsign]
  generalize Nat.log2 n.natAbs = e at hlog hround
  rcases Nat.lt_or_eq_of_le hm with hlt | rfl
  · obtain ⟨he, hm', hn'⟩ := fields_mk (e := e + 1023) (m := m) (by omega) hlt hs
    rw [he, hm', hn', hneg]
    refine ⟨by omega, by omega, rfl, ?_⟩
    rw [magnitude, if_neg (by omega)]
    exact magnitude_integer hround
  · -- the mantissa overflows into the exponent
    have hcarry : (e + 1023) * 2 ^ 52 + 2 ^ 52 = (e + 1024) * 2 ^ 52 + 0 := by omega
    rw [hcarry]
    obtain ⟨he, hm', hn'⟩ := fields_mk (e := e + 1024) (m := 0) (by omega) (by decide) hs
    rw [he, hm', hn', hneg]
    refine ⟨by omega, by omega, rfl, ?_⟩
    rw [magnitude, if_neg (by omega)]
    refine magnitude_integer (e := e + 1) (m := 0) ?_
    rw [← hround]
    ring

/-- **An integer's double is the rounded integer.** -/
theorem scaled_ofInt {n : Int} (hn : n.natAbs < 2 ^ 64) :
    (ofInt n).scaled = n.sign * roundNat n.natAbs * 2 ^ 1074 := by
  by_cases h0 : n = 0
  · subst h0
    rw [Int.sign_zero, Int.zero_mul, Int.zero_mul]
    rfl
  · obtain ⟨-, -, hneg, hmag⟩ := fields_ofInt hn h0
    rw [scaled_eq, hneg, hmag, Int.natCast_mul, Int.natCast_pow]
    by_cases hlt : n < 0
    · rw [decide_eq_true hlt, if_pos rfl, Int.sign_eq_neg_one_of_neg hlt]
      rw [Int.neg_mul, Int.one_mul, Int.neg_mul]
      rfl
    · rw [decide_eq_false hlt, Int.sign_eq_one_of_pos (by omega), Int.one_mul]
      rfl

/-- The double of a machine integer is a finite whole number. -/
theorem isFinite_ofInt {n : Int} (hn : n.natAbs < 2 ^ 64) : (ofInt n).isFinite = true := by
  by_cases h0 : n = 0
  · subst h0; decide
  · rw [isFinite, bne_iff_ne]
    exact (fields_ofInt hn h0).2.1

theorem isIntegral_ofInt {n : Int} (hn : n.natAbs < 2 ^ 64) : (ofInt n).isIntegral = true := by
  rw [isIntegral, isFinite_ofInt hn, scaled_ofInt hn, Int.mul_emod_left]
  simp

theorem two_pow_pos (k : Nat) : (0 : Int) < 2 ^ k := Int.pow_pos (by decide)

/-- No integer is minus zero. -/
theorem scaled_ofInt_ne_zero {n : Int} (hn : n.natAbs < 2 ^ 64) (h0 : n ≠ 0) :
    (ofInt n).scaled ≠ 0 := by
  have hpos := roundNat_pos (Int.natAbs_ne_zero.mpr h0)
  rw [scaled_ofInt hn]
  refine Int.mul_ne_zero (Int.mul_ne_zero ?_ (by omega)) (Int.ne_of_gt (two_pow_pos _))
  exact fun h => h0 (Int.sign_eq_zero_iff_zero.mp h)

theorem isNan_of_isFinite {f : F64} (h : f.isFinite = true) : f.isNan = false := by
  rw [isFinite, bne_iff_ne] at h
  rw [isNan, beq_false_of_ne h]
  rfl

theorem isInfinite_of_isFinite {f : F64} (h : f.isFinite = true) : f.isInfinite = false := by
  rw [isFinite, bne_iff_ne] at h
  rw [isInfinite, beq_false_of_ne h]
  rfl

/-- **A machine integer's double is ordinary.** -/
theorem ordinary_ofInt {n : Int} (hn : n.natAbs < 2 ^ 64) : (ofInt n).Ordinary := by
  have hfin := isFinite_ofInt hn
  refine ⟨isNan_of_isFinite hfin, isInfinite_of_isFinite hfin, ?_⟩
  rintro ⟨hzero, hneg⟩
  by_cases h0 : n = 0
  · subst h0; exact absurd hneg (by decide)
  · exact scaled_ofInt_ne_zero hn h0 hzero

/-! ## Comparisons

Rounding does not turn an order around, so comparing rounded numbers errs only by equality.
-/

theorem fields_abs (f : F64) :
    f.abs.exponent = f.exponent ∧ f.abs.mantissa = f.mantissa ∧ f.abs.negative = false := by
  have hb : f.abs.bits.toNat = f.bits.toNat % 2 ^ 63 := by
    rw [abs, UInt64.toNat_ofNat_of_lt']
    show _ < 2 ^ 64
    omega
  unfold exponent mantissa negative
  rw [hb]
  refine ⟨by omega, by omega, decide_eq_false ?_⟩
  omega

theorem isNan_abs (f : F64) : f.abs.isNan = f.isNan := by
  obtain ⟨he, hm, -⟩ := fields_abs f
  rw [isNan, isNan, he, hm]

theorem scaled_abs (f : F64) : f.abs.scaled = |f.scaled| := by
  obtain ⟨he, hm, hn⟩ := fields_abs f
  rw [scaled_eq, scaled_eq, he, hm, hn, if_neg Bool.false_ne_true]
  split
  · rw [abs_neg, abs_of_nonneg (by omega)]
  · rw [abs_of_nonneg (by omega)]

theorem isNan_ofInt {n : Int} (hn : n.natAbs < 2 ^ 64) : (ofInt n).isNan = false :=
  isNan_of_isFinite (isFinite_ofInt hn)

theorem scaled_ofInt_neg_eq {n : Int} (hn : n.natAbs < 2 ^ 64) :
    (ofInt (-n)).scaled = -(ofInt n).scaled := by
  rw [scaled_ofInt (by rwa [Int.natAbs_neg]), scaled_ofInt hn, Int.natAbs_neg, Int.sign_neg,
    Int.neg_mul, Int.neg_mul]

/-- Comparison of doubles is that of their values. NaN has to be excluded: it compares with nothing.
    -/
theorem le_eq_true {a b : F64} (ha : a.isNan = false) (hb : b.isNan = false) :
    le a b = true ↔ a.scaled ≤ b.scaled := by
  simp [le, ha, hb]

theorem lt_eq_true {a b : F64} (ha : a.isNan = false) (hb : b.isNan = false) :
    lt a b = true ↔ a.scaled < b.scaled := by
  simp [lt, ha, hb]

theorem lt_eq_false {a b : F64} (ha : a.isNan = false) (hb : b.isNan = false) :
    lt a b = false ↔ b.scaled ≤ a.scaled := by
  rw [← Bool.not_eq_true, lt_eq_true ha hb, not_lt]

theorem le_eq_false {a b : F64} (ha : a.isNan = false) (hb : b.isNan = false) :
    le a b = false ↔ b.scaled < a.scaled := by
  rw [← Bool.not_eq_true, le_eq_true ha hb, not_le]

/-- A double whose magnitude is bounded lies between the bounds. -/
theorem between_of_abs {f : F64} {n : Int} (hn : n.natAbs < 2 ^ 64) (hf : f.isNan = false)
    (h : lt (ofInt n) f.abs = false) : le (ofInt (-n)) f = true ∧ le f (ofInt n) = true := by
  have hn' : (-n).natAbs < 2 ^ 64 := by rwa [Int.natAbs_neg]
  rw [lt_eq_false (isNan_ofInt hn) (by rw [isNan_abs, hf]), scaled_abs, abs_le] at h
  rw [le_eq_true (isNan_ofInt hn') hf, le_eq_true hf (isNan_ofInt hn), scaled_ofInt_neg_eq hn]
  exact h

/-- And one between the bounds has a bounded magnitude. -/
theorem abs_of_between {f : F64} {n : Int} (hn : n.natAbs < 2 ^ 64) (hf : f.isNan = false)
    (hlo : lt f (ofInt (-n)) = false) (hhi : lt (ofInt n) f = false) : lt (ofInt n) f.abs = false := by
  have hn' : (-n).natAbs < 2 ^ 64 := by rwa [Int.natAbs_neg]
  rw [lt_eq_false hf (isNan_ofInt hn'), scaled_ofInt_neg_eq hn] at hlo
  rw [lt_eq_false (isNan_ofInt hn) hf] at hhi
  rw [lt_eq_false (isNan_ofInt hn) (by rw [isNan_abs, hf]), scaled_abs, abs_le]
  exact ⟨hlo, hhi⟩

theorem Ordinary.isFinite {f : F64} (h : f.Ordinary) : f.isFinite = true := by
  obtain ⟨hnan, hinf, -⟩ := h
  rw [isNan] at hnan
  rw [isInfinite] at hinf
  rw [F64.isFinite, bne_iff_ne]
  intro he
  rw [he] at hnan hinf
  simp only [beq_self_eq_true, Bool.true_and, bne_eq_false_iff_eq] at hnan
  rw [hnan] at hinf
  exact absurd hinf (by decide)

theorem Ordinary.le_zero_iff {f : F64} (h : f.Ordinary) :
    le (ofInt 0) f = true ↔ lt f (ofInt 0) = false := by
  rw [le_eq_true (by decide) h.1, lt_eq_false h.1 (by decide)]

theorem Ordinary.pos_iff {f : F64} (h : f.Ordinary) :
    lt (ofInt 0) f = true ↔ le f (ofInt 0) = false := by
  rw [lt_eq_true (by decide) h.1, le_eq_false h.1 (by decide)]

/-! ## Whole numbers

What is an integer comes back from its double, up to 53 bits of it and beyond where the rest are
zeros.
-/

/-- A mantissa shifted to the left is not rounded: it has no more than 53 digits. -/
theorem roundNat_shifted {N m e : Nat} (hm : m < 2 ^ 52) (h : (2 ^ 52 + m) * 2 ^ e = N * 2 ^ 52) :
    Nat.log2 N = e ∧ roundNat N = N := by
  have hpos : 0 < 2 ^ e := Nat.pow_pos (by decide)
  have hlo : 2 ^ e ≤ N := by
    refine Nat.le_of_mul_le_mul_right ?_ (by decide : 0 < 2 ^ 52)
    rw [← h, Nat.mul_comm]
    exact Nat.mul_le_mul_right _ (Nat.le_add_right _ _)
  have hhi : N < 2 ^ (e + 1) := by
    refine Nat.lt_of_mul_lt_mul_right (a := 2 ^ 52) ?_
    calc N * 2 ^ 52 = (2 ^ 52 + m) * 2 ^ e := h.symm
      _ < 2 ^ 53 * 2 ^ e := Nat.mul_lt_mul_of_pos_right (by omega) hpos
      _ = 2 ^ (e + 1) * 2 ^ 52 := by rw [← pow_add, ← pow_add]; congr 1; omega
  have hne : N ≠ 0 := by omega
  have hlog : Nat.log2 N = e := (Nat.log2_eq_iff hne).mpr ⟨hlo, hhi⟩
  refine ⟨hlog, ?_⟩
  unfold roundNat
  rw [hlog]
  dsimp only
  split
  · rfl
  · rename_i he
    have hN : N = (2 ^ 52 + m) * 2 ^ (e - 52) := by
      refine Nat.eq_of_mul_eq_mul_right (by decide : 0 < 2 ^ 52) ?_
      rw [← h, Nat.mul_assoc, ← pow_add]
      congr 2
      omega
    have hdiv : N / 2 ^ (e - 52) = 2 ^ 52 + m := by
      rw [hN, Nat.mul_div_cancel _ (Nat.pow_pos (by decide))]
    have hmod : N % 2 ^ (e - 52) = 0 := by rw [hN, Nat.mul_mod_left]
    have hhalf : 0 < 2 ^ (e - 53) := Nat.pow_pos (by decide)
    rw [hdiv, hmod, if_neg (by omega), Nat.add_zero, ← hN]

theorem bitsOfNat_shifted {N m e : Nat} (hm : m < 2 ^ 52)
    (h : (2 ^ 52 + m) * 2 ^ e = N * 2 ^ 52) : bitsOfNat N = (e + 1023) * 2 ^ 52 + m := by
  obtain ⟨hlog, hround⟩ := roundNat_shifted hm h
  have hne : N ≠ 0 := by
    rintro rfl
    have hpos : 0 < (2 ^ 52 + m) * 2 ^ e := Nat.mul_pos (by omega) (Nat.pow_pos (by decide))
    rw [h, Nat.zero_mul] at hpos
    exact Nat.lt_irrefl 0 hpos
  obtain ⟨m', -, hbits, hshift⟩ := bitsOfNat_eq hne
  rw [hlog, hround, ← h] at hshift
  have hm' : m' = m :=
    Nat.add_left_cancel (Nat.eq_of_mul_eq_mul_right (Nat.pow_pos (by decide)) hshift)
  rw [hbits, hlog, hm']

/-- The magnitude of a double that is a whole number, not zero, in units of `2 ^ -(52 + k)`. -/
theorem magnitude_whole {e m N k t : Nat} (ht : t = 52 + k) (hm : m < 2 ^ 52) (hN : N ≠ 0)
    (h : magnitude e m = N * 2 ^ t) :
    k < e ∧ (2 ^ 52 + m) * 2 ^ (e - (k + 1)) = N * 2 ^ 52 := by
  subst ht
  have hpos : 0 < N := Nat.pos_of_ne_zero hN
  have hbig : 2 ^ (52 + k) ≤ N * 2 ^ (52 + k) := Nat.le_mul_of_pos_left _ hpos
  have he : e ≠ 0 := by
    rintro rfl
    rw [magnitude, if_pos rfl] at h
    have : 2 ^ 52 ≤ 2 ^ (52 + k) := Nat.pow_le_pow_right (by decide) (Nat.le_add_right _ _)
    omega
  rw [magnitude, if_neg he] at h
  have hlt : k < e := by
    by_contra hle
    have h1 : (2 ^ 52 + m) * 2 ^ (e - 1) < 2 ^ 53 * 2 ^ (e - 1) :=
      Nat.mul_lt_mul_of_pos_right (by omega) (Nat.pow_pos (by decide))
    have h2 : 2 ^ 53 * 2 ^ (e - 1) ≤ 2 ^ (52 + k) := by
      rw [← pow_add]
      exact Nat.pow_le_pow_right (by decide) (by omega)
    omega
  refine ⟨hlt, Nat.eq_of_mul_eq_mul_right (Nat.pow_pos (n := k) (by decide : 0 < 2)) ?_⟩
  rw [Nat.mul_assoc, ← pow_add, Nat.mul_assoc, ← pow_add, ← h]
  congr 2
  omega

theorem natAbs_mul_two_pow (n : Int) (k : Nat) : (n * 2 ^ k).natAbs = n.natAbs * 2 ^ k := by
  rw [Int.natAbs_mul, Int.natAbs_pow]
  rfl

theorem magnitude_eq_zero {e m : Nat} (h : magnitude e m = 0) : e = 0 ∧ m = 0 := by
  unfold magnitude at h
  by_cases he : e = 0
  · rw [if_pos he] at h
    exact ⟨he, h⟩
  · rw [if_neg he] at h
    have hpos : 0 < (2 ^ 52 + m) * 2 ^ (e - 1) := Nat.mul_pos (by omega) (Nat.pow_pos (by decide))
    rw [h] at hpos
    exact absurd hpos (Nat.lt_irrefl 0)

/-- The value without its sign is the magnitude. -/
theorem natAbs_scaled (f : F64) : f.scaled.natAbs = magnitude f.exponent f.mantissa := by
  rw [scaled_eq]
  split
  · rw [Int.natAbs_neg, Int.natAbs_natCast]
  · rw [Int.natAbs_natCast]

/-- The sign of an ordinary double is that of its value. -/
theorem Ordinary.negative_iff {f : F64} (hf : f.Ordinary) : f.negative = true ↔ f.scaled < 0 := by
  constructor
  · intro hn
    have hne : f.scaled ≠ 0 := fun h0 => hf.2.2 ⟨h0, hn⟩
    have heq := f.scaled_eq
    rw [if_pos hn] at heq
    omega
  · intro hlt
    by_contra hn
    have heq := f.scaled_eq
    rw [if_neg hn] at heq
    omega

theorem scaled_eq_toInt {f : F64} (hf : f.Ordinary) (hint : f.isIntegral = true) :
    f.scaled = f.toInt * 2 ^ 1074 := by
  have hwhole : f.scaled % 2 ^ 1074 = 0 := by
    rw [isIntegral, hf.2.1, hf.isFinite, Bool.false_or, Bool.true_and] at hint
    exact beq_iff_eq.mp hint
  have hdvd := Int.dvd_of_emod_eq_zero hwhole
  rw [toInt, Int.tdiv_eq_ediv_of_dvd hdvd, Int.ediv_mul_cancel hdvd]

/-- **A double that is a whole number is that number's double.** -/
theorem ofInt_toInt {f : F64} (hf : f.Ordinary) (hint : f.isIntegral = true) :
    ofInt f.toInt = f := by
  have hscaled := scaled_eq_toInt hf hint
  have hmag : magnitude f.exponent f.mantissa = f.toInt.natAbs * 2 ^ 1074 := by
    rw [← natAbs_scaled, hscaled]
    exact natAbs_mul_two_pow _ _
  have hbits : bitsOfNat f.toInt.natAbs = f.exponent * 2 ^ 52 + f.mantissa := by
    by_cases h0 : f.toInt.natAbs = 0
    · rw [h0, Nat.zero_mul] at hmag
      obtain ⟨he, hm⟩ := magnitude_eq_zero hmag
      rw [h0, he, hm]
      rfl
    · have hunit : 1074 = 52 + 1022 := rfl
      obtain ⟨he, hshift⟩ := magnitude_whole hunit f.mantissa_lt h0 hmag
      have hexp : f.exponent - (1022 + 1) + 1023 = f.exponent := Nat.sub_add_cancel he
      rw [bitsOfNat_shifted f.mantissa_lt hshift, hexp]
  have hneg : f.toInt < 0 ↔ f.negative = true := by
    rw [hf.negative_iff, hscaled]
    constructor
    · intro hlt
      exact Int.mul_neg_of_neg_of_pos hlt (two_pow_pos _)
    · intro hlt
      by_contra hge
      exact absurd hlt (not_lt.mpr (Int.mul_nonneg (not_lt.mp hge) (Int.le_of_lt (two_pow_pos _))))
  have hsign : (if f.toInt < 0 then 2 ^ 63 else 0) = (if f.negative then 1 else 0) * 2 ^ 63 := by
    by_cases hn : f.negative = true
    · rw [if_pos (hneg.mpr hn), if_pos hn]
      rfl
    · rw [if_neg fun h => hn (hneg.mp h), if_neg hn]
      rfl
  unfold ofInt
  rw [hbits, hsign, ← bits_eq, UInt64.ofNat_toNat]

/-- A whole number below `2 ^ 63` either way is a machine integer. -/
theorem toInt_of_lt {f : F64} (hf : f.Ordinary) (hint : f.isIntegral = true)
    (h : lt f.abs (ofInt (2 ^ 63 - 1)) = true) : -2 ^ 63 < f.toInt ∧ f.toInt < 2 ^ 63 := by
  have hround : roundNat (2 ^ 63 - 1) = 2 ^ 63 := by decide
  have hmax : (ofInt (2 ^ 63 - 1)).scaled = 2 ^ 63 * 2 ^ 1074 := by
    rw [scaled_ofInt (by decide)]
    show (1 * ((roundNat (2 ^ 63 - 1) : Nat) : Int)) * 2 ^ 1074 = _
    rw [hround, Int.one_mul]
    rfl
  rw [lt_eq_true (by rw [isNan_abs]; exact hf.1) (isNan_ofInt (by decide)), hmax, scaled_abs,
    scaled_eq_toInt hf hint, abs_mul, abs_of_pos (two_pow_pos _)] at h
  have habs : |f.toInt| < 2 ^ 63 := lt_of_mul_lt_mul_right h (Int.le_of_lt (two_pow_pos _))
  exact abs_lt.mp habs

/-! ## Fractions of a power of two

Division by a power of two changes the exponent and nothing else, as long as the result is
normal.
-/

/-- Dividing by a power of two takes it off the exponent, as long as the result is normal. -/
theorem divPow2_ofInt {n k : Nat} (hn : n < 2 ^ 64) (hk : k ≤ 1022) :
    ((ofInt n).divPow2 k).isNan = false ∧
      ((ofInt n).divPow2 k).scaled = roundNat n * 2 ^ (1074 - k) := by
  by_cases h0 : n = 0
  · subst h0
    rw [show (ofInt ((0 : Nat) : Int)).divPow2 k = ofInt 0 from if_pos rfl]
    refine ⟨by decide, ?_⟩
    rw [show roundNat 0 = 0 from rfl, Int.natCast_zero, Int.zero_mul]
    rfl
  · obtain ⟨m, hm, hbits, hround⟩ := bitsOfNat_eq h0
    have hlog : Nat.log2 n < 64 := (Nat.log2_lt h0).mpr hn
    have hofInt : (ofInt n).bits.toNat = bitsOfNat n := by
      show (UInt64.ofNat (bitsOfNat n + 0)).toNat = _
      rw [UInt64.toNat_ofNat_of_lt']
      · rfl
      · show _ < 2 ^ 64
        rw [hbits]
        omega
    have hne : ¬(ofInt n).bits = 0 := by
      intro hzero
      rw [hzero] at hofInt
      rw [hbits] at hofInt
      simp at hofInt
      omega
    -- Dividing by a power of two lowers the exponent field and leaves the mantissa.
    have hdiv : (ofInt n).divPow2 k =
        ⟨UInt64.ofNat ((Nat.log2 n + (1023 - k)) * 2 ^ 52 + m + 0 * 2 ^ 63)⟩ := by
      rw [divPow2, if_neg hne, hofInt, hbits]
      congr 2
      omega
    rw [hdiv]
    generalize Nat.log2 n = e at hlog hround
    have hmag : (2 ^ 52 + m) * 2 ^ (e + (1022 - k)) = roundNat n * 2 ^ (1074 - k) := by
      rw [pow_add, ← Nat.mul_assoc, hround, Nat.mul_assoc, ← pow_add]
      congr 2
      omega
    have hvalue {e' m' : Nat} (he' : e' < 2047) (h0' : e' ≠ 0) (hm' : m' < 2 ^ 52)
        (h : magnitude e' m' = roundNat n * 2 ^ (1074 - k)) :
        (⟨UInt64.ofNat (e' * 2 ^ 52 + m' + 0 * 2 ^ 63)⟩ : F64).isNan = false ∧
          (⟨UInt64.ofNat (e' * 2 ^ 52 + m' + 0 * 2 ^ 63)⟩ : F64).scaled =
            roundNat n * 2 ^ (1074 - k) := by
      obtain ⟨he, hmant, hneg⟩ := fields_mk (Nat.lt_succ_of_lt he') hm' (Nat.zero_lt_two)
      refine ⟨?_, ?_⟩
      · rw [isNan, he, beq_false_of_ne (Nat.ne_of_lt he')]
        rfl
      · rw [scaled_eq, he, hmant, hneg, h, Int.natCast_mul, Int.natCast_pow]
        rfl
    rcases Nat.lt_or_eq_of_le hm with hlt | rfl
    · apply hvalue (by omega) (by omega) hlt
      rw [magnitude, if_neg (by omega), ← hmag]
      congr 2
      omega
    · -- the mantissa overflows into the exponent
      have hcarry : (e + (1023 - k)) * 2 ^ 52 + 2 ^ 52 = (e + (1024 - k)) * 2 ^ 52 + 0 := by omega
      rw [hcarry]
      apply hvalue (by omega) (by omega) (by decide)
      rw [magnitude, if_neg (by omega), ← hmag, ← Nat.two_mul, Nat.add_zero, Nat.mul_comm 2,
        Nat.mul_assoc, ← Nat.pow_succ']
      congr 2
      omega

/-- Rounding stays below `2 ^ 64` up to the last half step. -/
theorem roundNat_lt_iff {n : Nat} (hn : n < 2 ^ 64) :
    roundNat n < 2 ^ 64 ↔ n < 2 ^ 64 - 1024 := by
  by_cases h0 : n = 0
  · subst h0
    decide
  · have hhi : n < 2 ^ (Nat.log2 n + 1) := Nat.lt_log2_self
    have hlog : Nat.log2 n < 64 := (Nat.log2_lt h0).mpr hn
    by_cases htop : Nat.log2 n = 63
    · -- the spacing of the doubles is 2048 here
      have hlo : 2 ^ 63 ≤ n := htop ▸ Nat.log2_self_le h0
      unfold roundNat
      rw [htop]
      dsimp only
      split
      · omega
      · split
        · omega
        · omega
    · obtain ⟨m, hm, -, hround⟩ := bitsOfNat_eq h0
      have hbound : roundNat n * 2 ^ 52 ≤ 2 ^ 53 * 2 ^ 62 := by
        rw [← hround]
        apply Nat.mul_le_mul
        · omega
        · exact Nat.pow_le_pow_right (by decide) (by omega)
      have hsmall : n < 2 ^ 63 :=
        Nat.lt_of_lt_of_le hhi (Nat.pow_le_pow_right (by decide) (by omega))
      omega

end F64
