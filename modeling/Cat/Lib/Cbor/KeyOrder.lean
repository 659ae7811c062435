import Cat.Lib.Cbor.Maps

/-!
# The order of integer encodings

Deterministic encoding (§4.2.1) sorts the keys of a map by the bytes of their encodings. For
integers nobody has to write those bytes: the shortest heads of one major type sort as their
arguments do (`compare_head_ofNat`), so the encodings sort by `Integer.rank`.

The shortest head of a larger argument is never shorter, and its first byte is larger where the
widths differ; where they do not, the bytes are a number in network order, and byte strings of
one length sort as the numbers they spell. The major type comes in the upper bits of the first
byte, so an integer that is not negative sorts before one that is.

A program that compares keys by their numbers is right if it compares ranks, and this is how it
is shown to be.
-/

set_option autoImplicit false

/-- Comparisons agree that agree on what is less, both ways round. -/
theorem compare_congr {α β : Type} [LinearOrder α] [LinearOrder β] {a b : α} {c d : β}
    (hlt : a < b ↔ c < d) (hgt : b < a ↔ d < c) : compare a b = compare c d := by
  rcases lt_trichotomy a b with h | h | h
  · rw [compare_lt_iff_lt.mpr h, compare_lt_iff_lt.mpr (hlt.mp h)]
  · have heq : c = d := by
      apply le_antisymm
      · exact not_lt.mp fun hdc => (hgt.mpr hdc).ne' h
      · exact not_lt.mp fun hcd => (hlt.mpr hcd).ne h
    rw [compare_eq_iff_eq.mpr h, compare_eq_iff_eq.mpr heq]
  · rw [compare_gt_iff_gt.mpr h, compare_gt_iff_gt.mpr (hgt.mp h)]

namespace BigEndian

/-- Quotients first, then remainders. -/
theorem compare_divMod (d m n : Nat) :
    (compare (m / d) (n / d)).then (compare (m % d) (n % d)) = compare m n := by
  rcases Nat.lt_trichotomy (m / d) (n / d) with hlt | heq | hgt
  · rw [compare_lt_iff_lt.mpr hlt, compare_lt_iff_lt.mpr (Nat.lt_of_div_lt_div hlt)]
    rfl
  · have hm := Nat.div_add_mod m d
    have hn := Nat.div_add_mod n d
    rw [heq] at hm
    rw [compare_eq_iff_eq.mpr heq, Ordering.eq_then]
    apply compare_congr
    · omega
    · omega
  · rw [compare_gt_iff_gt.mpr hgt, compare_gt_iff_gt.mpr (Nat.lt_of_div_lt_div hgt)]
    rfl

/-- **Byte strings of one length sort as the numbers they spell.** -/
theorem compare_ofNat {w m n : Nat} (hm : m < 256 ^ w) (hn : n < 256 ^ w) :
    compare (ofNat w m) (ofNat w n) = compare m n := by
  induction w generalizing m n with
  | zero =>
    obtain rfl := Nat.lt_one_iff.mp hm
    obtain rfl := Nat.lt_one_iff.mp hn
    rfl
  | succ w ih =>
    have hpos : 0 < 256 ^ w := Nat.pow_pos (by decide)
    have hhigh : ∀ n < 256 ^ (w + 1), (UInt8.ofNat (n / 256 ^ w)).toNat = n / 256 ^ w := by
      intro n hn
      exact UInt8.toNat_ofNat_of_lt' (Nat.div_lt_of_lt_mul (by rwa [← pow_succ]))
    have hlow : ∀ n, ofNat w n = ofNat w (n % 256 ^ w) := by
      intro n
      conv_lhs => rw [← Nat.div_add_mod' n (256 ^ w)]
      exact ofNat_add_mul w (n / 256 ^ w) (n % 256 ^ w)
    rw [ofNat, ofNat, List.compare_cons_cons, UInt8.compare_eq_toNat_compare_toNat, hhigh m hm,
      hhigh n hn, hlow m, hlow n, ih (Nat.mod_lt m hpos) (Nat.mod_lt n hpos), compare_divMod]

end BigEndian

namespace Cbor

/-- How the shortest argument of a number is spelt: in the initial byte, or else in the
    fewest bytes that hold it. -/
theorem Arg.ofNat_form {n : Nat} (h : n < 2 ^ 64) :
    (n < 24 ∧ (Arg.ofNat n).ai = n ∧ (Arg.ofNat n).tail = []) ∨
      ∃ k, (Arg.ofNat n).ai = 24 + k ∧ (Arg.ofNat n).tail = BigEndian.ofNat (2 ^ k) n ∧
        n < 256 ^ 2 ^ k ∧ 24 ≤ n ∧ (0 < k → 256 ^ 2 ^ (k - 1) ≤ n) := by
  unfold Arg.ofNat
  split
  · rename_i h0
    exact .inl ⟨h0, rfl, rfl⟩
  rename_i h0
  right
  split
  · rename_i h1
    refine ⟨0, rfl, ?_, h1, Nat.not_lt.mp h0, fun h => absurd h (Nat.lt_irrefl 0)⟩
    rw [Arg.tail, UInt8.toNat_ofNat_of_lt' h1]
    rfl
  rename_i h1
  split
  · rename_i h2
    refine ⟨1, rfl, ?_, h2, Nat.not_lt.mp h0, fun _ => Nat.not_lt.mp h1⟩
    rw [Arg.tail, UInt16.toNat_ofNat_of_lt' h2]
    rfl
  rename_i h2
  split
  · rename_i h3
    refine ⟨2, rfl, ?_, h3, Nat.not_lt.mp h0, fun _ => Nat.not_lt.mp h2⟩
    rw [Arg.tail, UInt32.toNat_ofNat_of_lt' h3]
    rfl
  · rename_i h3
    refine ⟨3, rfl, ?_, h, Nat.not_lt.mp h0, fun _ => Nat.not_lt.mp h3⟩
    rw [Arg.tail, UInt64.toNat_ofNat_of_lt' h]
    rfl

/-- A larger number has a longer argument, or one of the same length that sorts later. -/
theorem Arg.ofNat_lt {m n : Nat} (hlt : m < n) (hn : n < 2 ^ 64) :
    (Arg.ofNat m).ai < (Arg.ofNat n).ai ∨ (Arg.ofNat m).ai = (Arg.ofNat n).ai ∧
      compare (Arg.ofNat m).tail (Arg.ofNat n).tail = .lt := by
  rcases Arg.ofNat_form (hlt.trans hn) with ⟨hm24, hai, -⟩ | ⟨k, hai, htail, hmlt, hm24, hwide⟩
  · rcases Arg.ofNat_form hn with ⟨-, hai', -⟩ | ⟨k', hai', -⟩
    · left
      omega
    · left
      omega
  · rcases Arg.ofNat_form hn with ⟨hn24, -⟩ | ⟨k', hai', htail', hnlt, -⟩
    · omega
    · rcases Nat.lt_trichotomy k k' with hk | rfl | hk
      · left
        omega
      · right
        rw [hai, hai', htail, htail', BigEndian.compare_ofNat hmlt hnlt]
        exact ⟨rfl, compare_lt_iff_lt.mpr hlt⟩
      · have hle : 256 ^ 2 ^ k' ≤ 256 ^ 2 ^ (k - 1) :=
          Nat.pow_le_pow_right (by decide) (Nat.pow_le_pow_right (by decide) (by omega))
        have := hwide (by omega)
        omega

/-- Heads sort by major type, then by the width of the argument, then by the argument. -/
theorem compare_head {major major' : Nat} (h : major < 8) (h' : major' < 8) (a b : Arg) :
    compare (head major a) (head major' b) =
      (compare (major * 32 + a.ai) (major' * 32 + b.ai)).then (compare a.tail b.tail) := by
  have hinitial : ∀ (major : Nat) (a : Arg), major < 8 →
      (initial major a.ai).toNat = major * 32 + a.ai := by
    intro major a hmajor
    have ha := a.ai_lt
    rw [initial, UInt8.toNat_ofNat']
    omega
  rw [head, head, List.compare_cons_cons, UInt8.compare_eq_toNat_compare_toNat,
    hinitial major a h, hinitial major' b h']

theorem compare_head_lt {major : Nat} (hmajor : major < 8) {m n : Nat} (hlt : m < n)
    (hn : n < 2 ^ 64) : compare (head major (.ofNat m)) (head major (.ofNat n)) = .lt := by
  rw [compare_head hmajor hmajor]
  rcases Arg.ofNat_lt hlt hn with hai | ⟨hai, htail⟩
  · rw [compare_lt_iff_lt.mpr (Nat.add_lt_add_left hai _)]
    rfl
  · rw [hai, compare_eq_iff_eq.mpr rfl, htail]
    rfl

/-- **Shortest heads of one major type sort as their arguments.** -/
theorem compare_head_ofNat {major : Nat} (hmajor : major < 8) {m n : Nat} (hm : m < 2 ^ 64)
    (hn : n < 2 ^ 64) :
    compare (head major (.ofNat m)) (head major (.ofNat n)) = compare m n := by
  rcases Nat.lt_trichotomy m n with hlt | rfl | hgt
  · rw [compare_head_lt hmajor hlt hn, compare_lt_iff_lt.mpr hlt]
  · rw [compare_eq_iff_eq.mpr rfl]
    exact Std.ReflCmp.compare_self
  · rw [compare_gt_iff_gt.mpr hgt]
    exact Std.OrientedCmp.gt_of_lt (compare_head_lt hmajor hgt hm)

/-- A head of a lower major type sorts before one of a higher. -/
theorem compare_head_major {major major' : Nat} (hlt : major < major') (h : major' < 8)
    (a b : Arg) : compare (head major a) (head major' b) = .lt := by
  have ha := a.ai_lt
  rw [compare_head (hlt.trans h) h, compare_lt_iff_lt.mpr (by omega)]
  rfl

/-! ## Integers -/

/-- The preferred serialization of an integer. -/
def Integer.wire (i : Integer) : Bytes :=
  if 0 ≤ i.val then head 0 (.ofNat i.val.toNat) else head 1 (.ofNat (-1 - i.val).toNat)

theorem Integer.wire_of_writtenAs {i : Integer} {x : Item} (h : (Value.integer i).WrittenAs x) :
    x.wire = i.wire := by
  rw [Value.WrittenAs] at h
  rw [h, wire]
  split
  · rfl
  · rfl

/-- **Encodings sort by rank.** -/
theorem Integer.compare_wire (i j : Integer) :
    compare i.wire j.wire = compare i.rank j.rank := by
  have hi := i.lo
  have hi' := i.hi
  have hj := j.lo
  have hj' := j.hi
  unfold wire rank
  by_cases h : 0 ≤ i.val
  · rw [if_pos h, if_pos h]
    by_cases h' : 0 ≤ j.val
    · rw [if_pos h', if_pos h', compare_head_ofNat (by decide) (by omega) (by omega)]
      apply compare_congr
      · omega
      · omega
    · rw [if_neg h', if_neg h', compare_head_major (by decide) (by decide),
        compare_lt_iff_lt.mpr (by omega)]
  · rw [if_neg h, if_neg h]
    by_cases h' : 0 ≤ j.val
    · rw [if_pos h', if_pos h', compare_gt_iff_gt.mpr (by omega)]
      exact Std.OrientedCmp.gt_of_lt (compare_head_major (by decide) (by decide) _ _)
    · rw [if_neg h', if_neg h', compare_head_ofNat (by decide) (by omega) (by omega)]
      apply compare_congr
      · omega
      · omega

/-- No other argument of a number is shorter. -/
theorem Arg.length_tail_ofNat_le (a : Arg) : (Arg.ofNat a.val).tail.length ≤ a.tail.length := by
  rcases Arg.ofNat_form a.val_lt with ⟨-, -, htail⟩ | ⟨k, -, htail, -, hwide, hlonger⟩
  · rw [htail]
    exact Nat.zero_le _
  · rw [htail, BigEndian.length_ofNat]
    -- an argument of `2 ^ j` bytes is below `256 ^ 2 ^ j`, so a longer one is not needed
    have hfits : ∀ j, a.val < 256 ^ 2 ^ j → 2 ^ k ≤ 2 ^ j := by
      intro j hj
      apply Nat.pow_le_pow_right (by decide)
      by_contra hjk
      have hle : 256 ^ 2 ^ j ≤ 256 ^ 2 ^ (k - 1) :=
        Nat.pow_le_pow_right (by decide) (Nat.pow_le_pow_right (by decide) (by omega))
      have := hlonger (by omega)
      omega
    cases a with
    | imm n => exact absurd n.isLt (Nat.not_lt.mpr hwide)
    | w1 n => exact hfits 0 n.toNat_lt
    | w2 n => exact hfits 1 n.toNat_lt
    | w4 n => exact hfits 2 n.toNat_lt
    | w8 n => exact hfits 3 n.toNat_lt

/-- No other head of an integer is shorter. -/
theorem Integer.length_wire_le {i : Integer} {x : Item} {a : Arg} (ha : x = .uint a ∨ x = .nint a)
    (hx : x.value = some (.integer i)) : i.wire.length ≤ x.wire.length := by
  unfold wire
  rcases ha with rfl | rfl
  · obtain rfl := Value.integer.inj (Option.some.inj hx)
    have hval : (a.val : Int).toNat = a.val := Int.toNat_natCast _
    rw [ofNat, if_pos (Int.natCast_nonneg _), hval]
    exact Nat.succ_le_succ (Arg.length_tail_ofNat_le a)
  · obtain rfl := Value.integer.inj (Option.some.inj hx)
    have hval : (-1 - (-1 - (a.val : Int))).toNat = a.val := by omega
    rw [ofNeg, if_neg (by dsimp only; omega), hval]
    exact Nat.succ_le_succ (Arg.length_tail_ofNat_le a)

end Cbor
