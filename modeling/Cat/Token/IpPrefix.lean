import Cat.Cwt.Networks
import Cat.Token.Enforce

/-!
# Address prefixes

`ip_in_prefix` masks both addresses. Here it is once more with the arithmetic that the language
checks: a subtraction that goes below zero and a shift by the width of the word or more have no
result. It always has one (`ipInPrefixChecked_eq`), which compares the leading bits.

The length comes from a token and is a byte, so it may be zero, and it may be above the bits of
the family. Both are where a mask that is made by shifting goes wrong, and the source treats
both before it shifts. The two models of the function are compared at every length and every
pair of addresses.
-/

set_option autoImplicit false

namespace Cat

/-! ## Checked arithmetic -/

/-- `a - b` on `u8`. -/
def checkedSubU8 (a b : UInt8) : Option UInt8 := if b ≤ a then some (a - b) else none

/-- `x << k`, for a word. -/
def checkedShl {w : Nat} (x : BitVec w) (k : UInt8) : Option (BitVec w) :=
  if k.toNat < w then some (x <<< k.toNat) else none

/-- `x - y`, for a word. -/
def checkedSubWord {w : Nat} (x y : BitVec w) : Option (BitVec w) :=
  if y ≤ x then some (x - y) else none

/-- The mask of a prefix in a word of this width. -/
def prefixMaskChecked (w : Nat) (width len : UInt8) : Option (BitVec w) :=
  if len = width then some (BitVec.allOnes w)
  else do
    let shift ← checkedSubU8 width len
    let bit ← checkedShl 1#w shift
    let low ← checkedSubWord bit 1#w
    return ~~~low

def bitsInPrefixChecked {w : Nat} (width : UInt8) (peer net : BitVec w) (len : UInt8) :
    Option Bool :=
  if len = 0 then some true
  else if len > width then some false
  else do
    let mask ← prefixMaskChecked w width len
    return peer &&& mask == net &&& mask

/-- `ip_in_prefix`, or nothing where it would overflow. -/
def ipInPrefixChecked (peer net : IpAddr) (prefixLen : UInt8) : Option Bool :=
  match peer, net with
  | .v4 p, .v4 n => bitsInPrefixChecked 32 p n prefixLen
  | .v6 p, .v6 n => bitsInPrefixChecked 128 p n prefixLen
  | _, _ => some false

section
variable {w : Nat} {width len : UInt8}

/-- Shifted by at most the width less one, a bit stays in the word and can be counted down. -/
theorem prefixMaskChecked_eq (hwidth : width.toNat = w) (hpos : len ≠ 0) (hle : len ≤ width) :
    prefixMaskChecked w width len = some (prefixMask w len.toNat) := by
  have hle' : len.toNat ≤ w := hwidth ▸ UInt8.le_iff_toNat_le.mp hle
  have hpos' : 0 < len.toNat := by
    rw [Nat.pos_iff_ne_zero]
    intro hzero
    exact hpos (UInt8.toNat_inj.mp hzero)
  unfold prefixMaskChecked prefixMask
  by_cases hfull : len = width
  · rw [if_pos hfull, if_pos (hfull ▸ hwidth)]
  · have hfull' : len.toNat ≠ w := by
      intro heq
      exact hfull (UInt8.toNat_inj.mp (heq.trans hwidth.symm))
    have hshift : (width - len).toNat = w - len.toNat := by
      rw [UInt8.toNat_sub_of_le _ _ hle, hwidth]
    have hbit : (1#w <<< (w - len.toNat)).toNat = 2 ^ (w - len.toNat) := by
      have hlt : 2 ^ (w - len.toNat) < 2 ^ w := Nat.pow_lt_pow_right (by decide) (by omega)
      rw [BitVec.toNat_shiftLeft, BitVec.toNat_ofNat,
        Nat.mod_eq_of_lt (Nat.one_lt_two_pow (by omega)), Nat.one_shiftLeft, Nat.mod_eq_of_lt hlt]
    have hone : 1#w ≤ 1#w <<< (w - len.toNat) := by
      rw [BitVec.le_def, hbit, BitVec.toNat_ofNat]
      exact (Nat.mod_le 1 _).trans Nat.one_le_two_pow
    have hin : w - len.toNat < w := by omega
    simp only [if_neg hfull, if_neg hfull', checkedSubU8, if_pos hle, Option.bind_eq_bind,
      Option.bind_some, checkedShl, hshift, if_pos hin, checkedSubWord, if_pos hone]
    rfl

theorem bitsInPrefixChecked_eq (hwidth : width.toNat = w) (peer net : BitVec w) :
    bitsInPrefixChecked width peer net len = some (bitsInPrefix peer net len.toNat) := by
  have hzero : len = 0 ↔ len.toNat = 0 := UInt8.toNat_inj.symm
  have hover : len > width ↔ len.toNat > w := by
    rw [gt_iff_lt, UInt8.lt_iff_toNat_lt, hwidth]
  unfold bitsInPrefixChecked bitsInPrefix
  by_cases h0 : len = 0
  · rw [if_pos h0, if_pos (hzero.mp h0)]
  · rw [if_neg h0, if_neg (hzero.not.mp h0)]
    by_cases hgt : len > width
    · rw [if_pos hgt, if_pos (hover.mp hgt)]
    · rw [if_neg hgt, if_neg (hover.not.mp hgt),
        prefixMaskChecked_eq hwidth h0 (UInt8.not_lt.mp hgt)]
      rfl

end

/-- **No length makes it overflow.** -/
theorem ipInPrefixChecked_eq (peer net : IpAddr) (len : UInt8) :
    ipInPrefixChecked peer net len = some (ipInPrefix peer net len) := by
  cases peer with
  | v4 p =>
    cases net with
    | v4 n => exact @bitsInPrefixChecked_eq 32 32 len rfl p n
    | v6 n => rfl
  | v6 p =>
    cases net with
    | v4 n => rfl
    | v6 n => exact @bitsInPrefixChecked_eq 128 128 len rfl p n

/-! ## Leading bits -/

/-- Numbers have the same quotient if their words have the same leading bits. -/
theorem leadingBits_iff {w : Nat} (p n : BitVec w) {len : Nat} (hlen : len ≤ w) :
    p.toNat / 2 ^ (w - len) = n.toNat / 2 ^ (w - len) ↔
      ∀ i < len, p.getMsbD i = n.getMsbD i := by
  have hbit : ∀ (x : BitVec w) (i : Nat), i < len →
      x.getMsbD i = (x.toNat / 2 ^ (w - len)).testBit (len - 1 - i) := by
    intro x i hi
    rw [BitVec.getMsbD, decide_eq_true (by omega), Bool.true_and, BitVec.getLsbD,
      Nat.testBit_div_two_pow]
    congr 1
    omega
  constructor
  · intro h i hi
    rw [hbit p i hi, hbit n i hi, h]
  · intro h
    apply Nat.eq_of_testBit_eq
    intro j
    by_cases hj : j < len
    · have hi := h (len - 1 - j) (by omega)
      rw [hbit p _ (by omega), hbit n _ (by omega)] at hi
      rwa [show len - 1 - (len - 1 - j) = j by omega] at hi
    · -- there is no bit so far to the front
      have hnone : ∀ x : BitVec w, (x.toNat / 2 ^ (w - len)).testBit j = false := by
        intro x
        rw [Nat.testBit_div_two_pow]
        exact BitVec.getLsbD_of_ge x _ (by omega)
      rw [hnone, hnone]

theorem bitsInPrefix_iff_leadingBits {w : Nat} (peer net : BitVec w) (len : Nat) :
    bitsInPrefix peer net len = true ↔ len ≤ w ∧ ∀ i < len, peer.getMsbD i = net.getMsbD i := by
  by_cases hlen : len ≤ w
  · rw [bitsInPrefix_iff peer net hlen, leadingBits_iff peer net hlen, and_iff_right hlen]
  · have hpos : len ≠ 0 := by omega
    rw [bitsInPrefix, if_neg hpos, if_pos (Nat.lt_of_not_le hlen)]
    exact iff_of_false Bool.false_ne_true fun h => hlen h.1

/-- Of one family, which has so many bits, and the first ones are the same. -/
def SameLeadingBits (len : Nat) : IpAddr → IpAddr → Prop
  | .v4 p, .v4 n => len ≤ 32 ∧ ∀ i < len, p.getMsbD i = n.getMsbD i
  | .v6 p, .v6 n => len ≤ 128 ∧ ∀ i < len, p.getMsbD i = n.getMsbD i
  | _, _ => False

/-- **`ip_in_prefix` is equality of leading bits**, for every length that a byte can hold, and
    computing it overflows nowhere.

    The checked version has no result where a subtraction or a shift would overflow; that it always
    has one is the first part. Addresses of two families have no leading bits in common, whatever
    the length. -/
theorem ipInPrefix_leadingBits (peer net : IpAddr) (len : UInt8) :
    ipInPrefixChecked peer net len = some (ipInPrefix peer net len) ∧
      (ipInPrefix peer net len = true ↔ SameLeadingBits len.toNat peer net) ∧
      ((NetworkIdentifier.ipPrefix net len).matchesIp peer = true ↔
        SameLeadingBits len.toNat peer net) := by
  have hiff : ipInPrefix peer net len = true ↔ SameLeadingBits len.toNat peer net := by
    unfold ipInPrefix SameLeadingBits
    cases peer with
    | v4 p =>
      cases net with
      | v4 n => exact bitsInPrefix_iff_leadingBits p n len.toNat
      | v6 n => exact iff_of_false Bool.false_ne_true id
    | v6 p =>
      cases net with
      | v4 n => exact iff_of_false Bool.false_ne_true id
      | v6 n => exact bitsInPrefix_iff_leadingBits p n len.toNat
  exact ⟨ipInPrefixChecked_eq peer net len, hiff, hiff⟩

end Cat
