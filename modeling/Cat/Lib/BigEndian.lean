import Mathlib.Data.List.Basic
import Mathlib.Tactic.Ring

/-!
# Big-endian byte strings

Network byte order, over lists of `UInt8`: `toNat` reads a byte string as a number, `ofNat`
writes a number in a fixed number of bytes. `toNat_ofNat` and `ofNat_toNat` say the two are
inverse on numbers that fit, which is all a length-prefixed wire format ever asks of them.

The width is an argument of the writer and the length of the input for the reader, so every fact
is about any width: a prefix of the bytes is a quotient of the number, zeros behind are a
product. What a program does with four or with sixteen bytes is a case of it.
-/

set_option autoImplicit false

namespace BigEndian

/-- The number a byte string spells, most significant byte first. -/
def toNat : List UInt8 → Nat
  | [] => 0
  | b :: bs => b.toNat * 256 ^ bs.length + toNat bs

/-- `n` in exactly `w` bytes; the part of `n` that does not fit is cut off. -/
def ofNat : Nat → Nat → List UInt8
  | 0, _ => []
  | w + 1, n => UInt8.ofNat (n / 256 ^ w) :: ofNat w n

@[simp] theorem length_ofNat (w n : Nat) : (ofNat w n).length = w := by
  induction w with
  | zero => rfl
  | succ w ih => simp [ofNat, ih]

theorem toNat_lt (bs : List UInt8) : toNat bs < 256 ^ bs.length := by
  induction bs with
  | nil => simp [toNat]
  | cons b bs ih =>
    have hb : b.toNat ≤ 255 := by have := b.toNat_lt; omega
    have hmul : b.toNat * 256 ^ bs.length ≤ 255 * 256 ^ bs.length := Nat.mul_le_mul_right _ hb
    simp only [toNat, List.length_cons, pow_succ]
    omega

/-- Writing takes the number modulo what the width can hold. -/
theorem toNat_ofNat_mod (w n : Nat) : toNat (ofNat w n) = n % 256 ^ w := by
  induction w with
  | zero => simp [ofNat, toNat, Nat.mod_one]
  | succ w ih =>
    have hlow : (UInt8.ofNat (n / 256 ^ w)).toNat = n / 256 ^ w % 256 := by simp
    rw [ofNat, toNat, length_ofNat, ih, hlow, pow_succ, Nat.mod_mul]
    ring

theorem toNat_ofNat {w n : Nat} (h : n < 256 ^ w) : toNat (ofNat w n) = n := by
  rw [toNat_ofNat_mod, Nat.mod_eq_of_lt h]

/-- A prefix of whole bytes more does not disturb the ones below it. -/
theorem ofNat_add_mul (w k n : Nat) : ofNat w (k * 256 ^ w + n) = ofNat w n := by
  induction w generalizing k with
  | zero => rfl
  | succ w ih =>
    have hpos : 0 < 256 ^ w := Nat.pow_pos (by decide)
    have hk : k * 256 ^ (w + 1) = 256 ^ w * (k * 256) := by ring
    have hk' : k * 256 ^ (w + 1) + n = k * 256 * 256 ^ w + n := by ring
    have hdiv : (k * 256 ^ (w + 1) + n) / 256 ^ w = n / 256 ^ w + k * 256 := by
      rw [hk, Nat.add_comm, Nat.add_mul_div_left _ _ hpos]
    have hbyte : UInt8.ofNat (n / 256 ^ w + k * 256) = UInt8.ofNat (n / 256 ^ w) := by
      rw [← UInt8.toNat_inj]; simp
    rw [ofNat, ofNat, hdiv, hbyte, hk', ih]

theorem ofNat_toNat (bs : List UInt8) : ofNat bs.length (toNat bs) = bs := by
  induction bs with
  | nil => rfl
  | cons b bs ih =>
    have hpos : 0 < 256 ^ bs.length := Nat.pow_pos (by decide)
    have hdiv : (b.toNat * 256 ^ bs.length + toNat bs) / 256 ^ bs.length = b.toNat := by
      rw [Nat.mul_comm, Nat.add_comm, Nat.add_mul_div_left _ _ hpos,
        Nat.div_eq_of_lt (toNat_lt bs), Nat.zero_add]
    simp only [List.length_cons, ofNat, toNat, hdiv, ofNat_add_mul, ih, UInt8.ofNat_toNat]

theorem ofNat_toNat_of_length {bs : List UInt8} {w : Nat} (h : bs.length = w) :
    ofNat w (toNat bs) = bs := by
  subst h; exact ofNat_toNat bs

/-- The leading bytes are those of the number without its low bytes. -/
theorem take_ofNat (k r n : Nat) : (ofNat (k + r) n).take k = ofNat k (n / 256 ^ r) := by
  induction k with
  | zero => simp [ofNat]
  | succ k ih =>
    have hdiv : n / 256 ^ (k + r) = n / 256 ^ r / 256 ^ k := by
      rw [Nat.div_div_eq_div_mul, ← Nat.pow_add, Nat.add_comm]
    rw [show k + 1 + r = (k + r) + 1 by omega, ofNat, List.take_succ_cons, ih, ofNat, hdiv]

theorem toNat_append_zeros (bs : List UInt8) (r : Nat) :
    toNat (bs ++ List.replicate r 0) = toNat bs * 256 ^ r := by
  have hzeros : toNat (List.replicate r 0) = 0 := by
    induction r with
    | zero => rfl
    | succ r ih => simp [List.replicate_succ, toNat, ih]
  induction bs with
  | nil => simp [toNat, hzeros]
  | cons b bs ih =>
    rw [List.cons_append, toNat, toNat, ih, List.length_append, List.length_replicate, pow_add]
    ring

theorem getLast?_ofNat (k n : Nat) : (ofNat (k + 1) n).getLast? = some (UInt8.ofNat n) := by
  induction k with
  | zero => simp [ofNat]
  | succ k ih =>
    rw [ofNat, List.getLast?_cons, ih]
    rfl

end BigEndian
