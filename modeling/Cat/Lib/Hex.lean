import Mathlib.Algebra.Group.Nat.Defs
import Mathlib.Data.List.Basic

/-!
# Lower-case hexadecimal

Two digits to a byte, the high half first. The text tells its bytes, both by its length and by
its digits, and it never has a colon in it: these three are what makes hexadecimal a part that
can be joined to others by colons and be found again.

Numbers are written in as many digits as they need, or padded with zeros to a width. Only the
writer is here. What reads hexadecimal in a protocol decides for itself about capital letters
and an odd digit at the end, so a reader belongs to the protocol.
-/

set_option autoImplicit false

namespace Hex

def digit (n : Nat) : Char := if n < 10 then Char.ofNat (48 + n) else Char.ofNat (87 + n)

/-- Two digits. -/
def byte (b : UInt8) : List Char := [digit (b.toNat / 16), digit (b.toNat % 16)]

def encode (bs : List UInt8) : List Char := bs.flatMap byte

theorem length_encode (bs : List UInt8) : (encode bs).length = 2 * bs.length := by
  induction bs with
  | nil => rfl
  | cons b bs ih =>
    rw [encode, List.flatMap_cons, List.length_append, ← encode, ih, List.length_cons, Nat.mul_succ,
      Nat.add_comm]
    rfl

/-- The sixteen digits differ. -/
theorem digit_inj {m n : Nat} (hm : m < 16) (hn : n < 16) (h : digit m = digit n) : m = n := by
  have hall : ∀ m < 16, ∀ n < 16, digit m = digit n → m = n := by decide
  exact hall m hm n hn h

theorem digit_ne_colon {n : Nat} (hn : n < 16) : digit n ≠ ':' := by
  have hall : ∀ n < 16, digit n ≠ ':' := by decide
  exact hall n hn

/-- The two digits of a byte. -/
theorem halves_lt (b : UInt8) : b.toNat / 16 < 16 ∧ b.toNat % 16 < 16 := by
  have hb := b.toNat_lt
  omega

theorem byte_inj {a b : UInt8} (h : byte a = byte b) : a = b := by
  obtain ⟨ha, ha'⟩ := halves_lt a
  obtain ⟨hb, hb'⟩ := halves_lt b
  obtain ⟨hhigh, hlow⟩ := List.cons.inj h
  have h₁ := digit_inj ha hb hhigh
  have h₂ := digit_inj ha' hb' (List.cons.inj hlow).1
  apply UInt8.toNat_inj.mp
  omega

theorem encode_cons (b : UInt8) (bs : List UInt8) : encode (b :: bs) = byte b ++ encode bs := rfl

/-- **No two byte strings have one spelling.** -/
theorem encode_injective : Function.Injective encode := by
  intro as
  induction as with
  | nil =>
    intro bs h
    have hlength := congrArg List.length h
    rw [length_encode, length_encode] at hlength
    cases bs with
    | nil => rfl
    | cons b bs => exact absurd hlength (by simp)
  | cons a as ih =>
    intro bs h
    cases bs with
    | nil =>
      have hlength := congrArg List.length h
      rw [length_encode, length_encode] at hlength
      exact absurd hlength (by simp)
    | cons b bs =>
      rw [encode_cons, encode_cons] at h
      obtain ⟨hbyte, hrest⟩ := List.append_inj h rfl
      rw [byte_inj hbyte, ih hrest]

theorem colon_not_mem_encode (bs : List UInt8) : ':' ∉ encode bs := by
  intro h
  obtain ⟨b, -, hmem⟩ := List.mem_flatMap.mp h
  obtain ⟨hhigh, hlow⟩ := halves_lt b
  cases List.mem_cons.mp hmem with
  | inl heq => exact digit_ne_colon hhigh heq.symm
  | inr hmem => exact digit_ne_colon hlow (List.mem_singleton.mp hmem).symm

/-! ## Numbers -/

/-- With zeros in front up to so many digits. -/
def padded (width n : Nat) : List Char :=
  List.replicate (width - (Nat.toDigits 16 n).length) '0' ++ Nat.toDigits 16 n

def digits : List Char := "0123456789abcdef".toList

theorem digitChar_mem {n : Nat} (hn : n < 16) : n.digitChar ∈ digits := by
  have hall : ∀ n < 16, n.digitChar ∈ digits := by decide
  exact hall n hn

theorem mem_toDigits {n : Nat} : ∀ c ∈ Nat.toDigits 16 n, c ∈ digits := by
  induction n using Nat.strongRecOn with
  | ind n ih =>
    by_cases hn : n < 16
    · rw [Nat.toDigits_of_lt_base hn]
      intro c hc
      exact List.mem_singleton.mp hc ▸ digitChar_mem hn
    · rw [Nat.toDigits_of_base_le (by decide) (by omega)]
      intro c hc
      rcases List.mem_append.mp hc with hc | hc
      · exact ih (n / 16) (by omega) c hc
      · exact List.mem_singleton.mp hc ▸ digitChar_mem (Nat.mod_lt n (by decide))

theorem mem_padded {width n : Nat} {c : Char} (h : c ∈ padded width n) : c ∈ digits := by
  rcases List.mem_append.mp h with h | h
  · exact (List.mem_replicate.mp h).2 ▸ (by decide)
  · exact mem_toDigits c h

theorem length_padded {width n : Nat} (hwidth : 0 < width) (h : n < 16 ^ width) :
    (padded width n).length = width := by
  have hle := (Nat.length_toDigits_le_iff (by decide) hwidth).mpr h
  rw [padded, List.length_append, List.length_replicate]
  omega

end Hex
