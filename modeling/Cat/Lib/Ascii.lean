import Cat.Lib.Cbor.Value

/-!
# ASCII

What the ASCII range makes simple. The UTF-8 of a text is that of its characters one after the
other, and where these are ASCII it is their codes (`utf8_ofList`), so that a text and its bytes
have the same length and the codes tell the characters apart. Making letters small changes the
letters A to Z only, so it does nothing the second time and leaves every other character where it
is.

Facts about one character are decided for the 128 of them and carried to all the others by
`Char.toLower_induction`: outside ASCII `toLower` is the identity.
-/

set_option autoImplicit false

/-! ## Codes -/

namespace Cbor

theorem utf8_append (s t : String) : utf8 (s ++ t) = utf8 s ++ utf8 t := by
  unfold utf8
  rw [String.toByteArray_append]
  simp

theorem utf8_cons (c : Char) (cs : List Char) :
    utf8 (String.ofList (c :: cs)) = String.utf8EncodeChar c ++ utf8 (String.ofList cs) := by
  have hb : ∀ cs : List Char, (String.ofList cs).toByteArray = cs.utf8Encode := fun cs => by simp
  unfold utf8
  rw [hb, hb, List.utf8Encode_cons, List.utf8Encode_singleton]
  simp

/-- The codes of characters, as bytes. -/
def codes (cs : List Char) : Bytes := cs.map fun c => UInt8.ofNat c.toNat

theorem codes_append (as bs : List Char) : codes (as ++ bs) = codes as ++ codes bs :=
  List.map_append

theorem utf8_ofList {cs : List Char} (h : ∀ c ∈ cs, c.toNat < 128) :
    utf8 (String.ofList cs) = codes cs := by
  induction cs with
  | nil => rfl
  | cons c cs ih =>
    have hc : c.utf8Size = 1 := by
      rw [Char.utf8Size_eq_one_iff]
      exact Nat.le_of_lt_succ (h c List.mem_cons_self)
    rw [utf8_cons, String.utf8EncodeChar_eq_singleton hc,
      ih fun c' hc' => h c' (List.mem_cons_of_mem _ hc')]
    rfl

/-- Codes of ASCII characters are ASCII, and tell them apart. -/
theorem code_inj {c d : Char} (hc : c.toNat < 128) (hd : d.toNat < 128)
    (h : UInt8.ofNat c.toNat = UInt8.ofNat d.toNat) : c = d := by
  have := congrArg UInt8.toNat h
  rw [UInt8.toNat_ofNat_of_lt' (by simp [UInt8.size]; omega),
    UInt8.toNat_ofNat_of_lt' (by simp [UInt8.size]; omega)] at this
  exact Char.toNat_inj.mp this

end Cbor

/-! ## Small letters -/

namespace Char

theorem toLower_of_not_ascii {c : Char} (h : 128 ≤ c.toNat) : c.toLower = c := by
  refine dif_neg fun hc => ?_
  have hle := UInt32.le_iff_toNat_le.mp hc.2
  have hz : 'Z'.val.toNat < 128 := by decide
  exact absurd h (Nat.not_le.mpr (Nat.lt_of_le_of_lt hle hz))

/-- What holds of the ASCII characters, and of those that stay as they are. -/
theorem toLower_induction {motive : Char → Char → Prop}
    (ascii : ∀ n : Fin 128, motive (Char.ofNat n) (Char.ofNat n).toLower)
    (other : ∀ c : Char, 128 ≤ c.toNat → motive c c) (c : Char) : motive c c.toLower := by
  by_cases h : c.toNat < 128
  · have := ascii ⟨c.toNat, h⟩
    rwa [Char.ofNat_toNat] at this
  · rw [toLower_of_not_ascii (Nat.not_lt.mp h)]
    exact other c (Nat.not_lt.mp h)

theorem toLower_toLower (c : Char) : c.toLower.toLower = c.toLower := by
  refine toLower_induction (motive := fun _ d => d.toLower = d) ?_ ?_ c
  · decide
  · exact fun c h => toLower_of_not_ascii h

theorem toLower_ascii {c : Char} : c.toLower.toNat < 128 ↔ c.toNat < 128 := by
  refine toLower_induction (motive := fun c d => d.toNat < 128 ↔ c.toNat < 128) ?_ ?_ c
  · decide
  · exact fun _ _ => Iff.rfl

/-- A character that is no letter comes from itself alone. -/
theorem toLower_eq_iff {c d : Char} (hd : d.isAlpha = false) : c.toLower = d ↔ c = d := by
  refine toLower_induction (motive := fun c e => e = d ↔ c = d) ?_ (fun _ _ => Iff.rfl) c
  intro n
  have hall : ∀ n : Fin 128, (Char.ofNat n).toLower = Char.ofNat n ∨
      (Char.ofNat n).isAlpha = true ∧ (Char.ofNat n).toLower.isAlpha = true := by
    decide
  rcases hall n with h | ⟨h, h'⟩
  · rw [h]
  · constructor
    · rintro rfl
      rw [h'] at hd
      cases hd
    · rintro rfl
      rw [h] at hd
      cases hd

end Char
