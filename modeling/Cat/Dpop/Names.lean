import Cat.Dpop.CwtDecode
import Cat.Lib.Ascii

/-!
# Names as text and back

A name that is written as text is read back byte for byte, and so is a tuple of names — but for
the empty one: it is written like the tuple of one empty name and read as that.

Names are bytes in MOQT and text in a proof. Bytes that are letters, digits or one of a few
marks stand for themselves, and any other is a dot and two hexadecimal digits, so the dash that
joins names is always an escape inside one. The text of a tuple is therefore cut where it was
joined. By induction on the bytes of a name; a byte is 256 cases, decided once.
-/

set_option autoImplicit false

namespace Cat

open Cbor

/-! ## Bytes -/

theorem isSafe_spec {b : UInt8} (h : isSafe b = true) :
    b.toNat < 128 ∧ (Char.ofNat b.toNat).toNat = b.toNat ∧ b ≠ 0x2e ∧ b ≠ 0x2d := by
  have hall : ∀ n : Fin 256, isSafe (UInt8.ofNat n) = true →
      n.val < 128 ∧ (Char.ofNat n.val).toNat = n.val ∧ n.val ≠ 0x2e ∧ n.val ≠ 0x2d := by
    decide +kernel
  have hb : UInt8.ofNat b.toNat = b := UInt8.ofNat_toNat
  obtain ⟨hlt, hchar, hdot, hdash⟩ := hall ⟨b.toNat, b.toNat_lt⟩ (by rw [hb]; exact h)
  exact ⟨hlt, hchar, fun he => hdot (congrArg UInt8.toNat he), fun he => hdash (congrArg UInt8.toNat he)⟩

theorem hexDigit_digit {n : Nat} (h : n < 16) :
    hexDigit (UInt8.ofNat (Hex.digit n).toNat) = .ok (UInt8.ofNat n) := by
  have hall : ∀ n : Fin 16,
      (hexDigit (UInt8.ofNat (Hex.digit n).toNat)).toOption = some (UInt8.ofNat n) := by
    decide +kernel
  have := hall ⟨n, h⟩
  cases hd : hexDigit (UInt8.ofNat (Hex.digit n).toNat) with
  | error e => simp [hd, Except.toOption] at this
  | ok d => simpa [hd, Except.toOption] using this

theorem hexDigit_ascii {n : Nat} (h : n < 16) :
    (Hex.digit n).toNat < 128 ∧ Hex.digit n ≠ '-' ∧ Hex.digit n ≠ '.' := by
  have hall : ∀ n : Fin 16, (Hex.digit n).toNat < 128 ∧ Hex.digit n ≠ '-' ∧ Hex.digit n ≠ '.' := by
    decide
  exact hall ⟨n, h⟩

/-- Two halves make up a byte. -/
theorem halves (b : UInt8) :
    UInt8.ofNat (b.toNat / 16) <<< 4 ||| UInt8.ofNat (b.toNat % 16) = b := by
  have hall : ∀ n : Fin 256, UInt8.ofNat (n / 16) <<< 4 ||| UInt8.ofNat (n % 16) = UInt8.ofNat n := by
    decide +kernel
  rw [hall ⟨b.toNat, b.toNat_lt⟩, UInt8.ofNat_toNat]

/-! ## One name -/

/-- The characters of a byte. -/
def canonicalByte (b : UInt8) : List Char :=
  if isSafe b then [Char.ofNat b.toNat] else '.' :: Hex.byte b

theorem moqCanonicalElement_eq (bs : Bytes) :
    moqCanonicalElement bs = bs.flatMap canonicalByte := rfl

theorem canonicalByte_ascii {b : UInt8} {c : Char} (h : c ∈ canonicalByte b) :
    c.toNat < 128 ∧ c ≠ '-' := by
  have hlt := b.toNat_lt
  unfold canonicalByte at h
  split at h
  · rename_i hsafe
    obtain ⟨hb, hchar, -, hdash⟩ := isSafe_spec hsafe
    obtain rfl := List.mem_singleton.mp h
    refine ⟨hchar.symm ▸ hb, fun heq => hdash ?_⟩
    rw [heq] at hchar
    exact UInt8.toNat_inj.mp hchar.symm
  · rcases List.mem_cons.mp h with rfl | h
    · decide
    · rw [Hex.byte, List.mem_pair] at h
      rcases h with rfl | rfl
      · obtain ⟨hc, hdash, -⟩ := hexDigit_ascii (n := b.toNat / 16) (by omega)
        exact ⟨hc, hdash⟩
      · obtain ⟨hc, hdash, -⟩ := hexDigit_ascii (n := b.toNat % 16) (by omega)
        exact ⟨hc, hdash⟩

theorem moqCanonicalElement_ascii {bs : Bytes} {c : Char} (h : c ∈ moqCanonicalElement bs) :
    c.toNat < 128 ∧ c ≠ '-' := by
  obtain ⟨b, -, hc⟩ := List.mem_flatMap.mp h
  exact canonicalByte_ascii hc

theorem moqElementFromCanonical_safe {b : UInt8} {bs : Bytes} (hdot : b ≠ 0x2e)
    (hsafe : isSafe b = true) :
    moqElementFromCanonical (b :: bs) = (moqElementFromCanonical bs).map (b :: ·) := by
  conv_lhs => unfold moqElementFromCanonical
  rw [if_neg hdot, if_pos hsafe]

/-- **A name is read back.** -/
theorem moqElementFromCanonical_canonical (bs : Bytes) :
    moqElementFromCanonical (utf8 (String.ofList (moqCanonicalElement bs))) = .ok bs := by
  rw [utf8_ofList fun c hc => (moqCanonicalElement_ascii hc).1]
  induction bs with
  | nil => rfl
  | cons b bs ih =>
    have hlt := b.toNat_lt
    rw [moqCanonicalElement_eq, List.flatMap_cons, codes_append, ← moqCanonicalElement_eq]
    by_cases hsafe : isSafe b = true
    · obtain ⟨-, hchar, hdot, -⟩ := isSafe_spec hsafe
      have hcode : codes (canonicalByte b) = [b] := by
        rw [canonicalByte, if_pos hsafe, codes, List.map_singleton, hchar, UInt8.ofNat_toNat]
      rw [hcode, List.singleton_append, moqElementFromCanonical_safe hdot hsafe, ih]
      rfl
    · have hcode : codes (canonicalByte b) =
          [0x2e, UInt8.ofNat (Hex.digit (b.toNat / 16)).toNat,
            UInt8.ofNat (Hex.digit (b.toNat % 16)).toNat] := by
        rw [canonicalByte, if_neg hsafe]
        rfl
      rw [hcode]
      show moqElementFromCanonical (0x2e :: _ :: _ :: codes (moqCanonicalElement bs)) = _
      rw [moqElementFromCanonical, if_pos rfl]
      refine Except.bind_eq_ok.mpr ⟨_, hexDigit_digit (by omega), ?_⟩
      refine Except.bind_eq_ok.mpr ⟨_, hexDigit_digit (by omega), ?_⟩
      refine Except.bind_eq_ok.mpr ⟨_, ih, ?_⟩
      rw [halves]
      rfl

/-! ## A tuple of names -/

/-- **A tuple of names is read back, unless it is empty.** -/
theorem moqTnsFromCanonical_canonical {tns : List Bytes} (h : tns ≠ []) :
    moqTnsFromCanonical (String.ofList (moqCanonicalTns tns)) = .ok tns := by
  have hsplit : (moqCanonicalTns tns).splitOn '-' = tns.map moqCanonicalElement := by
    refine List.splitOn_intercalate '-' ?_ (by simpa using h)
    rw [List.forall_mem_map]
    exact fun bs _ hmem => (moqCanonicalElement_ascii hmem).2 rfl
  rw [moqTnsFromCanonical, String.toList_ofList, hsplit, Except.mapM'_eq_ok,
    List.forall₂_map_left_iff, List.forall₂_same]
  exact fun bs _ => moqElementFromCanonical_canonical bs

/-- The empty tuple is read as the tuple of the empty name. -/
theorem moqTnsFromCanonical_empty :
    moqTnsFromCanonical (String.ofList (moqCanonicalTns [])) = .ok [[]] := by
  rfl

theorem moqCanonicalTns_eq_nil {tns : List Bytes} :
    moqCanonicalTns tns = [] ↔ tns = [] ∨ tns = [[]] := by
  have helement : ∀ bs : Bytes, moqCanonicalElement bs = [] → bs = [] := by
    intro bs h
    have := moqElementFromCanonical_canonical bs
    rw [h] at this
    exact (Except.ok.inj this).symm
  cases tns with
  | nil => simp [moqCanonicalTns, List.intercalate]
  | cons bs rest =>
    cases rest with
    | nil =>
      simp only [moqCanonicalTns, List.map_singleton, List.intercalate, List.intersperse_singleton,
        List.flatten_singleton]
      constructor
      · intro h
        rw [helement bs h]
        exact .inr rfl
      · rintro (h | h)
        · exact absurd h (by simp)
        · rw [List.singleton_inj.mp h]
          rfl
    | cons bs' rest =>
      simp [moqCanonicalTns, List.intercalate]

end Cat
