import Cat.Dpop.Names

/-!
# One text for each name

The reader of names takes more texts than the writer gives: capital digits in an escape, and
escapes of bytes that need none. An accepted text is the one its name is written as exactly if
it has neither. Names have different texts, and so have tuples, but for the empty tuple and the
tuple of one empty name.

The first direction is the one that matters for signatures. A proof is checked against a request
by comparing names, after reading, so several texts may stand for one request; whoever compares
texts sees different proofs. The second direction is what the comparison relies on: one text
does not stand for two requests, up to the one exception, which both formats share.

A text is a sequence of characters and escapes, and the induction follows that. A dot cannot
stand for itself, so the escapes of a text can be told apart from everything else without
looking back.
-/

set_option autoImplicit false

namespace Cat

open Cbor

/-! ## Escapes -/

def isCapitalDigit (b : UInt8) : Prop := 0x41 ≤ b ∧ b ≤ 0x46

/-- Two digits of an escape that the writer uses: none of them is a capital, and they are not
the digits of a byte that stands for itself. -/
def PlainEscape (hi lo : UInt8) : Prop :=
  ¬isCapitalDigit hi ∧ ¬isCapitalDigit lo ∧ ∀ b, isSafe b → codes (Hex.byte b) ≠ [hi, lo]

/-- Every `.` in a text is followed by two such digits. -/
def PlainEscapes (text : Bytes) : Prop :=
  ∀ before hi lo after, text = before ++ 0x2e :: hi :: lo :: after → PlainEscape hi lo

/-- A digit is read as a half of a byte, and is the digit of that half unless it is a capital. -/
theorem hexDigit_ok {c d : UInt8} (h : hexDigit c = .ok d) :
    d.toNat < 16 ∧ c ≠ 0x2e ∧ (UInt8.ofNat (Hex.digit d.toNat).toNat = c ↔ ¬isCapitalDigit c) := by
  have hall : ∀ n : Fin 256, ∀ d ∈ (hexDigit (UInt8.ofNat n)).toOption,
      d.toNat < 16 ∧ n.val ≠ 0x2e ∧
        (UInt8.ofNat (Hex.digit d.toNat).toNat = UInt8.ofNat n ↔
          ¬(0x41 ≤ UInt8.ofNat n ∧ UInt8.ofNat n ≤ 0x46)) := by
    decide +kernel
  have hc : UInt8.ofNat c.toNat = c := UInt8.ofNat_toNat
  have := hall ⟨c.toNat, c.toNat_lt⟩ d (by rw [hc, h]; rfl)
  rw [hc] at this
  exact ⟨this.1, fun he => this.2.1 (congrArg UInt8.toNat he), this.2.2⟩

/-- The byte of two halves, taken apart. -/
theorem byte_halves {hi lo : UInt8} (hhi : hi.toNat < 16) (hlo : lo.toNat < 16) :
    Hex.byte (hi <<< 4 ||| lo) = [Hex.digit hi.toNat, Hex.digit lo.toNat] := by
  have hall : ∀ hi lo : Fin 16,
      (UInt8.ofNat hi <<< 4 ||| UInt8.ofNat lo).toNat / 16 = hi ∧
        (UInt8.ofNat hi <<< 4 ||| UInt8.ofNat lo).toNat % 16 = lo := by
    decide +kernel
  obtain ⟨hdiv, hmod⟩ := hall ⟨hi.toNat, hhi⟩ ⟨lo.toNat, hlo⟩
  rw [UInt8.ofNat_toNat, UInt8.ofNat_toNat] at hdiv hmod
  rw [Hex.byte, hdiv, hmod]

/-- An escape is what its byte is written as if the writer uses it. -/
theorem plainEscape_iff {hi lo h l : UInt8} (hhi : hexDigit hi = .ok h)
    (hlo : hexDigit lo = .ok l) :
    PlainEscape hi lo ↔ codes (canonicalByte (h <<< 4 ||| l)) = [0x2e, hi, lo] := by
  obtain ⟨hh, -, hcap⟩ := hexDigit_ok hhi
  obtain ⟨hl, -, hcap'⟩ := hexDigit_ok hlo
  have hbyte : codes (Hex.byte (h <<< 4 ||| l)) = [hi, lo] ↔
      ¬isCapitalDigit hi ∧ ¬isCapitalDigit lo := by
    rw [byte_halves hh hl, ← hcap, ← hcap']
    simp [codes]
  unfold canonicalByte
  constructor
  · rintro ⟨hhi, hlo, hsafe⟩
    have hdigits := hbyte.mpr ⟨hhi, hlo⟩
    rw [if_neg fun h => hsafe _ h hdigits]
    exact congrArg (0x2e :: ·) hdigits
  · intro heq
    split at heq
    · exact absurd heq (by simp [codes])
    · rename_i hunsafe
      have hdigits : codes (Hex.byte (h <<< 4 ||| l)) = [hi, lo] := List.tail_eq_of_cons_eq heq
      obtain ⟨hhi', hlo'⟩ := hbyte.mp hdigits
      refine ⟨hhi', hlo', fun b hb he => ?_⟩
      -- The digits of a byte are read as that byte.
      obtain ⟨rfl, rfl⟩ : _ = hi ∧ _ = lo := by simpa [codes, Hex.byte] using he
      have hh' := Except.ok.inj ((hexDigit_digit (by have := b.toNat_lt; omega)).symm.trans hhi)
      have hl' := Except.ok.inj ((hexDigit_digit (by omega)).symm.trans hlo)
      rw [← hh', ← hl', halves] at hunsafe
      exact hunsafe hb

/-! ## One name -/

/-- An accepted text, one step at a time. -/
theorem moqElementFromCanonical_cons {b : UInt8} {bs out : Bytes}
    (h : moqElementFromCanonical (b :: bs) = .ok out) :
    (∃ hi lo rest d e out', b = 0x2e ∧ bs = hi :: lo :: rest ∧ hexDigit hi = .ok d ∧
        hexDigit lo = .ok e ∧ moqElementFromCanonical rest = .ok out' ∧
        out = (d <<< 4 ||| e) :: out') ∨
      ∃ out', b ≠ 0x2e ∧ isSafe b = true ∧ moqElementFromCanonical bs = .ok out' ∧
        out = b :: out' := by
  rw [moqElementFromCanonical.eq_def] at h
  simp only at h
  split at h
  · rename_i hdot
    left
    split at h
    · rename_i hi lo rest
      obtain ⟨d, hd, h⟩ := Except.bind_eq_ok.mp h
      obtain ⟨e, he, h⟩ := Except.bind_eq_ok.mp h
      obtain ⟨out', hout, h⟩ := Except.bind_eq_ok.mp h
      exact ⟨hi, lo, rest, d, e, out', hdot, rfl, hd, he, hout, (Except.ok.inj h).symm⟩
    · exact absurd h (by simp)
  · rename_i hdot
    right
    split at h
    · rename_i hsafe
      obtain ⟨out', hout, rfl⟩ := Except.map_eq_ok.mp h
      exact ⟨out', hdot, hsafe, hout, rfl⟩
    · exact absurd h (by simp)

theorem plainEscapes_escape {hi lo : UInt8} {rest : Bytes} (hhi : hi ≠ 0x2e) (hlo : lo ≠ 0x2e) :
    PlainEscapes (0x2e :: hi :: lo :: rest) ↔ PlainEscape hi lo ∧ PlainEscapes rest := by
  constructor
  · intro h
    refine ⟨h [] hi lo rest rfl, fun before hi' lo' after heq => ?_⟩
    exact h (0x2e :: hi :: lo :: before) hi' lo' after (by rw [heq]; rfl)
  · rintro ⟨hplain, hrest⟩ before hi' lo' after heq
    rcases before with _ | ⟨_, _ | ⟨_, _ | ⟨_, before⟩⟩⟩
    · obtain ⟨rfl, rfl, -⟩ : hi = hi' ∧ lo = lo' ∧ rest = after := by simpa using heq
      exact hplain
    · exact absurd (by simpa using heq) fun h : _ ∧ hi = _ ∧ _ => hhi h.2.1
    · exact absurd (by simpa using heq) fun h : _ ∧ _ ∧ lo = _ ∧ _ => hlo h.2.2.1
    · obtain ⟨-, -, -, heq⟩ : _ ∧ _ ∧ _ ∧ rest = before ++ 0x2e :: hi' :: lo' :: after := by
        simpa using heq
      exact hrest before hi' lo' after heq

theorem plainEscapes_safe {b : UInt8} {bs : Bytes} (hb : b ≠ 0x2e) :
    PlainEscapes (b :: bs) ↔ PlainEscapes bs := by
  constructor
  · intro h before hi lo after heq
    exact h (b :: before) hi lo after (by rw [heq]; rfl)
  · intro h before hi lo after heq
    cases before with
    | nil => exact absurd (List.head_eq_of_cons_eq heq) hb
    | cons _ before => exact h before hi lo after (List.tail_eq_of_cons_eq heq)

/-- **An accepted text is the one its name is written as exactly if its escapes are plain.** -/
theorem codes_moqCanonicalElement_iff (text : Bytes) {out : Bytes}
    (h : moqElementFromCanonical text = .ok out) :
    codes (moqCanonicalElement out) = text ↔ PlainEscapes text := by
  induction hn : text.length using Nat.strong_induction_on generalizing text out with
  | _ n ih =>
  cases text with
  | nil =>
    obtain rfl := Except.ok.inj h
    exact ⟨fun _ before _ _ _ heq => absurd heq (by simp), fun _ => rfl⟩
  | cons b bs =>
    rcases moqElementFromCanonical_cons h with
      ⟨hi, lo, rest, d, e, out, rfl, rfl, hd, he, hout, rfl⟩ | ⟨out, hdot, hsafe, hout, rfl⟩
    · rw [plainEscapes_escape (hexDigit_ok hd).2.1 (hexDigit_ok he).2.1, plainEscape_iff hd he,
        ← ih rest.length (by simp at hn; omega) rest hout rfl, moqCanonicalElement_eq,
        List.flatMap_cons, codes_append, ← moqCanonicalElement_eq]
      constructor
      · intro heq
        -- Only an escape starts with a dot.
        have hunsafe : ¬isSafe (d <<< 4 ||| e) = true := by
          intro hsafe
          obtain ⟨-, hchar, hdot, -⟩ := isSafe_spec hsafe
          rw [canonicalByte, if_pos hsafe, codes, List.map_singleton, hchar, UInt8.ofNat_toNat]
            at heq
          exact hdot (List.head_eq_of_cons_eq heq)
        apply @List.append_inj _ _ _ _ rest heq
        rw [canonicalByte, if_neg hunsafe]
        rfl
      · rintro ⟨hbyte, hrest⟩
        rw [hbyte, hrest]
        rfl
    · rw [plainEscapes_safe hdot, ← ih bs.length (by simp at hn; omega) bs hout rfl,
        moqCanonicalElement_eq, List.flatMap_cons, codes_append, ← moqCanonicalElement_eq]
      obtain ⟨-, hchar, -⟩ := isSafe_spec hsafe
      have hcode : codes (canonicalByte b) = [b] := by
        rw [canonicalByte, if_pos hsafe, codes, List.map_singleton, hchar, UInt8.ofNat_toNat]
      rw [hcode]
      exact List.cons_inj_right b

theorem utf8_moqCanonicalElement (bs : Bytes) :
    utf8 (String.ofList (moqCanonicalElement bs)) = codes (moqCanonicalElement bs) :=
  utf8_ofList fun _ hc => (moqCanonicalElement_ascii hc).1

theorem moqCanonicalElement_text_iff {s : String} {out : Bytes}
    (h : moqElementFromCanonical (utf8 s) = .ok out) :
    String.ofList (moqCanonicalElement out) = s ↔ PlainEscapes (utf8 s) := by
  rw [← codes_moqCanonicalElement_iff (utf8 s) h, ← utf8_moqCanonicalElement]
  exact ⟨congrArg utf8, utf8_inj⟩

theorem moqCanonicalElement_inj {bs bs' : Bytes}
    (h : moqCanonicalElement bs = moqCanonicalElement bs') : bs = bs' := by
  have hback := moqElementFromCanonical_canonical bs
  rw [h, moqElementFromCanonical_canonical] at hback
  exact (Except.ok.inj hback).symm

/-! ## A tuple of names -/

/-- **An accepted text is the one its tuple is written as exactly if the escapes of all its
parts are plain.** -/
theorem moqCanonicalTns_text_iff {s : String} {tns : List Bytes}
    (h : moqTnsFromCanonical s = .ok tns) :
    String.ofList (moqCanonicalTns tns) = s ↔
      ∀ part ∈ s.toList.splitOn '-', PlainEscapes (utf8 (String.ofList part)) := by
  have hparts := Except.mapM'_eq_ok.mp h
  have hne : tns.map moqCanonicalElement ≠ [] := by
    intro hnil
    have hlen := hparts.length_eq
    rw [List.map_eq_nil_iff.mp hnil, List.length_nil, List.length_eq_zero_iff] at hlen
    exact List.splitOn_ne_nil _ _ hlen
  -- Splitting takes the joined text apart again, as no part has a hyphen in it.
  have hsplit : String.ofList (moqCanonicalTns tns) = s ↔
      s.toList.splitOn '-' = tns.map moqCanonicalElement := by
    constructor
    · rintro rfl
      rw [String.toList_ofList]
      apply List.splitOn_intercalate '-' _ hne
      rw [List.forall_mem_map]
      exact fun bs _ hmem => (moqCanonicalElement_ascii hmem).2 rfl
    · intro heq
      rw [moqCanonicalTns, ← heq, List.intercalate_splitOn, String.ofList_toList]
  rw [hsplit]
  clear h hne hsplit
  generalize s.toList.splitOn '-' = parts at hparts
  induction hparts with
  | nil => simp
  | @cons part out parts tns hpart _ ih =>
    rw [List.map_cons, List.cons.injEq, List.forall_mem_cons,
      ← moqCanonicalElement_text_iff hpart]
    refine and_congr ⟨fun heq => congrArg String.ofList heq.symm, fun heq => ?_⟩ ih
    exact (String.ofList_inj.mp heq).symm

theorem moqTnsFromCanonical_canonical_iff (tns : List Bytes) :
    moqTnsFromCanonical (String.ofList (moqCanonicalTns tns)) = .ok tns ↔ tns ≠ [] := by
  refine ⟨?_, moqTnsFromCanonical_canonical⟩
  rintro h rfl
  rw [moqTnsFromCanonical_empty] at h
  exact absurd (Except.ok.inj h) (by simp)

/-- **Tuples of one text are the same, or are the empty one and that of one empty name.** -/
theorem moqCanonicalTns_eq_iff {tns tns' : List Bytes} :
    moqCanonicalTns tns = moqCanonicalTns tns' ↔
      tns = tns' ∨ tns = [] ∧ tns' = [[]] ∨ tns = [[]] ∧ tns' = [] := by
  constructor
  · intro h
    by_cases hnil : tns = []
    · subst hnil
      rcases moqCanonicalTns_eq_nil.mp (h.symm.trans (moqCanonicalTns_eq_nil.mpr (.inl rfl))) with
        rfl | rfl
      · exact .inl rfl
      · exact .inr (.inl ⟨rfl, rfl⟩)
    · by_cases hnil' : tns' = []
      · subst hnil'
        have := moqCanonicalTns_eq_nil.mp (h.trans (moqCanonicalTns_eq_nil.mpr (.inl rfl)))
        exact .inr (.inr ⟨this.resolve_left hnil, rfl⟩)
      · have hback := moqTnsFromCanonical_canonical hnil
        rw [h, moqTnsFromCanonical_canonical hnil'] at hback
        exact .inl (Except.ok.inj hback).symm
  · rintro (rfl | ⟨rfl, rfl⟩ | ⟨rfl, rfl⟩)
    · rfl
    · exact moqCanonicalTns_eq_nil.mpr (.inl rfl)
    · exact (moqCanonicalTns_eq_nil.mpr (.inl rfl)).symm

/-- **One text for each name and each tuple, up to spelling and the empty tuple.**

Names are written in one way each and read in more: the reader takes escapes of bytes that need
none, and capital digits in them. In a tuple the texts of the names are joined by hyphens, and
joining nothing gives the same text as joining one empty name. -/
theorem moqCanonical_bijective_iff (bs bs' : Bytes) (tns tns' : List Bytes) (s : String) :
    (moqElementFromCanonical (utf8 (String.ofList (moqCanonicalElement bs))) = .ok bs ∧
      (moqCanonicalElement bs = moqCanonicalElement bs' → bs = bs') ∧
      ∀ r, moqElementFromCanonical (utf8 s) = .ok r →
        (String.ofList (moqCanonicalElement r) = s ↔ PlainEscapes (utf8 s))) ∧
    (moqTnsFromCanonical (String.ofList (moqCanonicalTns tns)) = .ok tns ↔ tns ≠ []) ∧
    (moqCanonicalTns tns = moqCanonicalTns tns' ↔
      tns = tns' ∨ tns = [] ∧ tns' = [[]] ∨ tns = [[]] ∧ tns' = []) ∧
    ∀ r, moqTnsFromCanonical s = .ok r →
      (String.ofList (moqCanonicalTns r) = s ↔
        ∀ part ∈ s.toList.splitOn '-', PlainEscapes (utf8 (String.ofList part))) := by
  refine ⟨⟨moqElementFromCanonical_canonical bs, moqCanonicalElement_inj, ?_⟩,
    moqTnsFromCanonical_canonical_iff tns, moqCanonicalTns_eq_iff, ?_⟩
  · intro r h
    exact moqCanonicalElement_text_iff h
  · intro r h
    exact moqCanonicalTns_text_iff h

/-- Not a bijection: the empty tuple is read as another, which has the same text, and `A` has
the second spelling `.41`. -/
theorem moqCanonical_not_bijective :
    (¬∀ tns, moqTnsFromCanonical (String.ofList (moqCanonicalTns tns)) = .ok tns) ∧
    (¬∀ tns tns', moqCanonicalTns tns = moqCanonicalTns tns' → tns = tns') ∧
    ¬∀ s bs, moqElementFromCanonical (utf8 s) = .ok bs →
      String.ofList (moqCanonicalElement bs) = s := by
  refine ⟨fun h => ?_, fun h => ?_, fun h => ?_⟩
  · exact absurd (Except.ok.inj (h [])) (by decide)
  · exact absurd (h [] [[]] rfl) (by decide)
  · have hread : moqElementFromCanonical (utf8 ".41") = .ok [0x41] := by rfl
    exact absurd (h ".41" [0x41] hread) (by decide +kernel)

end Cat
