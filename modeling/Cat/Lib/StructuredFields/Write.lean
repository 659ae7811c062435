import Cat.Lib.Splitting
import Cat.Lib.StructuredFields.Parse
import Mathlib.Algebra.Group.Nat.Defs
import Mathlib.Data.List.TakeWhile

/-!
# Writing structured fields

Bare items as RFC 8941 writes them, with quotes and backslashes escaped. What the parser reads
is well formed, and what is well formed it reads back from what is written, up to the first
character that cannot go on a number or a token.

That last condition (`Ends`) is what makes the statement usable inside a larger text. A number
or a token has no closing mark; it ends where something comes that it could not take in, and
what comes next depends on where the item stands. A blank, a comma, a semicolon or the end of
the input will all do.

Decimals and base64 are leaves. How a decimal is represented and rounded is left to the program,
as is its base64 (`Leaves.Lawful` has what is relied on), and the grammar around them is the
same for every choice.

The classes of characters are decided once for the 128 characters of ASCII
(`of_alphanum_or_mem`), so that the proofs about parsers cite a fact about a class and never
look at a character.
-/

set_option autoImplicit false

namespace StructuredFields

def DecimalLiteral.text (l : DecimalLiteral) : List Char :=
  (if l.negative then ['-'] else []) ++ (l.whole ++ '.' :: l.frac)

/-- What is relied on of the leaves: the text of a decimal is a literal that is read as the same
    decimal, and base64 keeps to its alphabet and decodes to what was encoded. -/
structure Leaves.Lawful {δ : Type} (L : Leaves δ) : Prop where
  show_read : ∀ l, ∃ l', L.showDecimal (L.readDecimal l) = l'.text ∧
    L.readDecimal l' = L.readDecimal l
  alphabet : ∀ b, ∀ c ∈ L.encodeBase64 b, isBase64Char c = true
  decode_encode : ∀ b, L.decodeBase64 (L.encodeBase64 b) = some b

def escape : List Char → List Char
  | [] => []
  | c :: cs => if c = '"' ∨ c = '\\' then '\\' :: c :: escape cs else c :: escape cs

section
variable {δ : Type} (L : Leaves δ)

def writeBareItem : BareItem δ → List Char
  | .integer n => (toString n).toList
  | .decimal d => L.showDecimal d
  | .string s => '"' :: (escape s.toList ++ ['"'])
  | .token t => t.toList
  | .byteSeq b => ':' :: (L.encodeBase64 b ++ [':'])
  | .boolean b => if b then ['?', '1'] else ['?', '0']

/-- The bare items that there is a text for. -/
def BareItem.WellFormed : BareItem δ → Prop
  | .integer n => n.natAbs < 10 ^ 15
  | .decimal d => ∃ l, L.readDecimal l = d
  | .string s => ∀ c ∈ s.toList, isPrintable c = true
  | .token t => ∃ c cs, t.toList = c :: cs ∧ isTokenStart c = true ∧ ∀ c ∈ cs, isTokenChar c = true
  | .byteSeq _ => True
  | .boolean _ => True

end

/-- The input goes on with nothing that a number or a token could take in. -/
def Ends (rest : List Char) : Prop := ∀ c ∈ rest.head?, isTokenChar c = false

variable {δ : Type} {L : Leaves δ} {rest : List Char}

/-! ## Characters

What can begin each kind of item. The kinds are told apart by the first character.
-/

theorem isAlphanum_lt {c : Char} (h : c.isAlphanum = true) : c.toNat < 128 := by
  have hranges : (decide (c.val ≥ 'A'.val ∧ c.val ≤ 'Z'.val) ||
      (decide (c.val ≥ 'a'.val) && decide (c.val ≤ 'z'.val)) ||
      (decide (c.val ≥ '0'.val) && decide (c.val ≤ '9'.val))) = true := h
  simp only [Bool.or_eq_true, Bool.and_eq_true, decide_eq_true_eq, UInt32.le_iff_toNat_le,
    ge_iff_le] at hranges
  have hcode : c.toNat = c.val.toNat := rfl
  have hcapital : 'Z'.val.toNat = 90 := rfl
  have hsmall : 'z'.val.toNat = 122 := rfl
  have hdigit : '9'.val.toNat = 57 := rfl
  omega

/-- What holds of letters and digits and of some other characters in ASCII, tried one by one. -/
theorem of_alphanum_or_mem {P : Char → Prop} {others : List Char} {c : Char}
    (h : (c.isAlphanum || others.contains c) = true)
    (hall : ∀ n : Fin 128, (Char.ofNat n).isAlphanum = true → P (Char.ofNat n))
    (hothers : ∀ d ∈ others, P d) : P c := by
  cases Bool.or_eq_true_iff.mp h with
  | inl halnum =>
    have hc := hall ⟨c.toNat, isAlphanum_lt halnum⟩
    rw [Char.ofNat_toNat] at hc
    exact hc halnum
  | inr hmem => exact hothers c (List.contains_iff_mem.mp hmem)

theorem isPrintable_of_isTokenChar {c : Char} (h : isTokenChar c = true) :
    isPrintable c = true :=
  of_alphanum_or_mem (P := fun c => isPrintable c = true) h (by decide +kernel)
    (List.forall_mem_of_all (by decide +kernel))

theorem isBase64Char_spec {c : Char} (h : isBase64Char c = true) :
    isPrintable c = true ∧ c ≠ ':' :=
  of_alphanum_or_mem (P := fun c => isPrintable c = true ∧ c ≠ ':') h (by decide +kernel)
    (List.forall_mem_of_all (by decide +kernel))

theorem isTokenChar_of_isDigit {c : Char} (h : c.isDigit = true) : isTokenChar c = true := by
  simp [isTokenChar, Char.isAlphanum, h]

theorem isTokenChar_of_isTokenStart {c : Char} (h : isTokenStart c = true) :
    isTokenChar c = true := by
  cases Bool.or_eq_true_iff.mp h with
  | inl halpha => simp [isTokenChar, Char.isAlphanum, halpha]
  | inr hstar =>
    rw [beq_iff_eq.mp hstar]
    decide

theorem isDigit_ne_minus {c : Char} (h : c.isDigit = true) : c ≠ '-' := by
  rintro rfl
  exact absurd h (by decide)

/-- What starts a token starts nothing else. -/
theorem isTokenStart_spec {c : Char} (h : isTokenStart c = true) :
    c ≠ '-' ∧ c.isDigit = false ∧ c ≠ '"' := by
  have hplain : ∀ d : Char, isTokenStart d = false → c ≠ d := by
    rintro d hd rfl
    rw [h] at hd
    cases hd
  refine ⟨hplain _ (by decide), ?_, hplain _ (by decide)⟩
  exact of_alphanum_or_mem (P := fun c => isTokenStart c = true → c.isDigit = false)
    (isTokenChar_of_isTokenStart h) (by decide +kernel)
    (List.forall_mem_of_all (by decide +kernel)) h

theorem Ends.not_digit (h : Ends rest) : ∀ c ∈ rest.head?, c.isDigit = false := by
  intro c hc
  by_contra hdigit
  have := h c hc
  rw [isTokenChar_of_isDigit (Bool.not_eq_false _ ▸ hdigit)] at this
  cases this

theorem isDigits_iff {max : Nat} {cs : List Char} :
    isDigits max cs = true ↔ cs ≠ [] ∧ cs.length ≤ max ∧ ∀ c ∈ cs, c.isDigit = true := by
  simp [isDigits, and_assoc]

/-! ## Numbers

Digits end where something else begins, and what follows a number must not continue it.
-/

/-- Digits up to something that is no digit. A decimal point would make it a decimal, and `Ends`
    excludes one, since a point may be in a token. -/
theorem parseDigits_integer {negative : Bool} {whole : List Char}
    (h : isDigits 15 whole = true) (hrest : Ends rest) :
    parseDigits L negative (whole ++ rest) =
      some (.integer (if negative then -(Nat.ofDigitChars 10 whole 0 : Int)
        else (Nat.ofDigitChars 10 whole 0 : Int)), rest) := by
  have hdigits := (isDigits_iff.mp h).2.2
  unfold parseDigits
  rw [List.takeWhile_run hdigits hrest.not_digit, List.dropWhile_run hdigits hrest.not_digit]
  -- the digits do not end at a point
  cases rest with
  | nil => exact if_pos h
  | cons c rest =>
    have hc : c ≠ '.' := by
      rintro rfl
      exact absurd (hrest '.' rfl) (by decide)
    simp [h, hc]

theorem DecimalLiteral.of?_self (l : DecimalLiteral) : of? l.negative l.whole l.frac = some l :=
  dif_pos ⟨l.whole_digits, l.frac_digits⟩

/-- A decimal is read from its literal: whole part, point, fraction. -/
theorem parseDigits_literal (l : DecimalLiteral) (hrest : Ends rest) :
    parseDigits L l.negative (l.whole ++ '.' :: (l.frac ++ rest)) =
      some (.decimal (L.readDecimal l), rest) := by
  have hwhole := (isDigits_iff.mp l.whole_digits).2.2
  have hfrac := (isDigits_iff.mp l.frac_digits).2.2
  have hpoint : ∀ c ∈ ('.' :: (l.frac ++ rest)).head?, c.isDigit = false := by
    intro c hc
    obtain rfl := Option.some.inj hc
    decide
  unfold parseDigits
  rw [List.takeWhile_run hwhole hpoint, List.dropWhile_run hwhole hpoint]
  show (DecimalLiteral.of? _ _ ((l.frac ++ rest).takeWhile _)).map _ = _
  rw [List.takeWhile_run hfrac hrest.not_digit, List.dropWhile_run hfrac hrest.not_digit,
    l.of?_self]
  rfl

/-- A number is read after its sign, if it has one. -/
theorem parseBareItem_number {negative : Bool} {max : Nat} {whole : List Char}
    (h : isDigits max whole = true) :
    parseBareItem L ((if negative then ['-'] else []) ++ (whole ++ rest)) =
      parseDigits L negative (whole ++ rest) := by
  cases negative with
  | true => rfl
  | false =>
    obtain ⟨hne, -, hdigits⟩ := isDigits_iff.mp h
    obtain ⟨c, cs, rfl⟩ := List.exists_cons_of_ne_nil hne
    have hc := hdigits c List.mem_cons_self
    show parseBareItem L (c :: (cs ++ rest)) = _
    rw [parseBareItem, if_neg (isDigit_ne_minus hc), if_pos hc]
    rfl

theorem isDigits_toDigits {n : Nat} (h : n < 10 ^ 15) :
    isDigits 15 (Nat.toDigits 10 n) = true := by
  refine isDigits_iff.mpr ⟨Nat.toDigits_ne_nil, ?_, ?_⟩
  · exact (Nat.length_toDigits_le_iff (by decide) (by decide)).mpr h
  · exact fun c hc => Nat.isDigit_of_mem_toDigits (by decide) (by decide) hc

/-- The text of an integer is that of its absolute value after its sign. -/
theorem toList_toString (n : Int) :
    (toString n).toList =
      (if decide (n < 0) then ['-'] else []) ++ Nat.toDigits 10 n.natAbs := by
  cases n with
  | ofNat n => simp [toString, Int.repr]
  | negSucc n => simp [toString, Int.repr, Int.negSucc_lt_zero]

/-! ## Strings, tokens and byte sequences

A string is read up to the quote that ends it, with escapes for a quote and a backslash; a token
as far as its characters go.
-/

@[simp] theorem parseString_quote (input : List Char) :
    parseString ('"' :: input) = some ([], input) := by
  rw [parseString.eq_def]
  exact if_pos rfl

@[simp] theorem parseBareItem_quote (input : List Char) :
    parseBareItem L ('"' :: input) =
      (parseString input).map fun p => (.string (String.ofList p.1), p.2) := by
  rw [parseBareItem, if_neg (by decide), if_neg (by decide), if_pos rfl]

theorem parseString_escaped {c : Char} (h : c = '"' ∨ c = '\\') (input : List Char) :
    parseString ('\\' :: c :: input) = (parseString input).map fun p => (c :: p.1, p.2) := by
  rw [parseString.eq_def]
  exact if_pos h

/-- A character that needs no escape stands for itself. -/
theorem parseString_plain {c : Char} (h : ¬(c = '"' ∨ c = '\\')) (hc : isPrintable c = true)
    (input : List Char) :
    parseString (c :: input) = (parseString input).map fun p => (c :: p.1, p.2) := by
  rw [parseString.eq_def]
  dsimp only
  rw [if_neg fun heq => h (.inl heq), if_neg fun heq => h (.inr heq), if_pos hc]

/-- By induction on the string: each character is one turn of the parser, or two if it is escaped.
    -/
theorem parseString_escape {cs : List Char} (h : ∀ c ∈ cs, isPrintable c = true) :
    parseString (escape cs ++ '"' :: rest) = some (cs, rest) := by
  induction cs with
  | nil => exact parseString_quote rest
  | cons c cs ih =>
    obtain ⟨hc, hcs⟩ := List.forall_mem_cons.mp h
    rw [escape]
    split
    · rename_i hspecial
      rw [List.cons_append, List.cons_append, parseString_escaped hspecial, ih hcs]
      rfl
    · rename_i hplain
      rw [List.cons_append, parseString_plain hplain hc, ih hcs]
      rfl

theorem parseByteSeq_write (hL : L.Lawful) (b : List UInt8) :
    parseByteSeq L (L.encodeBase64 b ++ ':' :: rest) = some (.byteSeq b, rest) := by
  have hcolon : ':' ∉ L.encodeBase64 b := by
    intro h
    exact (isBase64Char_spec (hL.alphabet b _ h)).2 rfl
  unfold parseByteSeq
  rw [List.splitOnce_append hcolon]
  dsimp only
  rw [if_pos (List.all_eq_true.mpr (hL.alphabet b)), hL.decode_encode]
  rfl

/-- **What is written is read back**, and the input after it is left. -/
theorem parseBareItem_write (hL : L.Lawful) {i : BareItem δ} (hi : i.WellFormed L)
    (hrest : Ends rest) : parseBareItem L (writeBareItem L i ++ rest) = some (i, rest) := by
  cases i with
  | integer n =>
    have hdigits := isDigits_toDigits hi
    rw [writeBareItem, toList_toString, List.append_assoc, parseBareItem_number hdigits,
      parseDigits_integer hdigits hrest, Nat.ofDigitChars_ten_toDigits]
    by_cases hneg : n < 0
    · simp only [hneg, decide_true, if_true]
      rw [show -(n.natAbs : Int) = n by omega]
    · simp only [hneg, decide_false, Bool.false_eq_true, if_false]
      rw [show (n.natAbs : Int) = n by omega]
  | decimal d =>
    obtain ⟨l, rfl⟩ := hi
    obtain ⟨l', htext, hread⟩ := hL.show_read l
    rw [writeBareItem, htext, DecimalLiteral.text, List.append_assoc, List.append_assoc,
      parseBareItem_number l'.whole_digits, List.cons_append, parseDigits_literal l' hrest, hread]
  | string s =>
    rw [writeBareItem, List.cons_append, parseBareItem_quote, List.append_assoc,
      List.singleton_append, parseString_escape hi]
    simp
  | token t =>
    obtain ⟨c, cs, heq, hstart, hcs⟩ := hi
    obtain ⟨hminus, hdigit, hquote⟩ := isTokenStart_spec hstart
    rw [writeBareItem, heq, List.cons_append, parseBareItem, if_neg hminus,
      if_neg (by simp [hdigit]), if_neg hquote, if_pos hstart, List.takeWhile_run hcs hrest,
      List.dropWhile_run hcs hrest, ← heq, String.ofList_toList]
  | byteSeq b =>
    rw [writeBareItem, List.cons_append, parseBareItem, if_neg (by decide), if_neg (by decide),
      if_neg (by decide), if_neg (by decide), if_pos rfl, List.append_assoc,
      List.singleton_append, parseByteSeq_write hL]
  | boolean b => cases b <;> rfl

/-! ## What is read

The other way round: whatever is read could have been written.
-/

theorem ofDigitChars_lt {cs : List Char} (h : ∀ c ∈ cs, c.isDigit = true) (init : Nat) :
    Nat.ofDigitChars 10 cs init < (init + 1) * 10 ^ cs.length := by
  induction cs generalizing init with
  | nil => simp
  | cons c cs ih =>
    obtain ⟨hc, hcs⟩ := List.forall_mem_cons.mp h
    have hdigit : c.toNat - '0'.toNat < 10 := by
      have hnine := (Char.isDigit_iff_toNat.mp hc).2
      rw [show '9'.toNat = 57 from rfl] at hnine
      rw [show '0'.toNat = 48 from rfl]
      omega
    rw [Nat.ofDigitChars_cons, List.length_cons]
    apply Nat.lt_of_lt_of_le (ih hcs _)
    rw [Nat.pow_succ', ← Nat.mul_assoc]
    exact Nat.mul_le_mul_right _ (by omega)

/-- What follows a character that was read was read itself. -/
theorem parsed_cons {c : Char} {input cs rest : List Char}
    (h : (parseString input).map (fun p => (c :: p.1, p.2)) = some (cs, rest)) :
    ∃ cs', cs = c :: cs' ∧ parseString input = some (cs', rest) := by
  obtain ⟨p, hp, heq⟩ := Option.map_eq_some_iff.mp h
  obtain ⟨rfl, rfl⟩ := Prod.mk.inj heq
  exact ⟨p.1, rfl, hp⟩

/-- The first character ends a string, is an escape, or stands for itself. -/
theorem parseString_cases {c : Char} {input cs rest : List Char}
    (h : parseString (c :: input) = some (cs, rest)) :
    (c = '"' ∧ cs = [] ∧ rest = input) ∨
      (c = '\\' ∧ ∃ d input' cs', input = d :: input' ∧ (d = '"' ∨ d = '\\') ∧ cs = d :: cs' ∧
        parseString input' = some (cs', rest)) ∨
      (c ≠ '"' ∧ c ≠ '\\' ∧ isPrintable c = true ∧ ∃ cs', cs = c :: cs' ∧
        parseString input = some (cs', rest)) := by
  rw [parseString.eq_def] at h
  dsimp only at h
  split at h
  · rename_i hquote
    obtain ⟨rfl, rfl⟩ := Prod.mk.inj (Option.some.inj h)
    exact .inl ⟨hquote, rfl, rfl⟩
  split at h
  · rename_i hslash
    cases input with
    | nil => cases h
    | cons d input =>
      dsimp only at h
      split at h
      · rename_i hspecial
        obtain ⟨cs', rfl, hrest⟩ := parsed_cons h
        exact .inr (.inl ⟨hslash, d, input, cs', rfl, hspecial, rfl, hrest⟩)
      · cases h
  split at h
  · rename_i hquote hslash hprintable
    obtain ⟨cs', rfl, hrest⟩ := parsed_cons h
    exact .inr (.inr ⟨hquote, hslash, hprintable, cs', rfl, hrest⟩)
  · cases h

theorem parseString_printable {input cs : List Char} (h : parseString input = some (cs, rest)) :
    ∀ c ∈ cs, isPrintable c = true := by
  -- an escape takes two characters, so the induction is on the length
  induction hn : input.length using Nat.strong_induction_on generalizing input cs with
  | _ n ih =>
    cases input with
    | nil => cases h
    | cons c input =>
      rw [List.length_cons] at hn
      rcases parseString_cases h with ⟨-, rfl, -⟩ |
        ⟨-, d, input', cs', rfl, hd, rfl, hrest⟩ | ⟨-, -, hc, cs', rfl, hrest⟩
      · exact fun c hc => absurd hc List.not_mem_nil
      · rw [List.length_cons] at hn
        refine List.forall_mem_cons.mpr ⟨?_, ih input'.length (by omega) hrest rfl⟩
        rcases hd with rfl | rfl <;> decide
      · exact List.forall_mem_cons.mpr ⟨hc, ih input.length (by omega) hrest rfl⟩

/-- The digits are bounded in number, and so is what they spell. -/
theorem parseDigits_wellFormed {negative : Bool} {input : List Char} {i : BareItem δ}
    (h : parseDigits L negative input = some (i, rest)) : i.WellFormed L := by
  simp only [parseDigits] at h
  split at h
  · obtain ⟨l, -, heq⟩ := Option.map_eq_some_iff.mp h
    rw [← (Prod.mk.inj heq).1]
    exact ⟨l, rfl⟩
  · split at h
    · rename_i hdigits
      obtain ⟨-, hlength, hdigits⟩ := isDigits_iff.mp hdigits
      have hlt := ofDigitChars_lt hdigits 0
      have hle := Nat.pow_le_pow_right (show 0 < 10 by decide) hlength
      rw [← (Prod.mk.inj (Option.some.inj h)).1]
      cases negative with
      | true =>
        show (-(_ : Int)).natAbs < 10 ^ 15
        omega
      | false =>
        show ((_ : Nat) : Int).natAbs < 10 ^ 15
        omega
    · cases h

/-- **What is read is well formed.** -/
theorem parseBareItem_wellFormed {input : List Char} {i : BareItem δ}
    (h : parseBareItem L input = some (i, rest)) : i.WellFormed L := by
  cases input with
  | nil => cases h
  | cons c input =>
    rw [parseBareItem] at h
    split at h
    · exact parseDigits_wellFormed h
    split at h
    · exact parseDigits_wellFormed h
    split at h
    · obtain ⟨p, hp, heq⟩ := Option.map_eq_some_iff.mp h
      rw [← (Prod.mk.inj heq).1]
      show ∀ c ∈ (String.ofList p.1).toList, _
      rw [String.toList_ofList]
      exact parseString_printable hp
    split at h
    · rename_i hstart
      rw [← (Prod.mk.inj (Option.some.inj h)).1]
      exact ⟨c, _, String.toList_ofList, hstart, fun d hd => List.mem_takeWhile_imp hd⟩
    split at h
    · unfold parseByteSeq at h
      split at h
      · cases h
      split at h
      · obtain ⟨b, -, heq⟩ := Option.map_eq_some_iff.mp h
        rw [← (Prod.mk.inj heq).1]
        trivial
      · cases h
    split at h
    · unfold parseBoolean at h
      split at h
      · rw [← (Prod.mk.inj (Option.some.inj h)).1]
        trivial
      · rw [← (Prod.mk.inj (Option.some.inj h)).1]
        trivial
      · cases h
    · cases h

/-! ## Items -/

theorem parseParameters_none {fuel : Nat} {params : Parameters δ} (h : ∀ c ∈ rest.head?, c ≠ ';') :
    parseParameters L fuel params rest = some (params, rest) := by
  cases rest with
  | nil => cases fuel <;> rfl
  | cons c rest =>
    have hc := h c rfl
    cases fuel <;> simp [parseParameters, hc]

theorem parseParameters_semicolon {fuel : Nat} {params : Parameters δ} :
    parseParameters L (fuel + 1) params (';' :: rest) =
      (parseParameter L params rest).bind fun p => parseParameters L fuel p.1 p.2 := rfl

/-- An item is a bare item and the parameters after it. -/
theorem parseItem_eq_some {input : List Char} {item : Item δ}
    (h : parseItem L input = some (item, rest)) :
    ∃ mid, parseBareItem L input = some (item.bareItem, mid) ∧
      parseParameters L mid.length [] mid = some (item.params, rest) := by
  obtain ⟨⟨i, mid⟩, hbare, h⟩ := Option.bind_eq_some_iff.mp h
  obtain ⟨⟨params, after⟩, hparams, h⟩ := Option.bind_eq_some_iff.mp h
  obtain ⟨rfl, rfl⟩ := Prod.mk.inj (Option.some.inj h)
  exact ⟨mid, hbare, hparams⟩

end StructuredFields
