import Cat.Lib.Cbor.Value
import Cat.Lib.Splitting
import Cat.Uri.Paths

/-!
# The token taken out of a URI

Query parameters are cut at `&`, and those whose name, decoded, is one of the given names are
left out. A name is decoded by `u8::from_str_radix`, and that takes a plus sign before the
digits: to it `%+9` is an escape. So a name with such a piece is not the name it spells, and
`stripTokenFromUri_iff` says when that matters. For the names that keep a cache key free of
tokens it never does.

Escapes are decoded by a loop that is given the meaning of two bytes behind a percent sign, and
the code's meaning and the intended one are two arguments to the same loop. The difference is
then a matter of single escapes: a sign is read as a zero (`decodeEscapes_signs`), so the
decoded names differ in a control character against a percent sign and two bytes.

What is asked of the function is twofold, that the named parameters are gone and that everything
else is as it was, byte for byte and in order. Either can fail through such an escape, and the
condition for both together is that no parameter changes sides.
-/

set_option autoImplicit false

open Cbor

namespace Cat

/-! ## The code -/

/-- The digit that the byte is. -/
def hexDigitVal (b : UInt8) : Option Nat := hexVal (Char.ofNat b.toNat)

/-- `u8::from_str_radix` to base 16, of two bytes: a plus sign may be in the first one's place. -/
def fromStrRadix16 (hi lo : UInt8) : Option UInt8 :=
  if hi = 0x2b then (hexDigitVal lo).map UInt8.ofNat
  else (hexDigitVal hi).bind fun h => (hexDigitVal lo).map fun l => UInt8.ofNat (h * 16 + l)

/-- A `%` and two bytes that `escape` reads are one byte; every other byte is itself. -/
def decodeEscapes (escape : UInt8 → UInt8 → Option UInt8) : Bytes → Bytes
  | b :: hi :: lo :: rest =>
    if b = 0x25 then
      match escape hi lo with
      | some byte => byte :: decodeEscapes escape rest
      | none => b :: decodeEscapes escape (hi :: lo :: rest)
    else b :: decodeEscapes escape (hi :: lo :: rest)
  | b :: rest => b :: decodeEscapes escape rest
  | [] => []

/-- What is not UTF-8 once decoded stays as it is. -/
def percentDecode (s : String) : String :=
  (ofUtf8? (decodeEscapes fromStrRadix16 (utf8 s))).getD s

/-- What is before the first `=`, the whole parameter if there is none. -/
def paramKey (param : List Char) : String :=
  String.ofList (((param.splitOnce '=').map Prod.fst).getD param)

def stripTokenFromUri (uri : String) (paramNames : List String) : String :=
  match uri.toList.splitOnce '?' with
  | some (base, query) =>
    let filtered := (query.splitOn '&').filter fun param =>
      !paramNames.contains (percentDecode (paramKey param))
    if filtered.isEmpty then String.ofList base
    else String.ofList (base ++ '?' :: ['&'].intercalate filtered)
  | none => uri

def sanitizeUriForCache (uri : String) : String :=
  stripTokenFromUri uri ["cat", "token", "access_token"]

/-! ## What it is for -/

/-- Two hexadecimal digits. -/
def hexPair (hi lo : UInt8) : Option UInt8 :=
  (hexDigitVal hi).bind fun h => (hexDigitVal lo).map fun l => UInt8.ofNat (h * 16 + l)

/-- The name that a key spells, an escape being a `%` and two digits. -/
def decodedName (key : String) : String := (ofUtf8? (decodeEscapes hexPair (utf8 key))).getD key

/-- The query parameters, as they are written. -/
def queryParams (uri : String) : List (List Char) :=
  match uri.toList.splitOnce '?' with
  | some (_, query) => query.splitOn '&'
  | none => []

/-- Everything before the first question mark. -/
def beforeQuery (uri : String) : List Char :=
  match uri.toList.splitOnce '?' with
  | some (base, _) => base
  | none => uri.toList

/-- The named parameters are taken out and nothing else is touched. -/
structure StripsExactly (uri : String) (names : List String) : Prop where
  removed : ∀ param ∈ queryParams (stripTokenFromUri uri names),
    decodedName (paramKey param) ∉ names
  kept : queryParams (stripTokenFromUri uri names) =
    (queryParams uri).filter fun param => decodedName (paramKey param) ∉ names
  base : beforeQuery (stripTokenFromUri uri names) = beforeQuery uri
  again : stripTokenFromUri (stripTokenFromUri uri names) names = stripTokenFromUri uri names

/-- Every `%+h` written `%0h`. -/
def signsAsZeros : Bytes → Bytes
  | b :: hi :: lo :: rest =>
    if b = 0x25 ∧ hi = 0x2b ∧ (hexDigitVal lo).isSome then b :: 0x30 :: lo :: signsAsZeros rest
    else b :: signsAsZeros (hi :: lo :: rest)
  | b :: rest => b :: signsAsZeros rest
  | [] => []

/-- The name that a key spells where `%+h` is the escape `%0h`. -/
def signedName (key : String) : String :=
  (ofUtf8? (decodeEscapes hexPair (signsAsZeros (utf8 key)))).getD key

/-! ## Escapes -/

section
variable {escape : UInt8 → UInt8 → Option UInt8} {b hi lo : UInt8} {bs rest : Bytes}

theorem decodeEscapes_cons (h : b = 0x25 → ∀ hi lo rest, bs = hi :: lo :: rest →
    escape hi lo = none) : decodeEscapes escape (b :: bs) = b :: decodeEscapes escape bs := by
  cases bs with
  | nil => rfl
  | cons hi bs =>
    cases bs with
    | nil => rfl
    | cons lo rest =>
      rw [decodeEscapes]
      split
      · rename_i hb
        rw [h hb hi lo rest rfl]
      · rfl

theorem decodeEscapes_escape {byte : UInt8} (h : escape hi lo = some byte) :
    decodeEscapes escape (0x25 :: hi :: lo :: rest) = byte :: decodeEscapes escape rest := by
  rw [decodeEscapes, if_pos rfl, h]

theorem decodeEscapes_none (h : escape hi lo = none) :
    decodeEscapes escape (0x25 :: hi :: lo :: rest) =
      0x25 :: decodeEscapes escape (hi :: lo :: rest) := by
  rw [decodeEscapes.eq_1, if_pos rfl, h]

theorem signsAsZeros_cons (h : b = 0x25 → ∀ hi lo rest, bs = hi :: lo :: rest →
    ¬(hi = 0x2b ∧ (hexDigitVal lo).isSome)) :
    signsAsZeros (b :: bs) = b :: signsAsZeros bs := by
  cases bs with
  | nil => rfl
  | cons hi bs =>
    cases bs with
    | nil => rfl
    | cons lo rest => rw [signsAsZeros, if_neg fun hsign => h hsign.1 hi lo rest rfl hsign.2]

theorem signsAsZeros_cons_ne (h : b ≠ 0x25) : signsAsZeros (b :: bs) = b :: signsAsZeros bs :=
  signsAsZeros_cons fun hb => absurd hb h

theorem signsAsZeros_plain (h : 0x25 ∉ bs) : signsAsZeros bs = bs := by
  induction bs with
  | nil => rfl
  | cons b bs ih =>
    rw [List.mem_cons, not_or] at h
    rw [signsAsZeros_cons_ne (Ne.symm h.1), ih h.2]

theorem head_signsAsZeros (b : UInt8) (bs : Bytes) :
    ∃ tail, signsAsZeros (b :: bs) = b :: tail := by
  cases bs with
  | nil => exact ⟨_, rfl⟩
  | cons hi bs =>
    cases bs with
    | nil => exact ⟨_, rfl⟩
    | cons lo rest =>
      rw [signsAsZeros]
      split
      · exact ⟨_, rfl⟩
      · exact ⟨_, rfl⟩

theorem ne_percent_of_digit (h : (hexDigitVal b).isSome) : b ≠ 0x25 := by
  rintro rfl
  exact absurd h (by decide)

theorem ne_plus_of_digit (h : (hexDigitVal b).isSome) : b ≠ 0x2b := by
  rintro rfl
  exact absurd h (by decide)

theorem fromStrRadix16_sign (lo : UInt8) :
    fromStrRadix16 0x2b lo = (hexDigitVal lo).map UInt8.ofNat := if_pos rfl

theorem signsAsZeros_none (h : fromStrRadix16 hi lo = none) :
    signsAsZeros (0x25 :: hi :: lo :: rest) = 0x25 :: signsAsZeros (hi :: lo :: rest) := by
  rw [signsAsZeros.eq_1, if_neg]
  rintro ⟨-, rfl, hdigit⟩
  rw [fromStrRadix16_sign, Option.map_eq_none_iff] at h
  rw [h] at hdigit
  cases hdigit

theorem fromStrRadix16_ne (h : hi ≠ 0x2b) : fromStrRadix16 hi lo = hexPair hi lo := if_neg h

theorem hexPair_zero (lo : UInt8) : hexPair 0x30 lo = (hexDigitVal lo).map UInt8.ofNat := by
  have hzero : hexDigitVal 0x30 = some 0 := by decide
  simp only [hexPair, hzero, Option.bind_some, Nat.zero_mul, Nat.zero_add]

theorem hexPair_isSome {byte : UInt8} (h : hexPair hi lo = some byte) :
    (hexDigitVal hi).isSome ∧ (hexDigitVal lo).isSome := by
  obtain ⟨m, hm, hrest⟩ := Option.bind_eq_some_iff.mp h
  obtain ⟨n, hn, -⟩ := Option.map_eq_some_iff.mp hrest
  rw [hm, hn]
  exact ⟨rfl, rfl⟩

/-- An escape of two digits has no sign in it. -/
theorem signsAsZeros_escape {byte : UInt8} (h : hexPair hi lo = some byte) :
    signsAsZeros (0x25 :: hi :: lo :: rest) = 0x25 :: hi :: lo :: signsAsZeros rest := by
  obtain ⟨hhi, hlo⟩ := hexPair_isSome h
  rw [signsAsZeros, if_neg fun h => ne_plus_of_digit hhi h.2.1,
    signsAsZeros_cons_ne (ne_percent_of_digit hhi), signsAsZeros_cons_ne (ne_percent_of_digit hlo)]

/-- **A sign is read as a zero.** -/
theorem decodeEscapes_signs (bs : Bytes) :
    decodeEscapes fromStrRadix16 bs = decodeEscapes hexPair (signsAsZeros bs) := by
  induction bs using decodeEscapes.induct fromStrRadix16 with
  | case1 hi lo rest byte hbyte ih =>
    rw [decodeEscapes_escape hbyte, ih]
    by_cases hsign : hi = 0x2b
    · subst hsign
      have hdigit : (hexDigitVal lo).isSome := by
        rw [fromStrRadix16_sign, Option.map_eq_some_iff] at hbyte
        obtain ⟨n, hn, -⟩ := hbyte
        rw [hn]
        rfl
      rw [signsAsZeros, if_pos ⟨rfl, rfl, hdigit⟩, decodeEscapes_escape]
      rw [hexPair_zero, ← fromStrRadix16_sign, hbyte]
    · rw [fromStrRadix16_ne hsign] at hbyte
      rw [signsAsZeros_escape hbyte, decodeEscapes_escape hbyte]
  | case2 hi lo rest hnone ih =>
    rw [signsAsZeros_none hnone, decodeEscapes_none hnone, ih, decodeEscapes_cons]
    intro _ hi' lo' rest' heq
    obtain ⟨tail, htail⟩ := head_signsAsZeros hi (lo :: rest)
    cases hpair : hexPair hi' lo' with
    | none => rfl
    | some byte =>
      -- The first digit is no `%`, so the second one is the byte behind it as well.
      have hhi : hi = hi' := List.head_eq_of_cons_eq (htail.symm.trans heq)
      subst hhi
      rw [signsAsZeros_cons_ne (ne_percent_of_digit (hexPair_isSome hpair).1)] at heq
      obtain ⟨tail', htail'⟩ := head_signsAsZeros lo rest
      rw [htail'] at heq
      obtain rfl : lo = lo' := List.head_eq_of_cons_eq (List.tail_eq_of_cons_eq heq)
      rw [fromStrRadix16_ne (ne_plus_of_digit (hexPair_isSome hpair).1), hpair] at hnone
      cases hnone
  | case3 b hi lo rest hb ih =>
    have hne : ∀ P : Prop, b = 0x25 → P := fun P h => absurd h hb
    rw [signsAsZeros_cons_ne hb, decodeEscapes_cons fun h => hne _ h, ih,
      decodeEscapes_cons fun h => hne _ h]
  | case4 b rest hshort ih =>
    cases rest with
    | nil => rfl
    | cons hi rest =>
      cases rest with
      | nil => rfl
      | cons lo rest => exact absurd rfl (hshort hi lo rest)
  | case5 => rfl

end

theorem percentDecode_eq (key : String) : percentDecode key = signedName key := by
  rw [percentDecode, decodeEscapes_signs]
  rfl

/-! ## Parameters -/

/-- The URI with these parameters behind `base`. -/
def withQuery (base : List Char) (params : List (List Char)) : String :=
  if params.isEmpty then String.ofList base
  else String.ofList (base ++ '?' :: ['&'].intercalate params)

section
variable {base query : List Char} {params : List (List Char)} {uri : String}

theorem splitOnce_withQuery (hbase : '?' ∉ base) (hne : params ≠ []) :
    (withQuery base params).toList.splitOnce '?' = some (base, ['&'].intercalate params) := by
  rw [withQuery, if_neg (by simpa using hne), String.toList_ofList, List.splitOnce_append hbase]

theorem splitOnce_withQuery_nil (hbase : '?' ∉ base) :
    (withQuery base []).toList.splitOnce '?' = none := by
  rw [withQuery, List.isEmpty_nil, if_pos rfl, String.toList_ofList,
    List.splitOnce_eq_none.mpr hbase]

theorem queryParams_withQuery (hbase : '?' ∉ base) (hparams : ∀ p ∈ params, '&' ∉ p) :
    queryParams (withQuery base params) = params := by
  by_cases hne : params = []
  · rw [hne, queryParams, splitOnce_withQuery_nil hbase]
  · rw [queryParams, splitOnce_withQuery hbase hne]
    exact List.splitOn_intercalate '&' hparams hne

theorem beforeQuery_withQuery (hbase : '?' ∉ base) (params : List (List Char)) :
    beforeQuery (withQuery base params) = base := by
  by_cases hne : params = []
  · rw [hne, beforeQuery, splitOnce_withQuery_nil hbase]
    exact String.toList_ofList
  · rw [beforeQuery, splitOnce_withQuery hbase hne]

/-- Whether the code keeps the parameter. -/
def keepsParam (names : List String) (param : List Char) : Bool :=
  !names.contains (percentDecode (paramKey param))

theorem keepsParam_eq_true {names : List String} {param : List Char} :
    keepsParam names param = true ↔ signedName (paramKey param) ∉ names := by
  rw [keepsParam, Bool.not_eq_true', ← Bool.not_eq_true, List.contains_iff_mem, percentDecode_eq]

/-- A URI has no question mark and stays as it is, or the parameters behind its first one are
filtered. -/
theorem stripTokenFromUri_cases (uri : String) (names : List String) :
    (queryParams uri = [] ∧ stripTokenFromUri uri names = uri) ∨
    ('?' ∉ beforeQuery uri ∧ (∀ p ∈ queryParams uri, '&' ∉ p) ∧
      stripTokenFromUri uri names =
        withQuery (beforeQuery uri) ((queryParams uri).filter (keepsParam names))) := by
  unfold stripTokenFromUri queryParams beforeQuery
  cases hsplit : uri.toList.splitOnce '?' with
  | none => exact .inl ⟨rfl, rfl⟩
  | some parts =>
    obtain ⟨base, query⟩ := parts
    exact .inr ⟨(List.splitOnce_eq_some.mp hsplit).2, fun _ => List.not_mem_of_mem_splitOn, rfl⟩

theorem beforeQuery_strip (uri : String) (names : List String) :
    beforeQuery (stripTokenFromUri uri names) = beforeQuery uri := by
  rcases stripTokenFromUri_cases uri names with ⟨-, hstrip⟩ | ⟨hbase, -, hstrip⟩
  · rw [hstrip]
  · rw [hstrip, beforeQuery_withQuery hbase]

theorem queryParams_strip (uri : String) (names : List String) :
    queryParams (stripTokenFromUri uri names) = (queryParams uri).filter (keepsParam names) := by
  rcases stripTokenFromUri_cases uri names with ⟨hnil, hstrip⟩ | ⟨hbase, hparams, hstrip⟩
  · rw [hstrip, hnil, List.filter_nil]
  · rw [hstrip]
    exact queryParams_withQuery hbase fun p hp => hparams p (List.mem_of_mem_filter hp)

theorem strip_strip (uri : String) (names : List String) :
    stripTokenFromUri (stripTokenFromUri uri names) names = stripTokenFromUri uri names := by
  rcases stripTokenFromUri_cases uri names with ⟨-, hsame⟩ | ⟨-, -, hfirst⟩
  · rw [hsame, hsame]
  · rcases stripTokenFromUri_cases (stripTokenFromUri uri names) names with
      ⟨-, hsame⟩ | ⟨-, -, hsecond⟩
    · exact hsame
    · rw [hsecond, beforeQuery_strip, queryParams_strip, List.filter_filter, hfirst]
      simp only [Bool.and_self]

/-- **Only the named parameters are taken out, and all of them, exactly if** no sign before a digit
changes which of the parameters are named.

Names are compared as they decode, and the decoder reads two hexadecimal digits with a function for
numbers, which takes a sign: `%+1` is read like `%01`. The names that the crate strips have no
characters that could come of it. -/
theorem stripTokenFromUri_iff (uri : String) (names : List String) :
    StripsExactly uri names ↔ ∀ param ∈ queryParams uri,
      (signedName (paramKey param) ∈ names ↔ decodedName (paramKey param) ∈ names) := by
  have hkept : queryParams (stripTokenFromUri uri names) =
        (queryParams uri).filter (fun param => decodedName (paramKey param) ∉ names) ↔
      ∀ param ∈ queryParams uri,
        (signedName (paramKey param) ∈ names ↔ decodedName (paramKey param) ∈ names) := by
    rw [queryParams_strip, List.filter_eq_filter_iff]
    simp only [keepsParam_eq_true, decide_eq_true_eq, not_iff_not]
  rw [← hkept]
  constructor
  · exact StripsExactly.kept
  · intro h
    refine ⟨fun param hparam => ?_, h, beforeQuery_strip uri names, strip_strip uri names⟩
    rw [h] at hparam
    simpa using (List.mem_filter.mp hparam).2

end

theorem stripTokenFromUri_keeps_named :
    '#' ∉ "/live?%+1=secret".toList ∧ ¬StripsExactly "/live?%+1=secret" ["%+1"] := by
  refine ⟨by decide, fun h => ?_⟩
  have hnamed := h.removed "%+1=secret".toList (by decide)
  exact absurd hnamed (by decide)

/-! ## Cache keys -/

section
variable {bs : Bytes} {key name : String}

/-- A sign is a `%` to who takes digits only. -/
theorem signsAsZeros_of_percent_not_mem (h : 0x25 ∉ decodeEscapes hexPair bs) :
    signsAsZeros bs = bs := by
  induction bs using decodeEscapes.induct hexPair with
  | case1 hi lo rest byte hbyte ih =>
    rw [decodeEscapes_escape hbyte, List.mem_cons, not_or] at h
    rw [signsAsZeros_escape hbyte, ih h.2]
  | case2 hi lo rest hnone ih =>
    rw [decodeEscapes_none hnone] at h
    exact absurd List.mem_cons_self h
  | case3 b hi lo rest hb ih =>
    rw [decodeEscapes_cons fun heq => absurd heq hb, List.mem_cons, not_or] at h
    rw [signsAsZeros_cons_ne hb, ih h.2]
  | case4 b rest hshort ih =>
    rw [decodeEscapes_cons fun _ hi lo rest' heq => absurd heq (hshort hi lo rest'),
      List.mem_cons, not_or] at h
    rw [signsAsZeros_cons fun _ hi lo rest' heq => absurd heq (hshort hi lo rest'), ih h.2]
  | case5 => rfl

/-- A sign is a control character to who takes it for a zero. -/
theorem signsAsZeros_of_no_control (h : ∀ b ∈ decodeEscapes fromStrRadix16 bs, 16 ≤ b.toNat) :
    signsAsZeros bs = bs := by
  induction bs using decodeEscapes.induct fromStrRadix16 with
  | case1 hi lo rest byte hbyte ih =>
    rw [decodeEscapes_escape hbyte, List.forall_mem_cons] at h
    by_cases hsign : hi = 0x2b
    · subst hsign
      rw [fromStrRadix16_sign, Option.map_eq_some_iff] at hbyte
      obtain ⟨n, hn, rfl⟩ := hbyte
      have hlt := (hexVal_ok hn).1
      have hle := h.1
      rw [UInt8.toNat_ofNat'] at hle
      omega
    · rw [fromStrRadix16_ne hsign] at hbyte
      rw [signsAsZeros_escape hbyte, ih h.2]
  | case2 hi lo rest hnone ih =>
    rw [decodeEscapes_none hnone, List.forall_mem_cons] at h
    rw [signsAsZeros_none hnone, ih h.2]
  | case3 b hi lo rest hb ih =>
    rw [decodeEscapes_cons fun heq => absurd heq hb, List.forall_mem_cons] at h
    rw [signsAsZeros_cons_ne hb, ih h.2]
  | case4 b rest hshort ih =>
    rw [decodeEscapes_cons fun _ hi lo rest' heq => absurd heq (hshort hi lo rest'),
      List.forall_mem_cons] at h
    rw [signsAsZeros_cons fun _ hi lo rest' heq => absurd heq (hshort hi lo rest'), ih h.2]
  | case5 => rfl

/-- The two readings of a key agree on a name that has neither in it. -/
theorem signedName_iff (h : ∀ b ∈ utf8 name, b ≠ 0x25 ∧ 16 ≤ b.toNat) :
    signedName key = name ↔ decodedName key = name := by
  suffices hplain : signedName key = name ∨ decodedName key = name →
      signsAsZeros (utf8 key) = utf8 key by
    have hsame : signsAsZeros (utf8 key) = utf8 key → signedName key = decodedName key := by
      intro heq
      rw [signedName, heq, decodedName]
    constructor
    · exact fun hs => hsame (hplain (.inl hs)) ▸ hs
    · exact fun hd => (hsame (hplain (.inr hd))).trans hd
  have hraw : key = name → signsAsZeros (utf8 key) = utf8 key := by
    rintro rfl
    exact signsAsZeros_plain fun hb => (h _ hb).1 rfl
  rintro (hs | hd)
  · cases hdecode : ofUtf8? (decodeEscapes hexPair (signsAsZeros (utf8 key))) with
    | none =>
      rw [signedName, hdecode] at hs
      exact hraw hs
    | some text =>
      rw [signedName, hdecode] at hs
      obtain rfl : text = name := hs
      refine signsAsZeros_of_no_control fun b hb => ?_
      rw [decodeEscapes_signs, ofUtf8?_eq_some.mp hdecode] at hb
      exact (h b hb).2
  · cases hdecode : ofUtf8? (decodeEscapes hexPair (utf8 key)) with
    | none =>
      rw [decodedName, hdecode] at hd
      exact hraw hd
    | some text =>
      rw [decodedName, hdecode] at hd
      obtain rfl : text = name := hd
      refine signsAsZeros_of_percent_not_mem fun hb => ?_
      rw [ofUtf8?_eq_some.mp hdecode] at hb
      exact (h _ hb).1 rfl

/-- **No spelling of `cat`, `token` or `access_token` gets into a cache key**, and nothing else is
left out of it. -/
theorem sanitizeUriForCache_exact (uri : String) :
    StripsExactly uri ["cat", "token", "access_token"] := by
  rw [stripTokenFromUri_iff]
  intro param _
  have hname : ∀ name ∈ ["cat", "token", "access_token"],
      ∀ b ∈ utf8 name, b ≠ 0x25 ∧ 16 ≤ b.toNat := by decide +kernel
  constructor
  · intro h
    exact (signedName_iff (hname _ h)).mp rfl ▸ h
  · intro h
    exact (signedName_iff (hname _ h)).mpr rfl ▸ h

end

end Cat
