import Cat.Lib.Splitting
import Cat.Uri
import Mathlib.Order.Basic
import Mathlib.Tactic.SplitIfs

/-!
# Paths, segment by segment

Percent-normalization works on each segment of a path alone and does nothing the second time.
Removal of dot segments leaves a path without them, so it does nothing the second time either;
but what percent-normalization makes of a segment may be a dot segment.

Segments are what the two have in common. A triplet never decodes to a slash, since a slash is
not unreserved, so normalizing a path is normalizing its segments, and what removal keeps are
segments as they were. Hence the one exception, stated of a segment: it is kept, and normalized
it is a dot or two.

The digits of a triplet that stays are made capital. Nothing else changes there, which is why a
second pass finds nothing to do.
-/

set_option autoImplicit false

namespace Cat

/-! ## Triplets

Percent-normalization reads a text in units of a triplet or a character, and its induction
principle has these cases. A percent sign that starts no triplet becomes one: it is written
`%25`.
-/

/-- Two digits stand in front. -/
def startsHex : List Char → Bool
  | hi :: lo :: _ => (hexVal hi).isSome && (hexVal lo).isSome
  | _ => false

/-- What a triplet becomes. -/
def tripletText (h l : Nat) : List Char :=
  if isUnreserved (Char.ofNat (h * 16 + l)) then [Char.ofNat (h * 16 + l)]
  else ['%', toUpperHex h, toUpperHex l]

/-- What a character outside the triplets becomes. -/
def plainText (c : Char) : List Char := if c = '%' then ['%', '2', '5'] else [c]

theorem startsHex_iff {s : List Char} :
    startsHex s = true ↔
      ∃ hi lo rest h l, s = hi :: lo :: rest ∧ hexVal hi = some h ∧ hexVal lo = some l := by
  constructor
  · intro hs
    rcases s with _ | ⟨hi, _ | ⟨lo, rest⟩⟩
    · cases hs
    · cases hs
    · obtain ⟨hhi, hlo⟩ : (hexVal hi).isSome ∧ (hexVal lo).isSome := by simpa [startsHex] using hs
      obtain ⟨h, hh⟩ := Option.isSome_iff_exists.mp hhi
      obtain ⟨l, hl⟩ := Option.isSome_iff_exists.mp hlo
      exact ⟨hi, lo, rest, h, l, rfl, hh, hl⟩
  · rintro ⟨hi, lo, rest, h, l, rfl, hh, hl⟩
    rw [startsHex, hh, hl]
    rfl

theorem normalizePercentEncoding_triplet {hi lo : Char} {h l : Nat} (rest : List Char)
    (hh : hexVal hi = some h) (hl : hexVal lo = some l) :
    normalizePercentEncoding ('%' :: hi :: lo :: rest) =
      tripletText h l ++ normalizePercentEncoding rest := by
  rw [normalizePercentEncoding, hh, hl, tripletText]
  dsimp only
  split <;> rfl

theorem normalizePercentEncoding_plain {c : Char} {rest : List Char}
    (h : ¬(c = '%' ∧ startsHex rest = true)) :
    normalizePercentEncoding (c :: rest) = plainText c ++ normalizePercentEncoding rest := by
  by_cases hc : c = '%'
  · subst hc
    have hnot : ¬startsHex rest = true := fun hs => h ⟨rfl, hs⟩
    rw [plainText, if_pos rfl]
    rcases rest with _ | ⟨hi, _ | ⟨lo, rest⟩⟩
    · rfl
    · rfl
    · rw [normalizePercentEncoding]
      split
      · rename_i h l hh hl
        exact absurd (startsHex_iff.mpr ⟨hi, lo, rest, h, l, rfl, hh, hl⟩) hnot
      · rfl
  · rw [plainText, if_neg hc, normalizePercentEncoding.eq_3 c rest (fun _ _ _ h _ => hc h) hc]
    rfl

/-- Text is read triplet by triplet, and character by character in between. -/
theorem percent_induction {motive : List Char → Prop} (nil : motive [])
    (triplet : ∀ hi lo h l rest, hexVal hi = some h → hexVal lo = some l → motive rest →
      motive ('%' :: hi :: lo :: rest))
    (plain : ∀ c rest, ¬(c = '%' ∧ startsHex rest = true) → motive rest → motive (c :: rest))
    (s : List Char) : motive s := by
  induction hn : s.length using Nat.strongRecOn generalizing s with
  | _ n ih =>
  cases s with
  | nil => exact nil
  | cons c rest =>
    rw [List.length_cons] at hn
    by_cases hc : c = '%' ∧ startsHex rest = true
    · obtain ⟨rfl, hs⟩ := hc
      obtain ⟨hi, lo, rest, h, l, rfl, hh, hl⟩ := startsHex_iff.mp hs
      rw [List.length_cons, List.length_cons] at hn
      exact triplet hi lo h l rest hh hl (ih rest.length (by omega) rest rfl)
    · exact plain c rest hc (ih rest.length (by omega) rest rfl)

/-! ## Digits

What delimits anything is neither a digit nor unreserved, so no triplet reaches over it and none
turns into it. A text can be normalized on either side of a delimiter.
-/

theorem hexVal_ok {c : Char} {h : Nat} (hc : hexVal c = some h) :
    h < 16 ∧ c.toNat < 128 ∧ c ∉ [':', '/', '?', '#', '@', '%'] := by
  have hlt : c.toNat < 128 := by
    have hle : ∀ d : Char, d.toNat < 128 → c ≤ d → c.toNat < 128 := fun d hd h =>
      Nat.lt_of_le_of_lt (Char.le_def.mp h) hd
    unfold hexVal at hc
    split_ifs at hc with h₁ h₂ h₃
    · exact hle '9' (by decide) h₁.2
    · exact hle 'f' (by decide) h₂.2
    · exact hle 'F' (by decide) h₃.2
  have hall : ∀ n : Fin 128, ∀ h ∈ hexVal (Char.ofNat n),
      h < 16 ∧ Char.ofNat n ∉ [':', '/', '?', '#', '@', '%'] := by
    decide +kernel
  have := hall ⟨c.toNat, hlt⟩ h (by rw [Char.ofNat_toNat]; exact hc)
  rw [Char.ofNat_toNat] at this
  exact ⟨this.1, hlt, this.2⟩

theorem hexVal_toUpperHex {h : Nat} (hh : h < 16) : hexVal (toUpperHex h) = some h := by
  have hall : ∀ h : Fin 16, hexVal (toUpperHex h) = some h.val := by decide
  exact hall ⟨h, hh⟩

/-- Nothing that delimits is unreserved. -/
theorem isUnreserved_ok {c : Char} (hc : isUnreserved c = true) :
    c.toNat < 128 ∧ c ∉ [':', '/', '?', '#', '@', '%'] := by
  constructor
  · have hrange {lo hi : Char} (hhi : hi.toNat < 128)
        (h : lo.val ≤ c.val ∧ c.val ≤ hi.val) : c.toNat < 128 :=
      Nat.lt_of_le_of_lt (UInt32.le_iff_toNat_le.mp h.2) hhi
    have hboth {lo hi : Char} (hhi : hi.toNat < 128)
        (h : (decide (c.val ≥ lo.val) && decide (c.val ≤ hi.val)) = true) : c.toNat < 128 := by
      rw [Bool.and_eq_true, decide_eq_true_eq, decide_eq_true_eq] at h
      exact hrange hhi h
    simp only [isUnreserved, Bool.or_eq_true, beq_iff_eq] at hc
    rcases hc with (((halnum | rfl) | rfl) | rfl) | rfl
    · have hletter : (c.isUpper || c.isLower || c.isDigit) = true := halnum
      rw [Bool.or_eq_true, Bool.or_eq_true] at hletter
      rcases hletter with (h | h) | h
      · have hupper : 'A'.val ≤ c.val ∧ c.val ≤ 'Z'.val := of_decide_eq_true h
        exact hrange (by decide) hupper
      · have hlower : (decide (c.val ≥ 'a'.val) && decide (c.val ≤ 'z'.val)) = true := h
        exact hboth (by decide) hlower
      · have hdigit : (decide (c.val ≥ '0'.val) && decide (c.val ≤ '9'.val)) = true := h
        exact hboth (by decide) hdigit
    · decide
    · decide
    · decide
    · decide
  · intro hmem
    have hnone : ∀ c ∈ [':', '/', '?', '#', '@', '%'], isUnreserved c = false :=
      List.forall_mem_of_all (by decide +kernel)
    rw [hnone c hmem] at hc
    cases hc

theorem tripletText_ok {hi lo : Char} {h l : Nat} (hh : hexVal hi = some h)
    (hl : hexVal lo = some l) {c : Char} (hc : c ∈ tripletText h l) :
    c.toNat < 128 ∧ c ∉ [':', '/', '?', '#', '@'] := by
  have hupper : ∀ h, h < 16 → (toUpperHex h).toNat < 128 ∧
      toUpperHex h ∉ [':', '/', '?', '#', '@'] := by
    have hall : ∀ h : Fin 16, (toUpperHex h).toNat < 128 ∧
        toUpperHex h ∉ [':', '/', '?', '#', '@'] := by
      decide
    exact fun h hh => hall ⟨h, hh⟩
  unfold tripletText at hc
  split at hc
  · rename_i hun
    rw [List.mem_singleton.mp hc]
    obtain ⟨hlt, hnot⟩ := isUnreserved_ok hun
    exact ⟨hlt, fun hmem => hnot (List.mem_append_left ['%'] hmem)⟩
  · simp only [List.mem_cons, List.not_mem_nil, or_false] at hc
    rcases hc with rfl | rfl | rfl
    · decide
    · exact hupper h (hexVal_ok hh).1
    · exact hupper l (hexVal_ok hl).1

theorem plainText_of_ne {c : Char} (hc : c ≠ '%') : plainText c = [c] := if_neg hc

/-- What a triplet or a character becomes, becomes itself. -/
theorem normalizePercentEncoding_tripletText {hi lo : Char} {h l : Nat} (rest : List Char)
    (hh : hexVal hi = some h) (hl : hexVal lo = some l) :
    normalizePercentEncoding (tripletText h l ++ rest) =
      tripletText h l ++ normalizePercentEncoding rest := by
  by_cases hun : isUnreserved (Char.ofNat (h * 16 + l)) = true
  · have hne : Char.ofNat (h * 16 + l) ≠ '%' := fun he =>
      (isUnreserved_ok hun).2 (by rw [he]; decide)
    rw [tripletText, if_pos hun, List.singleton_append,
      normalizePercentEncoding_plain fun h => hne h.1, plainText_of_ne hne]
  · have htext : tripletText h l = ['%', toUpperHex h, toUpperHex l] := if_neg hun
    conv_lhs => rw [htext]
    exact normalizePercentEncoding_triplet rest (hexVal_toUpperHex (hexVal_ok hh).1)
      (hexVal_toUpperHex (hexVal_ok hl).1)

theorem normalizePercentEncoding_plainText (c : Char) (rest : List Char) :
    normalizePercentEncoding (plainText c ++ rest) =
      plainText c ++ normalizePercentEncoding rest := by
  by_cases hc : c = '%'
  · rw [plainText, if_pos hc]
    have h2 : hexVal '2' = some 2 := rfl
    have h5 : hexVal '5' = some 5 := rfl
    exact normalizePercentEncoding_triplet rest h2 h5
  · rw [plainText_of_ne hc, List.singleton_append, normalizePercentEncoding_plain fun h => hc h.1,
      plainText_of_ne hc]

/-- **Percent-normalization does nothing the second time.** -/
theorem normalizePercentEncoding_idem (s : List Char) :
    normalizePercentEncoding (normalizePercentEncoding s) = normalizePercentEncoding s := by
  induction s using percent_induction with
  | nil => rfl
  | triplet hi lo h l rest hh hl ih =>
    rw [normalizePercentEncoding_triplet rest hh hl,
      normalizePercentEncoding_tripletText _ hh hl, ih]
  | plain c rest hc ih =>
    rw [normalizePercentEncoding_plain hc, normalizePercentEncoding_plainText, ih]

/-- Characters that delimit are those of the text. -/
theorem mem_normalizePercentEncoding {s : List Char} {c : Char}
    (hc : c ∈ normalizePercentEncoding s) :
    c ∈ s ∨ c.toNat < 128 ∧ c ∉ [':', '/', '?', '#', '@'] := by
  induction s using percent_induction with
  | nil => exact absurd hc List.not_mem_nil
  | triplet hi lo h l rest hh hl ih =>
    rw [normalizePercentEncoding_triplet rest hh hl] at hc
    rcases List.mem_append.mp hc with hc | hc
    · exact .inr (tripletText_ok hh hl hc)
    · exact (ih hc).imp_left fun hmem => by simp [hmem]
  | plain d rest hd ih =>
    rw [normalizePercentEncoding_plain hd] at hc
    rcases List.mem_append.mp hc with hc | hc
    · unfold plainText at hc
      split at hc
      · have hall : ∀ c ∈ ['%', '2', '5'], c.toNat < 128 ∧ c ∉ [':', '/', '?', '#', '@'] :=
          List.forall_mem_of_all (by decide +kernel)
        exact .inr (hall c hc)
      · rw [List.mem_singleton.mp hc]
        exact .inl List.mem_cons_self
    · exact (ih hc).imp_left (List.mem_cons_of_mem _)

/-- What is no digit ends any triplet. -/
theorem startsHex_append {c : Char} (hc : hexVal c = none) (s rest : List Char) :
    startsHex (s ++ c :: rest) = startsHex s := by
  rcases s with _ | ⟨a, _ | ⟨b, s⟩⟩
  · cases rest with
    | nil => rfl
    | cons d rest => simp [startsHex, hc]
  · simp [startsHex, hc]
  · rfl

theorem startsHex_slash (s rest : List Char) : startsHex (s ++ '/' :: rest) = startsHex s :=
  startsHex_append (by decide) s rest

theorem normalizePercentEncoding_append {c : Char} (hc : hexVal c = none) (s rest : List Char) :
    normalizePercentEncoding (s ++ c :: rest) =
      normalizePercentEncoding s ++ normalizePercentEncoding (c :: rest) := by
  induction s using percent_induction with
  | nil => rfl
  | triplet hi lo h l s hh hl ih =>
    rw [normalizePercentEncoding_triplet s hh hl, List.append_assoc, ← ih]
    exact normalizePercentEncoding_triplet _ hh hl
  | plain d s hd ih =>
    rw [normalizePercentEncoding_plain hd, List.append_assoc, ← ih]
    exact normalizePercentEncoding_plain fun h => hd ⟨h.1, startsHex_append hc s rest ▸ h.2⟩

theorem normalizePercentEncoding_cons {c : Char} (hc : c ≠ '%') (rest : List Char) :
    normalizePercentEncoding (c :: rest) = c :: normalizePercentEncoding rest := by
  rw [normalizePercentEncoding_plain fun h => hc h.1, plainText_of_ne hc]
  rfl

/-- **Normalization works on each segment alone.** -/
theorem normalizePercentEncoding_slash (s rest : List Char) :
    normalizePercentEncoding (s ++ '/' :: rest) =
      normalizePercentEncoding s ++ '/' :: normalizePercentEncoding rest := by
  rw [normalizePercentEncoding_append (by decide), normalizePercentEncoding_cons (by decide)]

/-! ## Segments

Removal goes over the segments with a stack. Told as a fold over the list of segments it has no
slashes in it, and those come back when the segments are joined.
-/

theorem slash_not_mem_normalize {s : List Char} (h : '/' ∉ s) :
    '/' ∉ normalizePercentEncoding s := fun hmem =>
  (mem_normalizePercentEncoding hmem).elim h fun hc => hc.2 (by decide)

/-- **The segments of a normalized path** are those of the path, normalized. -/
theorem splitOn_normalizePercentEncoding (path : List Char) :
    (normalizePercentEncoding path).splitOn '/' =
      (path.splitOn '/').map normalizePercentEncoding := by
  induction hn : path.length using Nat.strongRecOn generalizing path with
  | _ n ih =>
  by_cases hslash : '/' ∈ path
  · obtain ⟨s, rest, rfl, hs⟩ := List.eq_append_cons_of_mem hslash
    rw [normalizePercentEncoding_slash, List.splitOn_append_cons_self_of_not_mem hs,
      List.splitOn_append_cons_self_of_not_mem (slash_not_mem_normalize hs), List.map_cons,
      ih rest.length (by simp at hn; omega) rest rfl]
  · rw [List.splitOn_eq_singleton hslash,
      List.splitOn_eq_singleton (slash_not_mem_normalize hslash)]
    rfl

def isDotSegment (segment : List Char) : Prop := segment = ['.'] ∨ segment = ['.', '.']

instance : DecidablePred isDotSegment := fun segment =>
  inferInstanceAs (Decidable (segment = ['.'] ∨ segment = ['.', '.']))

/-- One segment: a dot segment is dropped, and two dots take the last one along. -/
def keepSegment (output : List (List Char)) (segment : List Char) : List (List Char) :=
  if segment = ['.'] then output
  else if segment = ['.', '.'] then output.dropLast
  else output ++ [segment]

/-- The segments that are kept where dot segments are removed. -/
def keptSegments (path : List Char) : List (List Char) := (path.splitOn '/').foldl keepSegment []

theorem mem_foldl_keepSegment {segments output : List (List Char)} {x : List Char}
    (h : x ∈ segments.foldl keepSegment output) :
    x ∈ output ∨ x ∈ segments ∧ ¬isDotSegment x := by
  induction segments generalizing output with
  | nil => exact .inl h
  | cons segment segments ih =>
    rw [List.foldl_cons] at h
    rcases ih h with hout | ⟨hmem, hplain⟩
    · unfold keepSegment at hout
      split at hout
      · exact .inl hout
      rename_i hone
      split at hout
      · exact .inl (List.dropLast_subset output hout)
      rename_i htwo
      rcases List.mem_append.mp hout with hout | hout
      · exact .inl hout
      · rw [List.mem_singleton.mp hout]
        exact .inr ⟨List.mem_cons_self, fun hdot => hdot.elim hone htwo⟩
    · exact .inr ⟨List.mem_cons_of_mem _ hmem, hplain⟩

theorem mem_keptSegments {path x : List Char} (h : x ∈ keptSegments path) :
    x ∈ path.splitOn '/' ∧ ¬isDotSegment x :=
  (mem_foldl_keepSegment h).resolve_left List.not_mem_nil

theorem foldl_keepSegment_plain {segments output : List (List Char)}
    (h : ∀ x ∈ segments, ¬isDotSegment x) :
    segments.foldl keepSegment output = output ++ segments := by
  induction segments generalizing output with
  | nil => exact (List.append_nil output).symm
  | cons segment segments ih =>
    obtain ⟨hseg, hrest⟩ := List.forall_mem_cons.mp h
    rw [List.foldl_cons, ih hrest, keepSegment, if_neg fun he => hseg (.inl he),
      if_neg fun he => hseg (.inr he), List.append_assoc]
    rfl

theorem removeDotSegments_eq (path : List Char) :
    removeDotSegments path =
      let result := ['/'].intercalate (keptSegments path)
      let result :=
        if !(List.isPrefixOf ['/'] result) && ['/'].isPrefixOf path then '/' :: result else result
      if ("/.".toList.isSuffixOf path || "/..".toList.isSuffixOf path) &&
          !(List.isSuffixOf ['/'] result) then result ++ ['/'] else result :=
  rfl

/-- A path that starts with a slash still does. -/
theorem slash_removeDotSegments {path : List Char} (h : ['/'] <+: path) :
    ['/'] <+: removeDotSegments path := by
  have hjoined : ∀ result : List Char, ['/'] <+:
      if !(List.isPrefixOf ['/'] result) && ['/'].isPrefixOf path then '/' :: result
      else result := by
    intro result
    rw [List.isPrefixOf_iff_prefix.mpr h, Bool.and_true]
    split
    · exact List.prefix_append ['/'] result
    · rename_i hpre
      exact List.isPrefixOf_iff_prefix.mp (by simpa using hpre)
  have hslash := hjoined (['/'].intercalate (keptSegments path))
  rw [removeDotSegments_eq]
  dsimp only
  revert hslash
  generalize (if !(List.isPrefixOf ['/'] (['/'].intercalate (keptSegments path))) &&
    ['/'].isPrefixOf path then '/' :: ['/'].intercalate (keptSegments path)
    else ['/'].intercalate (keptSegments path)) = result
  intro hslash
  split
  · exact hslash.trans (List.prefix_append _ _)
  · exact hslash

/-- **The segments of the result** are those that are kept, and empty ones. -/
theorem mem_splitOn_removeDotSegments {path seg : List Char} :
    (seg ∈ (removeDotSegments path).splitOn '/' → seg = [] ∨ seg ∈ keptSegments path) ∧
      (seg ∈ keptSegments path → seg ∈ (removeDotSegments path).splitOn '/') := by
  -- The joined text, a slash put before it, and one put after it.
  have hjoined : (seg ∈ (['/'].intercalate (keptSegments path)).splitOn '/' →
      seg = [] ∨ seg ∈ keptSegments path) ∧
      (seg ∈ keptSegments path → seg ∈ (['/'].intercalate (keptSegments path)).splitOn '/') := by
    cases hkept : keptSegments path with
    | nil => exact ⟨fun h => .inl (by simpa using h), fun h => absurd h List.not_mem_nil⟩
    | cons first rest =>
      have hfree : ∀ l ∈ first :: rest, '/' ∉ l := fun l hl =>
        List.not_mem_of_mem_splitOn (mem_keptSegments (hkept ▸ hl)).1
      rw [List.splitOn_intercalate _ hfree (List.cons_ne_nil _ _)]
      exact ⟨.inr, id⟩
  have hbefore : ∀ result : List Char, ('/' :: result).splitOn '/' = [] :: result.splitOn '/' :=
    fun result => List.splitOn_append_cons_self_of_not_mem
      (show '/' ∉ ([] : List Char) from List.not_mem_nil) result
  have hafter : ∀ result : List Char, (result ++ ['/']).splitOn '/' = result.splitOn '/' ++ [[]] :=
    fun result => List.splitOn_append_cons_self result []
  rw [removeDotSegments_eq]
  dsimp only
  generalize ['/'].intercalate (keptSegments path) = joined at hjoined
  split
  · split
    · rw [hafter, hbefore, List.mem_append, List.mem_cons, List.mem_singleton]
      tauto
    · rw [hbefore, List.mem_cons]
      tauto
  · split
    · rw [hafter, List.mem_append, List.mem_singleton]
      tauto
    · exact hjoined

/-- **A path without dot segments stays as it is.** -/
theorem removeDotSegments_plain {path : List Char} (h : ['/'] <+: path)
    (hplain : ∀ seg ∈ path.splitOn '/', ¬isDotSegment seg) : removeDotSegments path = path := by
  have hkept : keptSegments path = path.splitOn '/' := by
    rw [keptSegments, foldl_keepSegment_plain hplain, List.nil_append]
  -- A dot after the last slash would be a segment.
  have hend : ∀ segment : List Char, '/' ∉ segment → isDotSegment segment →
      ('/' :: segment).isSuffixOf path = false := by
    intro segment hfree hdot
    rw [Bool.eq_false_iff]
    intro hsuf
    obtain ⟨front, hfront⟩ := List.isSuffixOf_iff_suffix.mp hsuf
    apply hplain segment _ hdot
    rw [← hfront, List.splitOn_append_cons_self, List.splitOn_eq_singleton hfree]
    exact List.mem_append_right _ (List.mem_singleton.mpr rfl)
  have hone : "/.".toList.isSuffixOf path = false := hend ['.'] (by decide) (.inl rfl)
  have htwo : "/..".toList.isSuffixOf path = false := hend ['.', '.'] (by decide) (.inr rfl)
  rw [removeDotSegments_eq, hkept, List.intercalate_splitOn]
  dsimp only
  rw [hone, htwo, List.isPrefixOf_iff_prefix.mpr h]
  rfl

/-- No kept segment is a dot segment in another spelling. -/
def PlainSegments (path : List Char) : Prop :=
  ∀ seg ∈ keptSegments path, ¬isDotSegment (normalizePercentEncoding seg)

instance : DecidablePred PlainSegments := fun path =>
  inferInstanceAs (Decidable (∀ seg ∈ keptSegments path, ¬isDotSegment _))

/-- A path is normal: nothing is left to remove or to rewrite. -/
structure NormalPath (path : List Char) : Prop where
  slash : ['/'] <+: path
  plain : ∀ seg ∈ path.splitOn '/', ¬isDotSegment seg
  percent : normalizePercentEncoding path = path

def normalizePath (path : List Char) : List Char :=
  normalizePercentEncoding (removeDotSegments path)

theorem slash_normalizePath {path : List Char} (h : ['/'] <+: path) :
    ['/'] <+: normalizePath path := by
  obtain ⟨rest, hrest⟩ := slash_removeDotSegments h
  rw [normalizePath, ← hrest]
  exact ⟨normalizePercentEncoding rest, (normalizePercentEncoding_slash [] rest).symm⟩

theorem isDotSegment_nil : ¬isDotSegment [] := by
  rintro (h | h)
  · cases h
  · cases h

/-- **A path is normal after one pass unless a kept segment turns into a dot segment.** -/
theorem normalPath_normalizePath {path : List Char} (h : ['/'] <+: path) :
    NormalPath (normalizePath path) ↔ PlainSegments path := by
  have hsegs : ∀ seg, seg ∈ (normalizePath path).splitOn '/' ↔
      ∃ s ∈ (removeDotSegments path).splitOn '/', normalizePercentEncoding s = seg := by
    intro seg
    rw [normalizePath, splitOn_normalizePercentEncoding, List.mem_map]
  constructor
  · intro hnormal seg hseg
    exact hnormal.plain _ ((hsegs _).mpr ⟨seg, mem_splitOn_removeDotSegments.2 hseg, rfl⟩)
  · intro hplain
    refine ⟨slash_normalizePath h, fun seg hseg => ?_, normalizePercentEncoding_idem _⟩
    obtain ⟨s, hs, rfl⟩ := (hsegs seg).mp hseg
    rcases mem_splitOn_removeDotSegments.1 hs with rfl | hkept
    · exact isDotSegment_nil
    · exact hplain s hkept

/-- **A normal path is one that normalization leaves alone.** -/
theorem normalizePath_eq_self {path : List Char} (h : ['/'] <+: path) :
    normalizePath path = path ↔ NormalPath path := by
  constructor
  · intro hfixed
    have hpercent : normalizePercentEncoding path = path := by
      conv_lhs => rw [← hfixed, normalizePath, normalizePercentEncoding_idem, ← normalizePath]
      exact hfixed
    refine ⟨h, fun seg hseg hdot => ?_, hpercent⟩
    have hseg' := hseg
    rw [← hfixed, normalizePath, splitOn_normalizePercentEncoding, List.mem_map] at hseg'
    obtain ⟨s, hs, rfl⟩ := hseg'
    rcases mem_splitOn_removeDotSegments.1 hs with rfl | hkept
    · exact isDotSegment_nil hdot
    · -- A segment of a path with normal triplets is its own normal form.
      have hmem := (mem_keptSegments hkept).1
      rw [← hpercent, splitOn_normalizePercentEncoding, List.mem_map] at hmem
      obtain ⟨t, -, rfl⟩ := hmem
      rw [normalizePercentEncoding_idem] at hdot
      exact (mem_keptSegments hkept).2 hdot
  · intro hnormal
    rw [normalizePath, removeDotSegments_plain h hnormal.plain, hnormal.percent]

end Cat
