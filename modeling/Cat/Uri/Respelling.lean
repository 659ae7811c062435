import Cat.Uri.Delimiting

/-!
# One URI in several spellings

What the generic syntax takes for one URI: letter case in the scheme and in a host name, a
default port that is written out, and triplets for unreserved characters or with small digits in
the path. A dot segment may be spelled with triplets too. Only the path shows whether it was.

That two paths are spellings of one is an inductive relation (`SamePath`) with a rule for each
way to write a character, so what holds of all spellings is shown by induction on it.
Percent-normalization undoes the differences. But the step that looks at segments comes before
it, and the segments that can be mistaken there are the dot segments: whether one was spelled
out is what the normal form shows.
-/

set_option autoImplicit false

namespace Cat

/-! ## Paths

The relation of two spellings is built along the text, character by character, so a property of
a path is one of all its spellings if each rule keeps it.
-/

/-- Two spellings of a path. A `%` in front of no digits is a character like any other. -/
inductive SamePath : List Char → List Char → Prop
  | nil : SamePath [] []
  | char {c : Char} {s t : List Char} : ¬(c = '%' ∧ startsHex s = true) →
      ¬(c = '%' ∧ startsHex t = true) → SamePath s t → SamePath (c :: s) (c :: t)
  | triplet {hi lo hi' lo' : Char} {h l : Nat} {s t : List Char} :
      hexVal hi = some h → hexVal lo = some l → hexVal hi' = some h → hexVal lo' = some l →
      SamePath s t → SamePath ('%' :: hi :: lo :: s) ('%' :: hi' :: lo' :: t)
  | decoded {hi lo : Char} {h l : Nat} {s t : List Char} :
      hexVal hi = some h → hexVal lo = some l → isUnreserved (Char.ofNat (h * 16 + l)) = true →
      SamePath s t → SamePath ('%' :: hi :: lo :: s) (Char.ofNat (h * 16 + l) :: t)
  | encoded {hi lo : Char} {h l : Nat} {s t : List Char} :
      hexVal hi = some h → hexVal lo = some l → isUnreserved (Char.ofNat (h * 16 + l)) = true →
      SamePath s t → SamePath (Char.ofNat (h * 16 + l) :: s) ('%' :: hi :: lo :: t)

theorem not_percent_of_unreserved {c : Char} (h : isUnreserved c = true) : c ≠ '%' := fun he =>
  (isUnreserved_ok h).2 (by rw [he]; decide)

namespace SamePath

theorem refl (s : List Char) : SamePath s s := by
  induction s using percent_induction with
  | nil => exact .nil
  | triplet hi lo h l rest hh hl ih => exact .triplet hh hl hh hl ih
  | plain c rest hc ih => exact .char hc hc ih

theorem symm {s t : List Char} (h : SamePath s t) : SamePath t s := by
  induction h with
  | nil => exact .nil
  | char hs ht _ ih => exact .char ht hs ih
  | triplet hh hl hh' hl' _ ih => exact .triplet hh' hl' hh hl ih
  | decoded hh hl hun _ ih => exact .encoded hh hl hun ih
  | encoded hh hl hun _ ih => exact .decoded hh hl hun ih

/-- **Two spellings have one normal form**, as far as triplets go. -/
theorem normalize_eq {s t : List Char} (h : SamePath s t) :
    normalizePercentEncoding s = normalizePercentEncoding t := by
  -- An unreserved character is what its triplet becomes.
  have hdecode : ∀ {hi lo : Char} {h l : Nat} {s t : List Char}, hexVal hi = some h →
      hexVal lo = some l → isUnreserved (Char.ofNat (h * 16 + l)) = true →
      normalizePercentEncoding s = normalizePercentEncoding t →
      normalizePercentEncoding ('%' :: hi :: lo :: s) =
        normalizePercentEncoding (Char.ofNat (h * 16 + l) :: t) := by
    intro hi lo h l s t hh hl hun heq
    have hne := not_percent_of_unreserved hun
    rw [normalizePercentEncoding_triplet s hh hl, heq, tripletText, if_pos hun,
      normalizePercentEncoding_plain fun h => hne h.1, plainText_of_ne hne]
  induction h with
  | nil => rfl
  | char hs ht _ ih =>
    rw [normalizePercentEncoding_plain hs, normalizePercentEncoding_plain ht, ih]
  | triplet hh hl hh' hl' _ ih =>
    rw [normalizePercentEncoding_triplet _ hh hl, normalizePercentEncoding_triplet _ hh' hl', ih]
  | decoded hh hl hun _ ih => exact hdecode hh hl hun ih
  | encoded hh hl hun _ ih => exact (hdecode hh hl hun ih.symm).symm

/-- The slashes stand where they stood, and what is between them is respelled. -/
theorem join {s t s' t' : List Char} (h : SamePath s t) (h' : SamePath s' t') :
    SamePath (s ++ '/' :: s') (t ++ '/' :: t') := by
  induction h with
  | nil => exact .char (fun h => absurd h.1 (by decide)) (fun h => absurd h.1 (by decide)) h'
  | char hs ht _ ih =>
    refine .char (fun h => hs ⟨h.1, ?_⟩) (fun h => ht ⟨h.1, ?_⟩) ih
    · exact startsHex_slash _ _ ▸ h.2
    · exact startsHex_slash _ _ ▸ h.2
  | triplet hh hl hh' hl' _ ih => exact .triplet hh hl hh' hl' ih
  | decoded hh hl hun _ ih => exact .decoded hh hl hun ih
  | encoded hh hl hun _ ih => exact .encoded hh hl hun ih

theorem intercalate {f : List Char → List Char} {segments : List (List Char)}
    (h : ∀ seg ∈ segments, SamePath seg (f seg)) :
    SamePath (['/'].intercalate segments) (['/'].intercalate (segments.map f)) := by
  induction segments with
  | nil => exact .nil
  | cons seg segments ih =>
    obtain ⟨hseg, hrest⟩ := List.forall_mem_cons.mp h
    cases segments with
    | nil => simpa using hseg
    | cons next segments => simpa using join hseg (ih hrest)

theorem eq_nil {t : List Char} (h : SamePath [] t) : t = [] := by
  cases h
  rfl

theorem slash {s t : List Char} (h : SamePath s t) (hs : ['/'] <+: s) : ['/'] <+: t := by
  cases h with
  | nil => exact hs
  | char _ _ _ => exact (List.cons_prefix_cons.mp hs).1 ▸ List.prefix_append ['/'] _
  | triplet _ _ _ _ _ => exact absurd (List.cons_prefix_cons.mp hs).1 (by decide)
  | decoded _ _ _ _ => exact absurd (List.cons_prefix_cons.mp hs).1 (by decide)
  | encoded hh hl hun _ =>
    have hslash : '/' = Char.ofNat _ := (List.cons_prefix_cons.mp hs).1
    exact absurd (hslash ▸ hun) (by decide)

/-- A property that digits, unreserved characters and `%` have is one of both spellings. -/
theorem forall_mem {P : Char → Prop} (hpercent : P '%') (hhex : ∀ c h, hexVal c = some h → P c)
    (hunreserved : ∀ c, isUnreserved c = true → P c) {s t : List Char} (h : SamePath s t)
    (hs : ∀ c ∈ s, P c) : ∀ c ∈ t, P c := by
  induction h with
  | nil => exact hs
  | char _ _ _ ih =>
    obtain ⟨hc, hs⟩ := List.forall_mem_cons.mp hs
    exact List.forall_mem_cons.mpr ⟨hc, ih hs⟩
  | triplet _ _ hh' hl' _ ih =>
    obtain ⟨-, -, -, hs⟩ := by simpa only [List.forall_mem_cons] using hs
    simp only [List.forall_mem_cons]
    exact ⟨hpercent, hhex _ _ hh', hhex _ _ hl', ih hs⟩
  | decoded _ _ hun _ ih =>
    obtain ⟨-, -, -, hs⟩ := by simpa only [List.forall_mem_cons] using hs
    exact List.forall_mem_cons.mpr ⟨hunreserved _ hun, ih hs⟩
  | encoded hh hl _ _ ih =>
    obtain ⟨-, hs⟩ := List.forall_mem_cons.mp hs
    simp only [List.forall_mem_cons]
    exact ⟨hpercent, hhex _ _ hh, hhex _ _ hl, ih hs⟩

end SamePath

/-! ## Dot segments

A segment of dots and triplets for dots is a dot segment in one of its spellings. If a path has
one, spelling it out or not makes two normal forms.
-/

/-- No segment is a dot segment in any spelling. -/
def NoDotSegments (path : List Char) : Prop :=
  ∀ seg ∈ path.splitOn '/', ¬isDotSegment (normalizePercentEncoding seg)

instance : DecidablePred NoDotSegments := fun path =>
  inferInstanceAs (Decidable (∀ seg ∈ path.splitOn '/', ¬isDotSegment _))

theorem SamePath.noDotSegments {s t : List Char} (h : SamePath s t) (hs : NoDotSegments s) :
    NoDotSegments t := by
  have hsegs : (s.splitOn '/').map normalizePercentEncoding =
      (t.splitOn '/').map normalizePercentEncoding := by
    rw [← splitOn_normalizePercentEncoding, ← splitOn_normalizePercentEncoding, h.normalize_eq]
  intro seg hseg
  have hmem := List.mem_map_of_mem (f := normalizePercentEncoding) hseg
  rw [← hsegs] at hmem
  obtain ⟨seg', hseg', heq⟩ := List.mem_map.mp hmem
  exact heq ▸ hs seg' hseg'

theorem normalize_dotSegment {seg : List Char} (h : isDotSegment seg) :
    normalizePercentEncoding seg = seg := by
  rcases h with rfl | rfl
  · rfl
  · rfl

/-- A path without dot segments is only percent-normalized. -/
theorem normalizePath_of_noDotSegments {path : List Char} (hslash : ['/'] <+: path)
    (h : NoDotSegments path) : normalizePath path = normalizePercentEncoding path := by
  rw [normalizePath, removeDotSegments_plain hslash]
  intro seg hseg hdot
  exact h seg hseg ((normalize_dotSegment hdot).symm ▸ hdot)

/-- A segment with its dots spelled `dot`, if it is a dot segment. -/
def respellDots (dot seg : List Char) : List Char :=
  if isDotSegment (normalizePercentEncoding seg) then
    (normalizePercentEncoding seg).flatMap fun _ => dot
  else seg

def withDots (dot path : List Char) : List Char :=
  ['/'].intercalate ((path.splitOn '/').map (respellDots dot))

/-- The triplets of a dot. -/
theorem hexVal_dot {hi lo : Char} {h l : Nat} (hh : hexVal hi = some h) (hl : hexVal lo = some l)
    (hdot : Char.ofNat (h * 16 + l) = '.') : h = 2 ∧ l = 14 := by
  have hall : ∀ h l : Fin 16, Char.ofNat (h.val * 16 + l.val) = '.' → h.val = 2 ∧ l.val = 14 := by
    decide +kernel
  exact hall ⟨h, (hexVal_ok hh).1⟩ ⟨l, (hexVal_ok hl).1⟩ hdot

/-- A text of dots may be spelled with the character or with its triplet. -/
theorem samePath_dots {dot seg : List Char} (hdot : dot = ".".toList ∨ dot = "%2e".toList)
    (h : ∀ c ∈ normalizePercentEncoding seg, c = '.') :
    SamePath seg ((normalizePercentEncoding seg).flatMap fun _ => dot) := by
  have h2 : hexVal '2' = some 2 := rfl
  have he : hexVal 'e' = some 14 := rfl
  have hun : isUnreserved (Char.ofNat (2 * 16 + 14)) = true := by decide
  induction seg using percent_induction with
  | nil => exact .nil
  | triplet hi lo hv lv rest hh hl ih =>
    rw [normalizePercentEncoding_triplet rest hh hl] at h ⊢
    obtain ⟨hhead, hrest⟩ := List.forall_mem_append.mp h
    -- A triplet that is no dot leaves another character.
    have hunreserved : isUnreserved (Char.ofNat (hv * 16 + lv)) = true := by
      by_contra hnot
      rw [tripletText, if_neg hnot] at hhead
      exact absurd (hhead _ List.mem_cons_self) (by decide)
    rw [tripletText, if_pos hunreserved] at hhead ⊢
    obtain ⟨rfl, rfl⟩ := hexVal_dot hh hl (hhead _ List.mem_cons_self)
    rcases hdot with rfl | rfl
    · exact .decoded hh hl hunreserved (ih hrest)
    · exact .triplet hh hl h2 he (ih hrest)
  | plain c rest hc ih =>
    rw [normalizePercentEncoding_plain hc] at h ⊢
    obtain ⟨hhead, hrest⟩ := List.forall_mem_append.mp h
    have hne : c ≠ '%' := by
      rintro rfl
      exact absurd (hhead '%' List.mem_cons_self) (by decide)
    rw [plainText_of_ne hne] at hhead ⊢
    obtain rfl := hhead c List.mem_cons_self
    rcases hdot with rfl | rfl
    · exact .char hc (fun h => hne h.1) (ih hrest)
    · exact .encoded h2 he hun (ih hrest)

theorem samePath_respellDots {dot : List Char} (hdot : dot = ".".toList ∨ dot = "%2e".toList)
    (seg : List Char) : SamePath seg (respellDots dot seg) := by
  unfold respellDots
  split
  · rename_i hseg
    refine samePath_dots hdot fun c hc => ?_
    rcases hseg with h | h
    · rw [h] at hc
      exact List.mem_singleton.mp hc
    · rw [h] at hc
      simpa using hc
  · exact .refl seg

theorem samePath_withDots {dot : List Char} (hdot : dot = ".".toList ∨ dot = "%2e".toList)
    (path : List Char) : SamePath path (withDots dot path) := by
  have hsegs : ∀ seg ∈ path.splitOn '/', SamePath seg (respellDots dot seg) := fun seg _ =>
    samePath_respellDots hdot seg
  have h := SamePath.intercalate hsegs
  rw [List.intercalate_splitOn] at h
  exact h

theorem splitOn_withDots {dot : List Char} (hdot : dot = ".".toList ∨ dot = "%2e".toList)
    (path : List Char) :
    (withDots dot path).splitOn '/' = (path.splitOn '/').map (respellDots dot) := by
  refine List.splitOn_intercalate '/' (fun part hpart => ?_) ?_
  · obtain ⟨seg, hseg, rfl⟩ := List.mem_map.mp hpart
    unfold respellDots
    split
    · intro hmem
      obtain ⟨c, -, hc⟩ := List.mem_flatMap.mp hmem
      rcases hdot with rfl | rfl
      · exact absurd hc (by decide)
      · exact absurd hc (by decide)
    · exact List.not_mem_of_mem_splitOn hseg
  · rw [ne_eq, List.map_eq_nil_iff]
    exact List.splitOn_ne_nil '/' path

/-- Dots that are spelled with triplets are not removed. -/
theorem normalizePath_encoded {path : List Char} (hslash : ['/'] <+: path) :
    normalizePath (withDots "%2e".toList path) = normalizePercentEncoding path := by
  have hsame := samePath_withDots (.inr rfl) path
  rw [normalizePath, removeDotSegments_plain (hsame.slash hslash), ← hsame.normalize_eq]
  intro seg hseg hdot
  rw [splitOn_withDots (.inr rfl)] at hseg
  obtain ⟨u, -, rfl⟩ := List.mem_map.mp hseg
  unfold respellDots at hdot
  split at hdot
  · rename_i hu
    rcases hu with hu | hu
    · rw [hu] at hdot
      exact absurd hdot (by decide)
    · rw [hu] at hdot
      exact absurd hdot (by decide)
  · rename_i hu
    exact hu ((normalize_dotSegment hdot).symm ▸ hdot)

/-- Dots that are spelled out are removed. -/
theorem noDotSegments_plain (path : List Char) :
    ∀ seg ∈ (normalizePath (withDots ".".toList path)).splitOn '/', ¬isDotSegment seg := by
  intro seg hseg hdot
  rw [normalizePath, splitOn_normalizePercentEncoding] at hseg
  obtain ⟨u, hu, rfl⟩ := List.mem_map.mp hseg
  rcases mem_splitOn_removeDotSegments.1 hu with rfl | hkept
  · exact isDotSegment_nil hdot
  obtain ⟨hu, hplain⟩ := mem_keptSegments hkept
  rw [splitOn_withDots (.inl rfl)] at hu
  obtain ⟨v, -, rfl⟩ := List.mem_map.mp hu
  rw [← (samePath_respellDots (.inl rfl) v).normalize_eq] at hdot
  apply hplain
  rw [respellDots, if_pos hdot]
  rcases hdot with h | h
  · rw [h]
    exact .inl rfl
  · rw [h]
    exact .inr rfl

/-- **Dot segments show their spelling**: where a path has one, two spellings of the path have
two normal forms. -/
theorem normalizePath_respelled_iff {path : List Char} (hslash : ['/'] <+: path) :
    (∀ t, SamePath path t → normalizePath path = normalizePath t) ↔ NoDotSegments path := by
  constructor
  · intro h seg hseg hdot
    have hsame := (h _ (samePath_withDots (.inr rfl) path)).symm.trans
      (h _ (samePath_withDots (.inl rfl) path))
    rw [normalizePath_encoded hslash] at hsame
    refine noDotSegments_plain path (normalizePercentEncoding seg) ?_ hdot
    rw [← hsame, splitOn_normalizePercentEncoding]
    exact List.mem_map_of_mem hseg
  · intro h t ht
    rw [normalizePath_of_noDotSegments hslash h,
      normalizePath_of_noDotSegments (ht.slash hslash) (ht.noDotSegments h), ht.normalize_eq]

end Cat
