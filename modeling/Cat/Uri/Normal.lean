import Cat.Uri.Pieces

/-!
# Normal forms

Normalization is done after one pass, with three exceptions: a segment that percent-encoding
hides a dot segment in, a port that comes to light when the one behind it is dropped, and a
`://` that comes together when dot segments are removed.

All three come from the order of the steps. The source removes dot segments before it decodes
triplets, drops one port, and cuts the URI before any of that. So a second pass sees what the
first one made: `%2e%2e` that has become `..`, `h:80:80` that has become `h:80`, and `x/a:/.//B`,
which had no scheme and has become `x/a://B`, which has one.

The first two are said of a piece alone (`PlainSegments`, `PlainPort`). The third is not: it is
about where pieces meet. `JoinsScheme` says when it happens, and `joined` says what the pieces of
the result are then, both computed from the pieces of the URI itself; `cutUri_normal_text` is the
link to the text that comes out.
-/

set_option autoImplicit false

namespace Cat

/-! ## A separator that comes together

When dot segments are removed, two slashes can come to stand behind a colon, at the end of the
authority or of a segment. If the URI had no scheme, the result has a `://` now, and the next
cut finds a scheme there. It is the only way in which pieces that were put together are cut
apart differently.
-/

theorem mem_of_prefix_cons {c : Char} {pat l r : List Char} (hne : l ≠ [])
    (h : c :: pat <+: l ++ r) : c ∈ l := by
  cases l with
  | nil => exact absurd rfl hne
  | cons d l => exact (List.cons_prefix_cons.mp h).1 ▸ List.mem_cons_self

theorem tripletText_ne_nil (h l : Nat) : tripletText h l ≠ [] := by
  unfold tripletText
  split
  · exact List.cons_ne_nil _ _
  · exact List.cons_ne_nil _ _

/-- Percent-normalization neither makes nor takes away what stands in front without a percent
sign, a letter or a digit. -/
theorem prefix_normalizePercentEncoding {pat s : List Char} (hpat : ∀ c ∈ pat, c ∈ [':', '/']) :
    pat <+: normalizePercentEncoding s ↔ pat <+: s := by
  induction pat generalizing s with
  | nil => exact iff_of_true List.nil_prefix List.nil_prefix
  | cons c pat ih =>
    obtain ⟨hc, hpat⟩ := List.forall_mem_cons.mp hpat
    have hdelim : c ∈ [':', '/', '?', '#', '@'] := List.mem_append_left ['?', '#', '@'] hc
    have hpercent : c ≠ '%' := by
      rintro rfl
      exact absurd hc (by decide)
    induction s using percent_induction with
    | nil => exact Iff.rfl
    | triplet hi lo h l rest hh hl _ =>
      rw [normalizePercentEncoding_triplet rest hh hl]
      refine iff_of_false (fun hpre => ?_) fun hpre => hpercent (List.cons_prefix_cons.mp hpre).1
      exact (tripletText_ok hh hl (mem_of_prefix_cons (tripletText_ne_nil h l) hpre)).2 hdelim
    | plain d rest hd _ =>
      rw [normalizePercentEncoding_plain hd]
      by_cases hd : d = '%'
      · subst hd
        refine iff_of_false (fun hpre => ?_) fun hpre => hpercent (List.cons_prefix_cons.mp hpre).1
        exact hpercent (List.cons_prefix_cons.mp hpre).1
      · rw [plainText_of_ne hd, List.singleton_append, List.cons_prefix_cons,
          List.cons_prefix_cons, ih hpat]

theorem infix_normalizePercentEncoding {s : List Char} :
    "://".toList <:+: normalizePercentEncoding s ↔ "://".toList <:+: s := by
  have hall : ∀ c ∈ "://".toList, c ∈ [':', '/'] :=
    List.forall_mem_of_all (by decide +kernel)
  induction s using percent_induction with
  | nil => exact Iff.rfl
  | triplet hi lo h l rest hh hl ih =>
    have htext : ':' ∉ tripletText h l := fun hmem =>
      (tripletText_ok hh hl hmem).2 List.mem_cons_self
    have htriplet : ':' ∉ ['%', hi, lo] := by
      simp only [List.mem_cons, List.not_mem_nil, or_false, not_or]
      refine ⟨by decide, ?_, ?_⟩
      · rintro rfl
        cases hh
      · rintro rfl
        cases hl
    rw [normalizePercentEncoding_triplet rest hh hl]
    exact (List.infix_append_of_head htext).trans
      (ih.trans (List.infix_append_of_head htriplet).symm)
  | plain c rest hc ih =>
    rw [normalizePercentEncoding_plain hc]
    by_cases hpercent : c = '%'
    · subst hpercent
      exact (List.infix_append_of_head (l := ['%', '2', '5']) (by decide)).trans
        (ih.trans (List.infix_append_of_head (l := ['%']) (by decide)).symm)
    · have hpre := prefix_normalizePercentEncoding (s := c :: rest) hall
      rw [normalizePercentEncoding_plain hc, plainText_of_ne hpercent,
        List.singleton_append] at hpre
      rw [plainText_of_ne hpercent, List.singleton_append, List.infix_cons_iff,
        List.infix_cons_iff]
      exact or_congr hpre ih

theorem infix_append_normalizePercentEncoding {front s : List Char} :
    "://".toList <:+: front ++ normalizePercentEncoding s ↔ "://".toList <:+: front ++ s := by
  have hpre : ∀ (front pat : List Char), (∀ c ∈ pat, c ∈ [':', '/']) →
      (pat <+: front ++ normalizePercentEncoding s ↔ pat <+: front ++ s) := by
    intro front
    induction front with
    | nil => exact fun pat hpat => prefix_normalizePercentEncoding hpat
    | cons d front ih =>
      intro pat hpat
      cases pat with
      | nil => exact iff_of_true List.nil_prefix List.nil_prefix
      | cons c pat =>
        rw [List.cons_append, List.cons_append, List.cons_prefix_cons, List.cons_prefix_cons,
          ih pat (List.forall_mem_cons.mp hpat).2]
  induction front with
  | nil => exact infix_normalizePercentEncoding
  | cons d front ih =>
    rw [List.cons_append, List.cons_append, List.infix_cons_iff, List.infix_cons_iff]
    exact or_congr (hpre (d :: front) _ (List.forall_mem_of_all (by decide +kernel))) ih

namespace UriPieces

/-- The URI has no `://`, and one comes together where its dot segments are removed: behind
the authority without its dropped port, or inside the path. -/
def JoinsScheme (p : UriPieces) : Prop :=
  p.scheme = none ∧ "://".toList <:+: p.shownAuthority ++ removeDotSegments p.shownPath

/-- Without a scheme the normal text begins with the authority. -/
theorem normal_text_of_none {p : UriPieces} (hnone : p.scheme = none) :
    p.normal.text = p.shownAuthority ++ (normalizePath p.shownPath ++ p.query) := by
  show schemeText (p.scheme.map toAsciiLowercase) ++ _ = _
  rw [hnone]
  rfl

theorem slash_shownPath {p : UriPieces} (h : p.WellCut) : ['/'] <+: p.shownPath := by
  unfold shownPath
  split
  · exact List.prefix_rfl
  · rename_i hne
    exact h.path.resolve_left fun hnil => hne (by rw [hnil]; rfl)

theorem mem_removeDotSegments {path : List Char} {c : Char} (h : c ∈ removeDotSegments path) :
    c = '/' ∨ c ∈ path := by
  have hjoined : ['/'].intercalate ((removeDotSegments path).splitOn '/') =
      removeDotSegments path := List.intercalate_splitOn '/'
  rw [← hjoined] at h
  refine (List.mem_intercalate h).imp_right ?_
  rintro ⟨seg, hseg, hc⟩
  rcases mem_splitOn_removeDotSegments.1 hseg with rfl | hkept
  · exact absurd hc List.not_mem_nil
  · exact List.mem_of_mem_splitOn (mem_keptSegments hkept).1 hc

theorem mem_normalizePath {path : List Char} {c : Char} (h : c ∈ normalizePath path) :
    c = '/' ∨ c ∈ path ∨ c.toNat < 128 ∧ c ∉ [':', '/', '?', '#', '@'] := by
  rcases mem_normalizePercentEncoding h with h | h
  · exact (mem_removeDotSegments h).imp_right .inl
  · exact .inr (.inr h)

/-- **The pieces of the result** are cut apart again where they were put together. -/
theorem WellCut.normal {p : UriPieces} (h : p.WellCut) (hjoin : ¬p.JoinsScheme) :
    p.normal.WellCut where
  scheme := by
    have htext : p.normal.text =
        schemeText (p.scheme.map toAsciiLowercase) ++ p.normal.rest := rfl
    cases hs : p.scheme with
    | some s =>
      have hcut : List.FirstCut s "://".toList :=
        (List.splitOnceAt_eq_some.mp (h.scheme.trans (by rw [hs]; rfl))).2
      have hscheme : p.normal.scheme = some (toAsciiLowercase s) :=
        congrArg (Option.map toAsciiLowercase) hs
      rw [hscheme, htext, hs]
      exact List.splitOnceAt_eq_some.mpr
        ⟨rfl, (firstCut_toAsciiLowercase separator_not_alpha).mpr hcut⟩
    | none =>
      have hscheme : p.normal.scheme = none := congrArg (Option.map toAsciiLowercase) hs
      rw [hscheme, htext, hs]
      -- A separator in the normal text can stand neither in the query, which is kept, nor across
      -- the question mark; so it came together in front of it.
      refine List.splitOnceAt_eq_none.mpr fun hin => ?_
      have hold : ¬"://".toList <:+: p.text :=
        List.splitOnceAt_eq_none.mp (h.scheme.trans (by rw [hs]; rfl))
      have hquery : p.query <:+ p.text :=
        ⟨schemeText p.scheme ++ p.authority ++ p.path, by simp [text, rest]⟩
      have hfront : "://".toList <:+: p.shownAuthority ++ normalizePath p.shownPath := by
        have hin : "://".toList <:+:
            (p.shownAuthority ++ normalizePath p.shownPath) ++ p.query := by
          rw [List.append_assoc]
          exact hin
        rcases h.query with hnil | ⟨q, hq⟩
        · rwa [hnil, List.append_nil] at hin
        · rw [← hq] at hin
          refine (List.infix_append_cons (by decide) hin).resolve_right fun hq' => hold ?_
          exact (hq'.trans (List.suffix_cons '?' q).isInfix).trans (hq ▸ hquery).isInfix
      exact hjoin ⟨hs, infix_append_normalizePercentEncoding.mp hfront⟩
  authority := fun hmem => by
    rcases mem_shownAuthority (by decide) hmem with hmem | heq
    · exact h.authority hmem
    · exact absurd heq (by decide)
  path := .inr (slash_normalizePath (slash_shownPath h))
  mark := by
    intro hmem
    rcases mem_normalizePath hmem with heq | hmem | ⟨-, hnot⟩
    · exact absurd heq (by decide)
    · unfold shownPath at hmem
      split at hmem
      · exact absurd hmem (by decide)
      · exact h.mark hmem
    · exact hnot (by decide)
  query := h.query
  bare := by
    intro hnil
    have := slash_normalizePath (slash_shownPath h)
    rw [show normalizePath p.shownPath = [] from hnil] at this
    exact absurd this (by simp)

/-- The pieces that a `://` divides where it comes together: what stands before it, of the
authority as it is shown and of the path behind it, is read as a scheme, and what stands after it
is cut like any URI. Where none comes together they are the normal pieces. -/
def joined (p : UriPieces) : UriPieces :=
  match (p.shownAuthority ++ removeDotSegments p.shownPath).splitOnceAt "://".toList with
  | none => p.normal
  | some (front, back) =>
    let n := p.shownAuthority.length
    let scheme := front.take n ++ normalizePercentEncoding (front.drop n)
    let (authority, pathAndQuery) :=
      splitAuthority (normalizePercentEncoding back ++ p.query)
    let (path, query) := cutQueryOff pathAndQuery
    { scheme := some scheme, authority, path, query }

theorem normalizePercentEncoding_separator (s : List Char) :
    normalizePercentEncoding ("://".toList ++ s) = "://".toList ++ normalizePercentEncoding s := by
  show normalizePercentEncoding (':' :: '/' :: '/' :: s) = _
  rw [normalizePercentEncoding_cons (by decide), normalizePercentEncoding_cons (by decide),
    normalizePercentEncoding_cons (by decide)]
  rfl

/-- Percent-normalization of the path leaves the separator where it is, at the end of the authority
or in the path. -/
theorem separator_normalizePercentEncoding {authority path front back : List Char}
    (hslash : '/' ∉ authority) (h : authority ++ path = front ++ ("://".toList ++ back)) :
    authority ++ normalizePercentEncoding path =
      (front.take authority.length ++ normalizePercentEncoding (front.drop authority.length)) ++
        ("://".toList ++ normalizePercentEncoding back) := by
  rcases List.append_eq_append_iff.mp h with ⟨behind, rfl, rfl⟩ | ⟨colon, rfl, hback⟩
  · have hcolon : "://".toList ++ back = ':' :: ('/' :: '/' :: back) := rfl
    rw [List.take_left, List.drop_left, hcolon, normalizePercentEncoding_append (by decide),
      ← hcolon, normalizePercentEncoding_separator, List.append_assoc]
  · cases colon with
    | nil =>
      have hpath : path = "://".toList ++ back := hback.symm
      rw [hpath, normalizePercentEncoding_separator]
      simp [normalizePercentEncoding]
    | cons c more =>
      have hback : ':' :: '/' :: '/' :: back = c :: (more ++ path) := hback
      obtain ⟨rfl, hmore⟩ := List.cons.inj hback
      -- the authority has no slash, so it has the colon alone
      cases more with
      | cons d more =>
        obtain ⟨rfl, -⟩ := List.cons.inj hmore
        exact absurd (by simp) hslash
      | nil =>
        have hpath : path = '/' :: '/' :: back := hmore.symm
        rw [hpath, normalizePercentEncoding_cons (by decide),
          normalizePercentEncoding_cons (by decide), List.take_of_length_le (by simp),
          List.drop_eq_nil_of_le (by simp), List.append_assoc, List.append_assoc]
        rfl

/-- **The pieces of the result, in terms of those of the URI**, where it has no `://` of its own. -/
theorem cutUri_normal_text {p : UriPieces} (hp : p.WellCut) (hnone : p.scheme = none) :
    cutUri p.normal.text = p.joined := by
  unfold joined
  cases hsplit : (p.shownAuthority ++ removeDotSegments p.shownPath).splitOnceAt "://".toList with
  | none =>
    exact cutUri_text (hp.normal fun hjoin => List.splitOnceAt_eq_none.mp hsplit hjoin.2)
  | some parts =>
    obtain ⟨front, back⟩ := parts
    obtain ⟨heq, hfirst⟩ := List.splitOnceAt_eq_some.mp hsplit
    rw [List.append_assoc] at heq
    have hslash : '/' ∉ p.shownAuthority := fun hmem =>
      (mem_shownAuthority (by decide) hmem).elim hp.authority (by decide)
    have hplace := separator_normalizePercentEncoding hslash heq
    have hcolon : ':' ∉ ['/', '/'] := by decide
    -- no other one comes before it: percent-normalization makes none
    have hbefore : List.FirstCut (front.take p.shownAuthority.length ++
        normalizePercentEncoding (front.drop p.shownAuthority.length)) "://".toList := by
      refine (List.firstCut_iff hcolon).mpr fun hin => ?_
      have hin := infix_append_normalizePercentEncoding.mp hin
      rw [List.take_append_drop] at hin
      exact (List.firstCut_iff hcolon).mp hfirst hin
    have htext : p.normal.text = (front.take p.shownAuthority.length ++
        normalizePercentEncoding (front.drop p.shownAuthority.length)) ++ "://".toList ++
          (normalizePercentEncoding back ++ p.query) := by
      rw [normal_text_of_none hnone, normalizePath, ← List.append_assoc, hplace]
      simp only [List.append_assoc]
    have hscheme : cutScheme p.normal.text = (some (front.take p.shownAuthority.length ++
        normalizePercentEncoding (front.drop p.shownAuthority.length)),
          normalizePercentEncoding back ++ p.query) :=
      cutScheme_eq.mpr ⟨htext, List.splitOnceAt_eq_some.mpr ⟨htext, hbefore⟩⟩
    cases ha : splitAuthority (normalizePercentEncoding back ++ p.query) with
    | mk authority tail =>
      cases hq : cutQueryOff tail with
      | mk path query =>
        rw [cutUri_of hscheme ha hq]
        dsimp only
        rw [ha]
        dsimp only
        rw [hq]

example : (cutUri "x/a:/.//B".toList).joined = ⟨some "x/a".toList, ['B'], [], []⟩ := by
  decide +kernel

end UriPieces

/-! ## Hosts

A host is a bracketed literal or a name; making it lower case keeps which of the two it is, and
where it ends.
-/

theorem toAsciiLowercase_lowercaseHost (host : List Char) :
    toAsciiLowercase (lowercaseHost host) = toAsciiLowercase host := by
  unfold lowercaseHost
  split
  · split
    · rename_i address zone hsplit
      rw [List.splitOnceAt_append hsplit]
      simp only [toAsciiLowercase_append, toAsciiLowercase_idem]
    · exact toAsciiLowercase_idem host
  · exact toAsciiLowercase_idem host

theorem prefix_toAsciiLowercase {c : Char} (hc : c.isAlpha = false) {s : List Char} :
    [c] <+: toAsciiLowercase s ↔ [c] <+: s := by
  cases s with
  | nil => exact Iff.rfl
  | cons d s =>
    show [c] <+: d.toLower :: toAsciiLowercase s ↔ _
    rw [List.cons_prefix_cons, List.cons_prefix_cons, eq_comm, Char.toLower_eq_iff hc, eq_comm]
    simp

theorem bracketed_toAsciiLowercase {s : List Char} :
    Bracketed (toAsciiLowercase s) ↔ Bracketed s :=
  and_congr (prefix_toAsciiLowercase (by decide)) (mem_toAsciiLowercase (by decide))

theorem lowercaseHost_plain {host : List Char} (h : ¬Bracketed host) :
    lowercaseHost host = toAsciiLowercase host := by
  unfold lowercaseHost
  rw [if_neg]
  intro hb
  rw [Bool.and_eq_true, List.isPrefixOf_iff_prefix, List.isSuffixOf_iff_suffix] at hb
  exact h ⟨hb.1, hb.2.subset List.mem_cons_self⟩

/-- A text without letters is found where it was. -/
theorem split_toAsciiLowercase {s pat a b : List Char} (hpat : ∀ c ∈ pat, c.isAlpha = false)
    (h : toAsciiLowercase s = a ++ pat ++ b) :
    ∃ x y, s = x ++ pat ++ y ∧ toAsciiLowercase x = a ∧ toAsciiLowercase y = b := by
  obtain ⟨z, y, rfl, hz, hy⟩ := List.map_eq_append_iff.mp h
  obtain ⟨x, w, rfl, hx, hw⟩ := List.map_eq_append_iff.mp hz
  obtain rfl := (toAsciiLowercase_eq_iff hpat).mp hw
  exact ⟨x, y, rfl, hx, hy⟩

theorem suffix_toAsciiLowercase {c : Char} (hc : c.isAlpha = false) {s : List Char} :
    [c] <:+ toAsciiLowercase s ↔ [c] <:+ s := by
  have hpat : ∀ d ∈ [c], d.isAlpha = false := by simpa using hc
  constructor
  · rintro ⟨a, ha⟩
    obtain ⟨x, y, rfl, -, hy⟩ :=
      split_toAsciiLowercase (b := []) hpat (by rw [← ha, List.append_nil])
    rw [(toAsciiLowercase_eq_iff (by simp)).mp hy, List.append_nil]
    exact List.suffix_append _ _
  · rintro ⟨a, rfl⟩
    rw [toAsciiLowercase_append, (toAsciiLowercase_eq_iff hpat).mpr rfl]
    exact List.suffix_append _ _

/-- **Small letters in a host** are small the second time. -/
theorem lowercaseHost_idem (host : List Char) :
    lowercaseHost (lowercaseHost host) = lowercaseHost host := by
  -- Lowercasing changes no bracket, so both rounds take the same branch.
  have hbrackets : ∀ s t : List Char, toAsciiLowercase s = toAsciiLowercase t →
      (['['].isPrefixOf s && [']'].isSuffixOf s) = (['['].isPrefixOf t && [']'].isSuffixOf t) := by
    intro s t heq
    rw [Bool.eq_iff_iff, Bool.and_eq_true, Bool.and_eq_true, List.isPrefixOf_iff_prefix,
      List.isPrefixOf_iff_prefix, List.isSuffixOf_iff_suffix, List.isSuffixOf_iff_suffix,
      ← prefix_toAsciiLowercase (by decide), ← suffix_toAsciiLowercase (by decide), heq,
      prefix_toAsciiLowercase (by decide), suffix_toAsciiLowercase (by decide)]
  have hsame := hbrackets _ _ (toAsciiLowercase_lowercaseHost host)
  by_cases hb : (['['].isPrefixOf host && [']'].isSuffixOf host) = true
  · have hzone : ∀ c ∈ "%25".toList, c.isAlpha = false :=
      List.forall_mem_of_all (by decide +kernel)
    cases hsplit : host.splitOnceAt "%25".toList with
    | some parts =>
      obtain ⟨address, zone⟩ := parts
      have hlower : lowercaseHost host = toAsciiLowercase address ++ "%25".toList ++ zone := by
        unfold lowercaseHost
        rw [if_pos hb, hsplit]
      have hagain : (toAsciiLowercase address ++ "%25".toList ++ zone).splitOnceAt "%25".toList =
          some (toAsciiLowercase address, zone) := List.splitOnceAt_eq_some.mpr
        ⟨rfl, (firstCut_toAsciiLowercase hzone).mpr (List.splitOnceAt_eq_some.mp hsplit).2⟩
      rw [hlower] at hsame ⊢
      unfold lowercaseHost
      rw [hsame, if_pos hb, hagain]
      simp only [toAsciiLowercase_idem]
    | none =>
      have hlower : lowercaseHost host = toAsciiLowercase host := by
        unfold lowercaseHost
        rw [if_pos hb, hsplit]
      have hagain : (toAsciiLowercase host).splitOnceAt "%25".toList = none := by
        rw [List.splitOnceAt_eq_none]
        rintro ⟨a, b, hab⟩
        obtain ⟨x, y, hxy, -⟩ := split_toAsciiLowercase hzone hab.symm
        exact List.splitOnceAt_eq_none.mp hsplit ⟨x, y, hxy.symm⟩
      rw [hlower] at hsame ⊢
      unfold lowercaseHost
      rw [hsame, if_pos hb, hagain, toAsciiLowercase_idem]
  · have hlower : lowercaseHost host = toAsciiLowercase host := by
      unfold lowercaseHost
      rw [if_neg hb]
    rw [hlower] at hsame ⊢
    unfold lowercaseHost
    rw [hsame, if_neg hb, toAsciiLowercase_idem]

/-- A bracketed literal stays one. -/
theorem lowercaseHost_literal {literal : List Char} (hopen : ['['] <+: literal)
    (hclose : ']' ∉ literal) :
    ∃ shown, lowercaseHost (literal ++ [']']) = shown ++ [']'] ∧ ['['] <+: shown ∧ ']' ∉ shown := by
  have hlower : toAsciiLowercase (lowercaseHost (literal ++ [']'])) =
      toAsciiLowercase literal ++ [']'] ++ [] := by
    rw [toAsciiLowercase_lowercaseHost, toAsciiLowercase_append, List.append_nil]
    rfl
  obtain ⟨shown, y, heq, hshown, hy⟩ := split_toAsciiLowercase
    (List.forall_mem_of_all (by decide +kernel)) hlower
  rw [(toAsciiLowercase_eq_iff (by simp)).mp hy, List.append_nil] at heq
  refine ⟨shown, heq, ?_, ?_⟩
  · rw [← prefix_toAsciiLowercase (by decide), hshown, prefix_toAsciiLowercase (by decide)]
    exact hopen
  · rw [← mem_toAsciiLowercase (by decide), hshown, mem_toAsciiLowercase (by decide)]
    exact hclose

/-! ## Ports

The last colon of an authority separates the port. When the port is dropped there may be another
colon further in front, and what stands behind it is a port to the next pass.
-/

namespace UriPieces

/-- A port that is not shown: none, or the default of the scheme. -/
def DropsPort (p : UriPieces) (port : List Char) : Prop := port = [] ∨ port = p.defaultPort

/-- Where a port is dropped from an authority without a bracketed literal, what is left does
not end in a colon and another one that is dropped. -/
def PlainPort (p : UriPieces) : Prop :=
  ¬Bracketed p.authority → p.DropsPort (normalizeHostPort p.authority).2 →
    ∀ host port, (normalizeHostPort p.authority).1.rsplitOnce ':' = some (host, port) →
      ¬p.DropsPort port

theorem portText_of_drops {p : UriPieces} {port : List Char} (h : p.DropsPort port) :
    p.portText port = [] := by
  unfold portText
  rw [if_neg]
  rcases h with rfl | rfl
  · simp
  · simp

theorem portText_of_shown {p : UriPieces} {port : List Char} (h : ¬p.DropsPort port) :
    p.portText port = ':' :: port := by
  unfold portText
  rw [if_pos]
  rw [DropsPort, not_or] at h
  simpa using h

theorem defaultPort_normal (p : UriPieces) : p.normal.defaultPort = p.defaultPort := by
  have hscheme : p.normal.scheme.map toAsciiLowercase = p.scheme.map toAsciiLowercase := by
    show (p.scheme.map toAsciiLowercase).map toAsciiLowercase = _
    rw [Option.map_map]
    exact Option.map_congr fun s _ => toAsciiLowercase_idem s
  unfold defaultPort
  rw [hscheme]

theorem portText_normal (p : UriPieces) (port : List Char) :
    p.normal.portText port = p.portText port := by
  unfold portText
  rw [defaultPort_normal]

theorem defaultPort_cases (p : UriPieces) :
    p.defaultPort ∈ [[], "80".toList, "443".toList] := by
  unfold defaultPort
  split
  · decide
  · split
    · decide
    · exact List.mem_cons_self

theorem defaultPort_not_alpha (p : UriPieces) : ∀ c ∈ p.defaultPort, c.isAlpha = false := by
  have hall : ∀ port ∈ [[], "80".toList, "443".toList], (port.any Char.isAlpha) = false :=
    List.forall_mem_of_all (by decide +kernel)
  intro c hc
  exact Bool.eq_false_iff.mpr (List.any_eq_false.mp (hall _ p.defaultPort_cases) c hc)

theorem dropsPort_toAsciiLowercase {p : UriPieces} {port : List Char} :
    p.DropsPort (toAsciiLowercase port) ↔ p.DropsPort port :=
  or_congr (toAsciiLowercase_eq_iff (by simp)) (toAsciiLowercase_eq_iff p.defaultPort_not_alpha)

/-- A bracketed literal is found again, whatever stands behind it. -/
theorem shownAuthority_normal_bracketed {p : UriPieces} {literal after : List Char}
    (hopen : ['['] <+: literal) (hclose : ']' ∉ literal)
    (hparts : normalizeHostPort p.authority = (literal ++ [']'], afterBracket after)) :
    p.normal.shownAuthority = p.shownAuthority := by
  obtain ⟨shown, hshown, hopen', hclose'⟩ := lowercaseHost_literal hopen hclose
  have hidem : lowercaseHost (shown ++ [']']) = shown ++ [']'] := by
    rw [← hshown, lowercaseHost_idem]
  have htext : p.shownAuthority = shown ++ ']' :: p.portText (afterBracket after) := by
    unfold shownAuthority
    rw [hparts, hshown, List.append_assoc]
    rfl
  have hagain : normalizeHostPort p.shownAuthority =
      (shown ++ [']'], afterBracket (p.portText (afterBracket after))) := by
    rw [htext]
    exact normalizeHostPort_bracketed (hopen'.trans (List.prefix_append _ _)) hclose'
  have hport : p.portText (afterBracket (p.portText (afterBracket after))) =
      p.portText (afterBracket after) := by
    by_cases hdrop : p.DropsPort (afterBracket after)
    · rw [portText_of_drops hdrop]
      exact portText_of_drops (.inl rfl)
    · rw [portText_of_shown hdrop]
      exact portText_of_shown hdrop
  show lowercaseHost (normalizeHostPort p.shownAuthority).1 ++
    p.normal.portText (normalizeHostPort p.shownAuthority).2 = _
  rw [hagain, portText_normal, hidem, htext, hport, List.append_assoc]
  rfl

/-- An authority without a bracketed literal, shown once more. -/
theorem shownAuthority_normal_plain {p : UriPieces} (h : ¬Bracketed p.shownAuthority) :
    p.normal.shownAuthority =
      lowercaseHost ((p.shownAuthority.rsplitOnce ':').getD (p.shownAuthority, [])).1 ++
        p.portText ((p.shownAuthority.rsplitOnce ':').getD (p.shownAuthority, [])).2 := by
  show lowercaseHost (normalizeHostPort p.shownAuthority).1 ++
    p.normal.portText (normalizeHostPort p.shownAuthority).2 = _
  rw [portText_normal, normalizeHostPort_plain h]

/-- The port is shown again. -/
theorem shownAuthority_normal_shown {p : UriPieces} {host port : List Char}
    (hplain : ¬Bracketed p.authority) (heq : p.authority = host ++ ':' :: port) (hport : ':' ∉ port)
    (hhost : ¬Bracketed host) (hshown : ¬p.DropsPort port)
    (htext : p.shownAuthority = toAsciiLowercase host ++ p.portText port) :
    p.normal.shownAuthority = p.shownAuthority := by
  rw [portText_of_shown hshown] at htext
  have hlower : toAsciiLowercase p.shownAuthority = toAsciiLowercase p.authority := by
    rw [htext, heq, toAsciiLowercase_append, toAsciiLowercase_idem, ← toAsciiLowercase_append]
  have hbracket : ¬Bracketed p.shownAuthority := by
    rwa [← bracketed_toAsciiLowercase, hlower, bracketed_toAsciiLowercase]
  have hsome : p.shownAuthority.rsplitOnce ':' = some (toAsciiLowercase host, port) :=
    List.rsplitOnce_eq_some.mpr ⟨htext, hport⟩
  rw [shownAuthority_normal_plain hbracket, hsome]
  show lowercaseHost (toAsciiLowercase host) ++ p.portText port = p.shownAuthority
  rw [portText_of_shown hshown, htext, ← lowercaseHost_plain hhost, lowercaseHost_idem]

/-- Where the port is dropped, the host is what is cut the next time. -/
theorem shownAuthority_normal_dropped {p : UriPieces} {host : List Char} (hhost : ¬Bracketed host)
    (htext : p.shownAuthority = toAsciiLowercase host) :
    p.normal.shownAuthority = p.shownAuthority ↔
      ∀ host' port', host.rsplitOnce ':' = some (host', port') → ¬p.DropsPort port' := by
  have hshown : ¬Bracketed p.shownAuthority := by rwa [htext, bracketed_toAsciiLowercase]
  rw [shownAuthority_normal_plain hshown, htext]
  cases hsplit : host.rsplitOnce ':' with
  | none =>
    have hnone : (toAsciiLowercase host).rsplitOnce ':' = none := by
      rw [List.rsplitOnce_eq_none, mem_toAsciiLowercase (by decide)]
      exact List.rsplitOnce_eq_none.mp hsplit
    rw [hnone]
    refine iff_of_true ?_ fun _ _ h => by cases h
    show lowercaseHost (toAsciiLowercase host) ++ p.portText [] = toAsciiLowercase host
    rw [portText_of_drops (.inl rfl), List.append_nil, ← lowercaseHost_plain hhost,
      lowercaseHost_idem]
  | some parts =>
    obtain ⟨host', port'⟩ := parts
    obtain ⟨rfl, hport'⟩ := List.rsplitOnce_eq_some.mp hsplit
    have hsome : (toAsciiLowercase (host' ++ ':' :: port')).rsplitOnce ':' =
        some (toAsciiLowercase host', toAsciiLowercase port') := by
      rw [List.rsplitOnce_eq_some, mem_toAsciiLowercase (by decide)]
      exact ⟨toAsciiLowercase_append _ _, hport'⟩
    have hhost' : ¬Bracketed host' := fun hb =>
      hhost ⟨hb.1.trans (List.prefix_append _ _), List.mem_append_left _ hb.2⟩
    rw [hsome]
    show lowercaseHost (toAsciiLowercase host') ++ p.portText (toAsciiLowercase port') =
      toAsciiLowercase (host' ++ ':' :: port') ↔ _
    rw [← lowercaseHost_plain hhost', lowercaseHost_idem, lowercaseHost_plain hhost',
      toAsciiLowercase_append, List.append_cancel_left_eq]
    constructor
    · intro heq host'' port'' hparts' hdrop'
      obtain ⟨rfl, rfl⟩ := Prod.mk.inj (Option.some.inj hparts')
      rw [portText_of_drops (dropsPort_toAsciiLowercase.mpr hdrop')] at heq
      cases heq
    · intro h
      rw [portText_of_shown fun hd => h _ _ rfl (dropsPort_toAsciiLowercase.mp hd)]
      rfl

/-- **An authority is shown alike the second time** unless dropping a port brings another one
to light. -/
theorem shownAuthority_normal (p : UriPieces) :
    p.normal.shownAuthority = p.shownAuthority ↔ p.PlainPort := by
  rcases normalizeHostPort_cases p.authority with
    ⟨literal, after, heq, hopen, hclose, hparts⟩ | ⟨hplain, hparts⟩
  · refine iff_of_true (shownAuthority_normal_bracketed hopen hclose hparts) fun hplain => ?_
    refine absurd ?_ hplain
    rw [heq]
    exact ⟨hopen.trans (List.prefix_append _ _), by simp⟩
  · obtain ⟨host, port, t, hparts, ht, hport⟩ : ∃ host port t,
        normalizeHostPort p.authority = (host, port) ∧ p.authority = host ++ t ∧
          (port = [] ∨ t = ':' :: port ∧ ':' ∉ port) := by
      rcases hparts with ⟨host, port, heq, hport, hparts⟩ | ⟨-, hparts⟩
      · exact ⟨host, port, _, hparts, heq, .inr ⟨rfl, hport⟩⟩
      · exact ⟨p.authority, [], [], hparts, (List.append_nil _).symm, .inl rfl⟩
    have hhost : ¬Bracketed host := fun hb =>
      hplain (ht ▸ ⟨hb.1.trans (List.prefix_append _ _), List.mem_append_left _ hb.2⟩)
    have htext : p.shownAuthority = toAsciiLowercase host ++ p.portText port := by
      unfold shownAuthority
      rw [hparts, lowercaseHost_plain hhost]
    have hplainPort : p.PlainPort ↔ (p.DropsPort port →
        ∀ host' port', host.rsplitOnce ':' = some (host', port') → ¬p.DropsPort port') := by
      unfold PlainPort
      rw [hparts]
      exact ⟨fun h => h hplain, fun h _ => h⟩
    rw [hplainPort]
    by_cases hdrop : p.DropsPort port
    · rw [portText_of_drops hdrop, List.append_nil] at htext
      rw [shownAuthority_normal_dropped hhost htext]
      exact ⟨fun h _ => h, fun h => h hdrop⟩
    · obtain ⟨rfl, hfree⟩ := hport.resolve_left fun hnil => hdrop (.inl hnil)
      refine iff_of_true ?_ fun hd => absurd hd hdrop
      exact shownAuthority_normal_shown hplain ht hfree hhost hdrop htext

/-! ## Normal forms

A normal form is described piece by piece (`IsNormal`), and then shown to be what normalization
leaves alone, in both directions. Idempotence is the question whether the pieces of the result
are of this kind.
-/

/-- Nothing is left to do. -/
structure IsNormal (p : UriPieces) : Prop where
  scheme : p.scheme.map toAsciiLowercase = p.scheme
  authority : p.shownAuthority = p.authority
  path : NormalPath p.path

theorem shownPath_of_slash {p : UriPieces} (h : ['/'] <+: p.path) : p.shownPath = p.path := by
  unfold shownPath
  rw [if_neg]
  intro hempty
  rw [List.isEmpty_iff.mp hempty] at h
  exact absurd h (by simp)

theorem normal_of_isNormal {p : UriPieces} (h : p.IsNormal) : p.normal = p := by
  obtain ⟨scheme, authority, path, query⟩ := p
  have hpath : normalizePath (shownPath ⟨scheme, authority, path, query⟩) = path := by
    rw [shownPath_of_slash h.path.slash]
    exact (normalizePath_eq_self h.path.slash).mpr h.path
  unfold normal
  rw [h.authority, hpath]
  exact congrArg (UriPieces.mk · authority path query) h.scheme

/-- **Pieces whose text stays as it is are normal.** -/
theorem isNormal_of_text {p : UriPieces} (hp : p.WellCut) (h : p.normal.text = p.text) :
    p.IsNormal := by
  -- The scheme keeps its length, and no slash stands before the path.
  have hlen : (schemeText p.normal.scheme).length = (schemeText p.scheme).length := by
    show (schemeText (p.scheme.map toAsciiLowercase)).length = _
    cases p.scheme with
    | none => rfl
    | some s => simp [schemeText, toAsciiLowercase]
  obtain ⟨hscheme, hrest⟩ := List.append_inj h hlen
  have hpath : ['/'] <+: normalizePath p.shownPath := slash_normalizePath (slash_shownPath hp)
  have hauthority : '/' ∉ p.shownAuthority := fun hmem =>
    (mem_shownAuthority (by decide) hmem).elim hp.authority fun h => absurd h (by decide)
  have hrest : p.shownAuthority ++ normalizePath p.shownPath = p.authority ++ p.path := by
    have : p.shownAuthority ++ (normalizePath p.shownPath ++ p.query) =
        p.authority ++ (p.path ++ p.query) := hrest
    rwa [← List.append_assoc, ← List.append_assoc, List.append_cancel_right_eq] at this
  have hslash : ['/'] <+: p.path := by
    refine hp.path.resolve_left fun hnil => hp.authority ?_
    rw [hnil, List.append_nil] at hrest
    rw [← hrest]
    exact List.mem_append_right _ (hpath.subset List.mem_cons_self)
  obtain ⟨q, hq⟩ := hpath
  obtain ⟨q', hq'⟩ := hslash
  rw [← hq, ← hq'] at hrest
  have hcut := List.splitOnce_append (r := q) hauthority
  rw [show p.shownAuthority ++ '/' :: q = p.authority ++ '/' :: q' from hrest,
    List.splitOnce_append hp.authority] at hcut
  obtain ⟨ha, hqq⟩ := Prod.mk.inj (Option.some.inj hcut)
  have hslash : ['/'] <+: p.path := ⟨q', hq'⟩
  refine ⟨?_, ha.symm, (normalizePath_eq_self hslash).mp ?_⟩
  · have hscheme : schemeText (p.scheme.map toAsciiLowercase) = schemeText p.scheme := hscheme
    revert hscheme
    cases p.scheme with
    | none => exact fun _ => rfl
    | some s => exact fun heq => congrArg some (List.append_cancel_right heq)
  · rw [← shownPath_of_slash hslash, ← hq, shownPath_of_slash hslash, ← hq', hqq]

theorem isNormal_normal {p : UriPieces} (hp : p.WellCut) :
    p.normal.IsNormal ↔ p.PlainPort ∧ PlainSegments p.shownPath := by
  have hscheme : p.normal.scheme.map toAsciiLowercase = p.normal.scheme := by
    show (p.scheme.map toAsciiLowercase).map toAsciiLowercase = _
    rw [Option.map_map]
    exact Option.map_congr fun s _ => toAsciiLowercase_idem s
  rw [← shownAuthority_normal, ← normalPath_normalizePath (slash_shownPath hp)]
  exact ⟨fun h => ⟨h.authority, h.path⟩, fun h => ⟨hscheme, h.1, h.2⟩⟩

end UriPieces

/-- **What normalization leaves alone.** -/
theorem normalizeUri_eq_self {w : List Char} :
    normalizeUri w = .ok w ↔ Permitted w ∧ (cutUri w).IsNormal := by
  rw [normalizeUri_eq_ok]
  refine and_congr_right fun _ => ⟨fun h => ?_, fun h => ?_⟩
  · exact UriPieces.isNormal_of_text (wellCut_cutUri w) (by rw [← h, text_cutUri])
  · rw [UriPieces.normal_of_isNormal h, text_cutUri]

/-! ## The result is permitted

A second pass has to get to work at all: what normalization puts out has no character that the
checks in front of it refuse.
-/

theorem isAscii_iff {s : List Char} : isAscii s = true ↔ ∀ c ∈ s, c.toNat < 128 := by
  rw [isAscii, List.all_eq_true]
  exact forall₂_congr fun c _ => decide_eq_true_iff

theorem ascii_toAsciiLowercase {s : List Char} :
    (∀ c ∈ toAsciiLowercase s, c.toNat < 128) ↔ ∀ c ∈ s, c.toNat < 128 := by
  rw [toAsciiLowercase, List.forall_mem_map]
  exact forall₂_congr fun c _ => Char.toLower_ascii

theorem ascii_lowercaseHost {host : List Char} (h : ∀ c ∈ host, c.toNat < 128) :
    ∀ c ∈ lowercaseHost host, c.toNat < 128 := by
  rw [← ascii_toAsciiLowercase, toAsciiLowercase_lowercaseHost, ascii_toAsciiLowercase]
  exact h

namespace UriPieces

theorem ascii_shownAuthority {p : UriPieces} (h : ∀ c ∈ p.authority, c.toNat < 128) :
    ∀ c ∈ p.shownAuthority, c.toNat < 128 := by
  intro c hc
  rcases List.mem_append.mp hc with hc | hc
  · exact ascii_lowercaseHost (fun d hd => h d (mem_normalizeHostPort (.inl hd))) c hc
  · unfold portText at hc
    split at hc
    · rcases List.mem_cons.mp hc with rfl | hc
      · decide
      · exact h c (mem_normalizeHostPort (.inr hc))
    · exact absurd hc List.not_mem_nil

theorem mem_normal_path {p : UriPieces} {c : Char} (h : c ∈ p.normal.path) :
    c ∈ p.path ∨ c.toNat < 128 ∧ c ∉ ['#', '@'] := by
  rcases mem_normalizePath h with rfl | h | ⟨hlt, hnot⟩
  · exact .inr (by decide)
  · unfold shownPath at h
    split at h
    · rw [List.mem_singleton.mp h]
      exact .inr (by decide)
    · exact .inl h
  · exact .inr ⟨hlt, fun hmem => hnot (by
      rw [List.mem_pair] at hmem
      rcases hmem with rfl | rfl <;> decide)⟩

/-- What holds of every character of the pieces. -/
theorem forall_mem_text {p : UriPieces} {P : Char → Prop} :
    (∀ c ∈ p.text, P c) ↔ (∀ c ∈ schemeText p.scheme, P c) ∧ (∀ c ∈ p.authority, P c) ∧
      (∀ c ∈ p.path, P c) ∧ ∀ c ∈ p.query, P c := by
  simp only [text, rest, List.forall_mem_append]

/-- What lower case keeps of the scheme holds of its text. -/
theorem forall_mem_schemeText_lower {scheme : Option (List Char)} {P : Char → Prop}
    (hP : ∀ s : List Char, (∀ c ∈ s, P c) → ∀ c ∈ toAsciiLowercase s, P c)
    (h : ∀ c ∈ schemeText scheme, P c) :
    ∀ c ∈ schemeText (scheme.map toAsciiLowercase), P c := by
  cases scheme with
  | none => exact fun c hc => absurd hc List.not_mem_nil
  | some s =>
    obtain ⟨hs, hsep⟩ := List.forall_mem_append.mp h
    exact List.forall_mem_append.mpr ⟨hP s hs, hsep⟩

/-- The result has no character that is refused. -/
theorem permitted_text_normal {p : UriPieces} (hascii : isAscii p.text = true)
    (hfragment : '#' ∉ p.text) : isAscii p.normal.text = true ∧ '#' ∉ p.normal.text := by
  rw [isAscii_iff] at hascii ⊢
  obtain ⟨hscheme, hauthority, hpath, hquery⟩ := forall_mem_text.mp hascii
  constructor
  · refine forall_mem_text.mpr ⟨?_, ascii_shownAuthority hauthority, ?_, hquery⟩
    · exact forall_mem_schemeText_lower (fun s => ascii_toAsciiLowercase.mpr) hscheme
    · exact fun c hc => (mem_normal_path hc).elim (hpath c) And.left
  · have hfree : ∀ c ∈ p.text, c ≠ '#' := fun c hc he => hfragment (he ▸ hc)
    obtain ⟨hscheme, hauthority, hpath, hquery⟩ := forall_mem_text.mp hfree
    have hall : ∀ c ∈ p.normal.text, c ≠ '#' := by
      refine forall_mem_text.mpr ⟨?_, ?_, ?_, hquery⟩
      · refine forall_mem_schemeText_lower (fun s hs => ?_) hscheme
        rintro c hc rfl
        exact hs '#' ((mem_toAsciiLowercase (by decide)).mp hc) rfl
      · rintro c hc rfl
        exact (mem_shownAuthority (by decide) hc).elim (fun h => hauthority _ h rfl) (by decide)
      · rintro c hc rfl
        exact (mem_normal_path hc).elim (fun h => hpath _ h rfl) fun h => h.2 (by decide)
    exact fun hmem => hall _ hmem rfl

end UriPieces

/-- **A result whose pieces are where they were put** is permitted. -/
theorem permitted_normal {u : List Char} (h : Permitted u) (hjoin : ¬(cutUri u).JoinsScheme) :
    Permitted (cutUri u).normal.text := by
  obtain ⟨hascii, hfragment⟩ := UriPieces.permitted_text_normal (p := cutUri u)
    (by rw [text_cutUri]; exact h.ascii) (by rw [text_cutUri]; exact h.fragment)
  refine ⟨hascii, hfragment, ?_⟩
  rw [cutUri_text ((wellCut_cutUri u).normal hjoin)]
  intro hmem
  exact (UriPieces.mem_shownAuthority (by decide) hmem).elim h.userinfo (by decide)

/-! ## Normalizing twice

The three conditions, one for each section above, and nothing else.
-/

/-- **Normalization is idempotent** on a URI in which no port and no dot segment comes to light
and no `://` comes together; where one does, exactly if the pieces it divides are normal.

Each pass works on text that another has changed already: dot segments are removed before triplets
are decoded, a port is dropped without a look at what stands before it, and removing segments can
bring a colon in front of two slashes. In each case the second run finds something to do that the
first had no way to see. -/
theorem normalizeUri_idempotent_iff {u v : List Char} (h : normalizeUri u = .ok v) :
    (¬(cutUri u).JoinsScheme →
      (normalizeUri v = .ok v ↔
        (cutUri u).PlainPort ∧ PlainSegments (cutUri u).shownPath)) ∧
    ((cutUri u).JoinsScheme →
      (normalizeUri v = .ok v ↔
        '@' ∉ (cutUri u).joined.authority ∧ (cutUri u).joined.IsNormal)) := by
  obtain ⟨hu, rfl⟩ := normalizeUri_eq_ok.mp h
  rw [normalizeUri_eq_self]
  constructor
  · intro hjoin
    rw [cutUri_text ((wellCut_cutUri u).normal hjoin),
      UriPieces.isNormal_normal (wellCut_cutUri u)]
    exact and_iff_right (permitted_normal hu hjoin)
  · intro hjoin
    rw [← UriPieces.cutUri_normal_text (wellCut_cutUri u) hjoin.1]
    obtain ⟨hascii, hfragment⟩ := UriPieces.permitted_text_normal (p := cutUri u)
      (by rw [text_cutUri]; exact hu.ascii) (by rw [text_cutUri]; exact hu.fragment)
    exact and_congr_left fun _ => ⟨fun hp => hp.userinfo, fun hat => ⟨hascii, hfragment, hat⟩⟩

theorem normalizeUri_idempotent_iff_example :
    normalizeUri "https://a.example/a%2F?q=1".toList = .ok "https://a.example/a%2F?q=1".toList := by
  have h : normalizeUri "HTTPS://A.example:443/x/../%61%2f?q=1".toList =
      .ok "https://a.example/a%2F?q=1".toList := by
    decide +kernel
  refine ((normalizeUri_idempotent_iff h).1 fun hjoin => ?_).mpr
    ⟨fun _ _ host port hsplit => ?_, ?_⟩
  · exact absurd hjoin.1 (by decide +kernel)
  · have hparts :
        normalizeHostPort (cutUri "HTTPS://A.example:443/x/../%61%2f?q=1".toList).authority =
          ("A.example".toList, "443".toList) := by
      decide +kernel
    rw [hparts] at hsplit
    have hnone : "A.example".toList.rsplitOnce ':' = none := by decide +kernel
    cases hnone.symm.trans hsplit
  · exact (by decide +kernel)

/-- A hidden dot segment, a second default port, and a separator that comes together. -/
theorem normalizeUri_not_idempotent :
    (normalizeUri "http://h/a/%2e%2e/b".toList = .ok "http://h/a/../b".toList ∧
      normalizeUri "http://h/a/../b".toList = .ok "http://h/b".toList) ∧
    (normalizeUri "http://h:80:80/".toList = .ok "http://h:80/".toList ∧
      normalizeUri "http://h:80/".toList = .ok "http://h/".toList) ∧
    normalizeUri "x/a:/.//B".toList = .ok "x/a://B".toList ∧
      normalizeUri "x/a://B".toList = .ok "x/a://b/".toList := by
  decide +kernel

end Cat
