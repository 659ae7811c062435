import Cat.Uri.Normal

/-!
# Where the delimiters are

The delimiters of a URI are found by first occurrence, each on its own. They are those of the
generic syntax unless a `://` stands behind a character that no scheme has, a question mark
stands before the first slash, or a `://` comes together where dot segments are removed.

The generic syntax is read from left to right, with the set of delimiters that still count
getting smaller on the way: behind the first of them that ends the authority, a slash is part of
the path and a colon is part of a segment. Looking for each delimiter from the start of the text
finds the same places as long as none of them stands where the syntax would no longer see it.
The three exceptions are the ways in which that happens, each a condition on the text of the
URI.

The last of them is about a text that is not there yet: it comes about by normalization. It is
stated on the pieces of the URI that was given, which is what `Uri.Normal` has prepared.
-/

set_option autoImplicit false

namespace Cat

/-- A letter, a digit, `+`, `-` or `.`. -/
def isSchemeChar (c : Char) : Bool := c.isAlphanum || c == '+' || c == '-' || c == '.'

def endsAuthority (c : Char) : Bool := c == '/' || c == '?'

/-- The generic syntax: a scheme is made of scheme characters and ends at the first `://`, the
authority at the first slash or question mark, and the path at the first question mark. -/
def delimitUri (uri : List Char) : UriPieces :=
  let (scheme, rest) := match cutScheme uri with
    | (some scheme, rest) => if scheme.all isSchemeChar then (some scheme, rest) else (none, uri)
    | (none, rest) => (none, rest)
  let (path, query) := cutQueryOff (rest.dropWhile fun c => !endsAuthority c)
  { scheme, authority := rest.takeWhile fun c => !endsAuthority c, path, query }

/-- The components are those of the generic syntax, normalized, and no delimiter is in the
host. -/
def FollowsDelimiters (uri : List Char) (c : UriComponents) : Prop :=
  c = (delimitUri uri).normal.components ∧ ∀ x ∈ c.host, x ∉ ['/', '?', '@']

/-- The first `://` stands behind scheme characters only, no question mark stands before the
slash that ends the authority, and no `://` comes together. -/
structure PlainDelimiters (uri : List Char) : Prop where
  scheme : ∀ scheme, (cutUri uri).scheme = some scheme → scheme.all isSchemeChar = true
  mark : '?' ∉ (cutUri uri).authority
  join : ¬(cutUri uri).JoinsScheme

theorem decomposeUri_eq_ok {uri : String} {c : UriComponents} :
    decomposeUri uri = .ok c ↔
      Permitted uri.toList ∧ Permitted (cutUri uri.toList).normal.text ∧
        c = (cutUri (cutUri uri.toList).normal.text).components := by
  unfold decomposeUri
  constructor
  · intro h
    obtain ⟨v, hv, h⟩ := Except.bind_eq_ok.mp h
    obtain ⟨hu, rfl⟩ := normalizeUri_eq_ok.mp hv
    exact ⟨hu, parseUri_eq_ok.mp h⟩
  · rintro ⟨hu, hv⟩
    exact Except.bind_eq_ok.mpr ⟨_, normalizeUri_eq_ok.mpr ⟨hu, rfl⟩, parseUri_eq_ok.mpr hv⟩

/-! ## The generic syntax, where it agrees

The two ways of cutting take the same scheme, as long as what stands before the first `://` can
be one. They can then differ in where the authority ends, and only by a question mark in it.
-/

theorem takeWhile_authority {authority tail : List Char}
    (h : ∀ c ∈ authority, endsAuthority c = false)
    (htail : ∀ c t, tail = c :: t → endsAuthority c = true) :
    (authority ++ tail).takeWhile (fun c => !endsAuthority c) = authority ∧
      (authority ++ tail).dropWhile (fun c => !endsAuthority c) = tail := by
  have hall : ∀ c ∈ authority, (!endsAuthority c) = true := fun c hc => by rw [h c hc]; rfl
  rw [List.takeWhile_append_of_pos hall, List.dropWhile_append_of_pos hall]
  cases tail with
  | nil => exact ⟨List.append_nil _, rfl⟩
  | cons c t =>
    have hc : (!endsAuthority c) = false := by rw [htail c t rfl]; rfl
    rw [List.takeWhile_cons, List.dropWhile_cons, hc]
    exact ⟨List.append_nil _, rfl⟩

theorem cutScheme_cutUri (uri : List Char) :
    cutScheme uri = ((cutUri uri).scheme, (cutUri uri).rest) := by
  have hscheme := (wellCut_cutUri uri).scheme
  rw [text_cutUri] at hscheme
  exact cutScheme_eq.mpr ⟨(text_cutUri uri).symm, hscheme⟩

/-- Behind the same scheme, the generic syntax ends the authority at the first delimiter. -/
theorem delimitUri_eq {uri authority tail path query : List Char} {scheme : Option (List Char)}
    (hscheme : ∀ s, (cutUri uri).scheme = some s → s.all isSchemeChar = true)
    (hs : (cutUri uri).scheme = scheme) (hrest : (cutUri uri).rest = authority ++ tail)
    (hfree : ∀ c ∈ authority, endsAuthority c = false)
    (htail : ∀ c t, tail = c :: t → endsAuthority c = true)
    (hq : cutQueryOff tail = (path, query)) :
    delimitUri uri = ⟨scheme, authority, path, query⟩ := by
  obtain ⟨htake, hdrop⟩ := takeWhile_authority hfree htail
  unfold delimitUri
  rw [cutScheme_cutUri, hrest, hs]
  cases scheme with
  | none =>
    dsimp only
    rw [htake, hdrop, hq]
  | some s =>
    dsimp only
    rw [if_pos (hscheme s hs)]
    dsimp only
    rw [htake, hdrop, hq]

theorem delimitUri_cutUri {uri : List Char}
    (hscheme : ∀ s, (cutUri uri).scheme = some s → s.all isSchemeChar = true)
    (hmark : '?' ∉ (cutUri uri).authority) : delimitUri uri = cutUri uri := by
  have hwell := wellCut_cutUri uri
  refine delimitUri_eq hscheme rfl rfl (fun c hc => ?_) (fun c t heq => ?_)
    (cutQueryOff_eq.mpr ⟨rfl, hwell.mark, hwell.query⟩)
  · rw [Bool.eq_false_iff]
    intro hend
    rw [endsAuthority, Bool.or_eq_true, beq_iff_eq, beq_iff_eq] at hend
    rcases hend with rfl | rfl
    · exact hwell.authority hc
    · exact hmark hc
  · rcases hwell.path with hnil | ⟨r, hr⟩
    · rw [hnil, List.nil_append] at heq
      rcases hwell.query with hnil | ⟨r, hr⟩
      · exact absurd (heq.symm.trans hnil) (by simp)
      · rw [← hr] at heq
        rw [← List.head_eq_of_cons_eq heq]
        rfl
    · rw [← hr] at heq
      rw [← List.head_eq_of_cons_eq heq]
      rfl

/-- A question mark in the authority ends it, in the generic syntax. -/
theorem delimitUri_mark {uri front back : List Char}
    (hscheme : ∀ s, (cutUri uri).scheme = some s → s.all isSchemeChar = true)
    (hauthority : (cutUri uri).authority = front ++ '?' :: back) (hfront : '?' ∉ front) :
    delimitUri uri = ⟨(cutUri uri).scheme, front, [],
      '?' :: (back ++ ((cutUri uri).path ++ (cutUri uri).query))⟩ := by
  have hwell := wellCut_cutUri uri
  have hrest : (cutUri uri).rest =
      front ++ '?' :: (back ++ ((cutUri uri).path ++ (cutUri uri).query)) := by
    rw [UriPieces.rest, hauthority, List.append_assoc, List.cons_append]
  refine delimitUri_eq hscheme rfl hrest (fun c hc => ?_) (fun c t heq => ?_)
    (cutQueryOff_eq.mpr ⟨rfl, List.not_mem_nil, .inr (List.prefix_append ['?'] _)⟩)
  · rw [Bool.eq_false_iff]
    intro hend
    rw [endsAuthority, Bool.or_eq_true, beq_iff_eq, beq_iff_eq] at hend
    rcases hend with rfl | rfl
    · exact hwell.authority (hauthority ▸ List.mem_append_left _ hc)
    · exact hfront hc
  · rw [← List.head_eq_of_cons_eq heq]
    rfl

/-! ## Host and port, as they are read

The authority is read once more when the normalized text is decomposed, and a question mark in
it may end up in the host, in the port, or be dropped behind a bracketed literal.
-/

/-- What is read as a port behind a bracketed literal. -/
def digitsAfter : List Char → List Char
  | ':' :: port => if !port.isEmpty && port.all Char.isDigit then port else []
  | _ => []

theorem parseHostPort_bracketed {literal after : List Char} (hopen : ['['] <+: literal)
    (hclose : ']' ∉ literal) :
    parseHostPort (literal ++ ']' :: after) = (literal ++ [']'], digitsAfter after) := by
  unfold parseHostPort
  rw [if_pos (List.isPrefixOf_iff_prefix.mpr (hopen.trans (List.prefix_append _ _))),
    List.splitOnce_append hclose]
  dsimp only
  split
  · rw [digitsAfter]
    split
    · rfl
    · rfl
  · rename_i hcolon
    rw [digitsAfter.eq_2 after hcolon]

/-- Nothing is lost of an authority without a bracketed literal. -/
theorem parseHostPort_plain {authority : List Char} (h : ¬Bracketed authority) :
    (parseHostPort authority = (authority, []) ∨
      ∃ host port, authority = host ++ ':' :: port ∧ port ≠ [] ∧
        parseHostPort authority = (host, port)) := by
  unfold parseHostPort
  split
  · rename_i hopen
    have hclose : ']' ∉ authority := fun hmem => h ⟨List.isPrefixOf_iff_prefix.mp hopen, hmem⟩
    rw [List.splitOnce_eq_none.mpr hclose]
    exact .inl rfl
  · cases hsplit : authority.rsplitOnce ':' with
    | none => exact .inl rfl
    | some parts =>
      obtain ⟨host, port⟩ := parts
      dsimp only
      split
      · rename_i hdigits
        refine .inr ⟨host, port, (List.rsplitOnce_eq_some.mp hsplit).1, ?_, rfl⟩
        rintro rfl
        simp at hdigits
      · exact .inl rfl

theorem bracketed_iff {authority : List Char} :
    Bracketed authority ↔
      ∃ literal after, authority = literal ++ ']' :: after ∧ ['['] <+: literal ∧ ']' ∉ literal := by
  constructor
  · rintro ⟨hopen, hclose⟩
    obtain ⟨literal, after, rfl, hnot⟩ := List.eq_append_cons_of_mem hclose
    refine ⟨literal, after, rfl, ?_, hnot⟩
    cases literal with
    | nil => exact absurd hopen (by simp)
    | cons c literal => simpa using hopen
  · rintro ⟨literal, after, rfl, hopen, -⟩
    exact ⟨hopen.trans (List.prefix_append _ _), by simp⟩

theorem mem_parseHostPort {authority : List Char} {c : Char}
    (h : c ∈ (parseHostPort authority).1) : c ∈ authority := by
  by_cases hb : Bracketed authority
  · obtain ⟨literal, after, rfl, hopen, hclose⟩ := bracketed_iff.mp hb
    rw [parseHostPort_bracketed hopen hclose] at h
    rcases List.mem_append.mp h with h | h
    · exact List.mem_append_left _ h
    · exact List.mem_append_right _ (List.mem_singleton.mp h ▸ List.mem_cons_self)
  · rcases parseHostPort_plain hb with heq | ⟨host, port, rfl, -, heq⟩
    · rwa [heq] at h
    · rw [heq] at h
      exact List.mem_append_left _ h

/-! ## A `://` that comes together

Here the normalized text has a scheme and the URI has none, and no reading of the URI by the
generic syntax gives components with a scheme.
-/

namespace UriPieces

/-- A `://` that comes together is read as the end of a scheme. -/
theorem JoinsScheme.scheme {p : UriPieces} (hp : p.WellCut) (h : p.JoinsScheme) :
    ∃ s, (cutUri p.normal.text).scheme = some s := by
  obtain ⟨hnone, hin⟩ := h
  rw [cutUri_normal_text hp hnone, joined]
  cases hsplit : (p.shownAuthority ++ removeDotSegments p.shownPath).splitOnceAt "://".toList with
  | none => exact absurd hin (List.splitOnceAt_eq_none.mp hsplit)
  | some parts => exact ⟨_, rfl⟩

/-- An authority without a bracketed literal loses no question mark. -/
theorem mark_shownAuthority {p : UriPieces} (hb : ¬Bracketed p.authority)
    (h : '?' ∈ p.authority) : '?' ∈ p.shownAuthority := by
  have hhost : ∀ {host : List Char}, '?' ∈ host → '?' ∈ lowercaseHost host := fun h =>
    (mem_lowercaseHost (by decide)).mpr h
  have hdigits : '?' ∉ p.defaultPort := by
    have hall : ∀ port ∈ [[], "80".toList, "443".toList], '?' ∉ port :=
      List.forall_mem_of_all (by decide +kernel)
    exact hall _ p.defaultPort_cases
  unfold shownAuthority
  rcases normalizeHostPort_cases p.authority with
    ⟨literal, after, heq, hopen, hclose, -⟩ | ⟨-, ⟨host, port, heq, -, hparts⟩ | ⟨-, hparts⟩⟩
  · exact absurd (bracketed_iff.mpr ⟨literal, after, heq, hopen, hclose⟩) hb
  · rw [hparts]
    rw [heq] at h
    rcases List.mem_append.mp h with h | h
    · exact List.mem_append_left _ (hhost h)
    · have hport : '?' ∈ port := by simpa using h
      have hshown : ¬p.DropsPort port := by
        rintro (rfl | rfl)
        · exact List.not_mem_nil hport
        · exact hdigits hport
      rw [portText_of_shown hshown]
      exact List.mem_append_right _ h
  · rw [hparts]
    exact List.mem_append_left _ (hhost h)

theorem bracketed_shownAuthority {p : UriPieces} (h : Bracketed p.authority) :
    ['['] <+: p.shownAuthority := by
  obtain ⟨literal, after, heq, hopen, hclose⟩ := bracketed_iff.mp h
  obtain ⟨shown, hshown, hopen', -⟩ := lowercaseHost_literal hopen hclose
  unfold shownAuthority
  rw [heq, normalizeHostPort_bracketed (hopen.trans (List.prefix_append _ _)) hclose, hshown]
  exact (hopen'.trans (List.prefix_append _ _)).trans (List.prefix_append _ _)

/-- A scheme that comes together and is empty is a colon that was the authority. -/
theorem shownAuthority_of_empty {p : UriPieces} (hp : p.WellCut) (hnone : p.scheme = none)
    (hempty : (cutUri p.normal.text).scheme = some []) : p.shownAuthority = [':'] := by
  have hcolon : p.normal.text = [':'] ++ '/' :: '/' :: (cutUri p.normal.text).rest := by
    conv_lhs => rw [← text_cutUri p.normal.text, text, hempty]
    rfl
  have hslash : '/' ∉ p.shownAuthority := fun hmem =>
    (mem_shownAuthority (by decide) hmem).elim hp.authority (by decide)
  obtain ⟨r, hr⟩ := slash_normalizePath (slash_shownPath hp)
  have hsplit : p.normal.text.splitOnce '/' = some (p.shownAuthority, r ++ p.query) := by
    rw [normal_text_of_none hnone, ← hr]
    exact List.splitOnce_append hslash
  rw [hcolon, List.splitOnce_append (by decide)] at hsplit
  exact (Prod.mk.inj (Option.some.inj hsplit)).1.symm

end UriPieces

/-- **A `://` that comes together is no delimiter** of the generic syntax. -/
theorem not_join_of_follows {uri : List Char} {c : UriComponents}
    (hc : c = (cutUri (cutUri uri).normal.text).components) (h : FollowsDelimiters uri c) :
    ¬(cutUri uri).JoinsScheme := by
  intro hjoin
  have hwell := wellCut_cutUri uri
  obtain ⟨s, hs⟩ := hjoin.scheme hwell
  have hnone := hjoin.1
  have hscheme : ∀ s, (cutUri uri).scheme = some s → s.all isSchemeChar = true := by
    intro s hs
    cases hnone.symm.trans hs
  have hcs : c.scheme = s := by
    rw [hc, UriPieces.components_scheme, hs]
    rfl
  -- The generic syntax finds no scheme, so the one that is read is empty.
  have hdelimit : (delimitUri uri).scheme = none := by
    by_cases hmark : '?' ∈ (cutUri uri).authority
    · obtain ⟨front, back, heq, hfront⟩ := List.eq_append_cons_of_mem hmark
      rw [delimitUri_mark hscheme heq hfront]
      exact hnone
    · rw [delimitUri_cutUri hscheme hmark]
      exact hnone
  have hempty : s = [] := by
    rw [← hcs, h.1, UriPieces.components_scheme, UriPieces.normal_scheme, hdelimit]
    rfl
  subst hempty
  have hcolon := UriPieces.shownAuthority_of_empty hwell hnone hs
  have hmark : '?' ∉ (cutUri uri).authority := by
    intro hmem
    have hb : ¬Bracketed (cutUri uri).authority := fun hb =>
      absurd (hcolon ▸ UriPieces.bracketed_shownAuthority hb) (by decide)
    have := UriPieces.mark_shownAuthority hb hmem
    rw [hcolon] at this
    exact absurd this (by decide)
  have hsame := hc.symm.trans (h.1.trans (by rw [delimitUri_cutUri hscheme hmark]))
  have hpath := congrArg UriComponents.path hsame
  have hquery := congrArg UriComponents.query hsame
  rw [UriPieces.components_path, UriPieces.components_path] at hpath
  rw [UriPieces.components_query, UriPieces.components_query, UriPieces.normal_query] at hquery
  -- Three characters went into the separator, one of them was the authority.
  have hlen := congrArg List.length (text_cutUri (cutUri uri).normal.text)
  have hquery := congrArg List.length hquery
  have hleft : (cutUri (cutUri uri).normal.text).text.length =
      3 + ((cutUri (cutUri uri).normal.text).authority.length +
        ((cutUri (cutUri uri).normal.text).path.length +
          (cutUri (cutUri uri).normal.text).query.length)) := by
    rw [UriPieces.text, hs, UriPieces.rest]
    simp [UriPieces.schemeText]
    omega
  have hright : (cutUri uri).normal.text.length =
      1 + ((cutUri uri).normal.path.length + (cutUri uri).query.length) := by
    rw [UriPieces.normal_text_of_none hnone, hcolon, List.length_append, List.length_append]
    rfl
  rw [hleft, hright, hpath] at hlen
  rw [List.length_drop, List.length_drop] at hquery
  omega

/-- Where another character stands before the `://`, the generic syntax has no scheme. -/
theorem delimitUri_badScheme {uri scheme : List Char} (hs : (cutUri uri).scheme = some scheme)
    (h : ¬scheme.all isSchemeChar = true) : (delimitUri uri).scheme = none := by
  unfold delimitUri
  rw [cutScheme_cutUri, hs]
  dsimp only
  rw [if_neg h]

/-- **The delimiters are those of the generic syntax** exactly if they are in place.

The reader takes the first `://` wherever it stands, and looks for the question mark that ends an
authority only if there is no slash. The generic syntax has a scheme of scheme characters, and takes
the slash or the question mark, whichever comes first. -/
theorem decomposeUri_follows_iff {uri : String} {c : UriComponents}
    (h : decomposeUri uri = .ok c) :
    FollowsDelimiters uri.toList c ↔ PlainDelimiters uri.toList := by
  obtain ⟨hu, -, hc⟩ := decomposeUri_eq_ok.mp h
  have hwell := wellCut_cutUri uri.toList
  constructor
  · intro hfollows
    have hjoin := not_join_of_follows hc hfollows
    rw [cutUri_text (hwell.normal hjoin)] at hc
    have hscheme : ∀ s, (cutUri uri.toList).scheme = some s → s.all isSchemeChar = true := by
      intro s hs
      by_contra hbad
      have hcs : toAsciiLowercase s = [] := by
        have hread : c.scheme = toAsciiLowercase s := by
          rw [hc, UriPieces.components_scheme, UriPieces.normal_scheme, hs]
          rfl
        rw [← hread, hfollows.1, UriPieces.components_scheme, UriPieces.normal_scheme,
          delimitUri_badScheme hs hbad]
        rfl
      exact hbad (by rw [List.map_eq_nil_iff.mp hcs]; rfl)
    refine ⟨hscheme, fun hmark => ?_, hjoin⟩
    -- The query that is read is what stands behind the first mark after the path.
    obtain ⟨front, back, heq, hfront⟩ := List.eq_append_cons_of_mem hmark
    have hquery : (cutUri uri.toList).query.drop 1 =
        back ++ ((cutUri uri.toList).path ++ (cutUri uri.toList).query) := by
      have hread := congrArg UriComponents.query (hc.symm.trans hfollows.1)
      rw [UriPieces.components_query, UriPieces.components_query, UriPieces.normal_query,
        UriPieces.normal_query, delimitUri_mark hscheme heq hfront] at hread
      exact hread
    have hlen := congrArg List.length hquery
    rw [List.length_drop, List.length_append, List.length_append] at hlen
    have hpath : (cutUri uri.toList).path = [] := List.length_eq_zero_iff.mp (by omega)
    exact (hwell.bare hpath).1 hmark
  · intro hplain
    rw [cutUri_text (hwell.normal hplain.join)] at hc
    refine ⟨by rw [hc, delimitUri_cutUri hplain.scheme hplain.mark], ?_⟩
    intro x hx hmem
    rw [hc, UriPieces.components_host, UriPieces.normal_authority] at hx
    have hx : x ∈ (cutUri uri.toList).shownAuthority := mem_parseHostPort hx
    simp only [List.mem_cons, List.not_mem_nil, or_false] at hmem
    rcases hmem with rfl | rfl | rfl
    · exact (UriPieces.mem_shownAuthority (by decide) hx).elim hwell.authority (by decide)
    · exact (UriPieces.mem_shownAuthority (by decide) hx).elim hplain.mark (by decide)
    · exact (UriPieces.mem_shownAuthority (by decide) hx).elim hu.userinfo (by decide)

theorem decomposeUri_follows_iff_example :
    FollowsDelimiters "http://a.example/x?u=http://b".toList
      { scheme := "http".toList, host := "a.example".toList, path := "/x".toList,
        query := "u=http://b".toList } := by
  have hread : decomposeUri "http://a.example/x?u=http://b" =
      .ok { scheme := "http".toList, host := "a.example".toList, path := "/x".toList,
            query := "u=http://b".toList } := by
    decide +kernel
  apply (decomposeUri_follows_iff hread).mpr
  constructor
  · intro s hs
    have hscheme : (cutUri "http://a.example/x?u=http://b".toList).scheme = some "http".toList := by
      decide +kernel
    rw [← Option.some.inj (hscheme.symm.trans hs)]
    decide +kernel
  · decide +kernel
  · exact fun hjoin => absurd hjoin.1 (by decide +kernel)

/-- A question mark in the host, and a scheme that is the path and the start of the query. -/
theorem decomposeUri_not_follows :
    decomposeUri "http://host?x/y" =
      .ok { scheme := "http".toList, host := "host?x".toList, path := "/y".toList } ∧
    decomposeUri "/a?u=http://b" =
      .ok { scheme := "/a?u=http".toList, host := "b".toList, path := "/".toList } := by
  decide +kernel

end Cat
