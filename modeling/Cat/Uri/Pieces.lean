import Cat.Lib.Ascii
import Cat.Lib.Outcome
import Cat.Uri.Paths

/-!
# A URI in pieces

Reading and normalization cut a URI in the same way: at the first `://`, then at the first slash
(or the first question mark), then at the first question mark. Normalization works on each piece
alone, and what it puts together is cut into the same pieces again unless a `://` came together
in a URI that had none.

`uri.rs` has the cuts inside its two functions, and in different forms. Here they are one
function, `cutUri`, and both functions of the source are shown to be it: reading is the pieces
as they are, normalization is `UriPieces.normal` of them put together again. What is proved
about URIs elsewhere is proved about pieces.

The inverse is what makes that work. A record of pieces is determined by its text only if no
piece has a character that would have been cut at, and `WellCut` says which those are: the
condition is the one under which the text is cut where it was put together (`cutUri_eq`). Pieces
that come from a text always meet it; pieces that were changed have to be shown to, and for
normalization this is where the `://` has to be watched.
-/

set_option autoImplicit false

namespace Cat

/-- A URI as it is cut. The query has its question mark. -/
structure UriPieces where
  scheme : Option (List Char)
  authority : List Char
  path : List Char
  query : List Char
  deriving DecidableEq

namespace UriPieces

def schemeText : Option (List Char) → List Char
  | some scheme => scheme ++ "://".toList
  | none => []

/-- What follows the scheme. -/
def rest (p : UriPieces) : List Char := p.authority ++ (p.path ++ p.query)

def text (p : UriPieces) : List Char := schemeText p.scheme ++ p.rest

/-- Pieces that are cut apart again where their text is cut. -/
structure WellCut (p : UriPieces) : Prop where
  scheme : p.text.splitOnceAt "://".toList = p.scheme.map fun scheme => (scheme, p.rest)
  authority : '/' ∉ p.authority
  path : p.path = [] ∨ ['/'] <+: p.path
  mark : '?' ∉ p.path
  query : p.query = [] ∨ ['?'] <+: p.query
  bare : p.path = [] → '?' ∉ p.authority ∧ '/' ∉ p.query

end UriPieces

/-- Path and query of what follows the authority. -/
def cutQueryOff (pathAndQuery : List Char) : List Char × List Char :=
  match pathAndQuery.splitOnce '?' with
  | some (path, query) => (path, '?' :: query)
  | none => (pathAndQuery, [])

def cutScheme (uri : List Char) : Option (List Char) × List Char :=
  match uri.splitOnceAt "://".toList with
  | some (scheme, rest) => (some scheme, rest)
  | none => (none, uri)

def cutUri (uri : List Char) : UriPieces :=
  let (scheme, rest) := cutScheme uri
  let (authority, pathAndQuery) := splitAuthority rest
  let (path, query) := cutQueryOff pathAndQuery
  { scheme, authority, path, query }

/-! ## Cutting and putting together

Cutting is by first occurrences, so what was put together is cut apart again if no piece has in
it what ends it: no separator in the scheme, no slash in the authority and so on (`WellCut`).
-/

/-- The authority ends at the first slash, and at the first question mark only if there is no slash
    behind it. -/
theorem splitAuthority_eq {rest authority tail : List Char} :
    splitAuthority rest = (authority, tail) ↔
      rest = authority ++ tail ∧ '/' ∉ authority ∧
        (['/'] <+: tail ∨ '?' ∉ authority ∧ '/' ∉ tail ∧ (tail = [] ∨ ['?'] <+: tail)) := by
  unfold splitAuthority
  constructor
  · intro h
    split at h
    · rename_i a path hsplit
      obtain ⟨rfl, rfl⟩ := Prod.mk.inj h
      obtain ⟨rfl, hslash⟩ := List.splitOnce_eq_some.mp hsplit
      exact ⟨rfl, hslash, .inl (List.prefix_append ['/'] path)⟩
    · rename_i hnone
      have hslash := List.splitOnce_eq_none.mp hnone
      split at h
      · rename_i a query hsplit
        obtain ⟨rfl, rfl⟩ := Prod.mk.inj h
        obtain ⟨rfl, hmark⟩ := List.splitOnce_eq_some.mp hsplit
        rw [List.mem_append, not_or] at hslash
        exact ⟨rfl, hslash.1, .inr ⟨hmark, hslash.2, .inr (List.prefix_append ['?'] query)⟩⟩
      · rename_i hnone'
        obtain ⟨rfl, rfl⟩ := Prod.mk.inj h
        refine ⟨(List.append_nil _).symm, hslash, .inr ⟨?_, List.not_mem_nil, .inl rfl⟩⟩
        exact List.splitOnce_eq_none.mp hnone'
  · rintro ⟨rfl, hslash, ⟨path, rfl⟩ | ⟨hmark, htail, rfl | ⟨query, rfl⟩⟩⟩
    · rw [List.singleton_append, List.splitOnce_append hslash]
    · rw [List.append_nil, List.splitOnce_eq_none.mpr hslash, List.splitOnce_eq_none.mpr hmark]
    · have hnone : '/' ∉ authority ++ (['?'] ++ query) := by
        rw [List.mem_append, not_or]
        exact ⟨hslash, htail⟩
      rw [List.splitOnce_eq_none.mpr hnone, List.singleton_append, List.splitOnce_append hmark]

theorem cutQueryOff_eq {tail path query : List Char} :
    cutQueryOff tail = (path, query) ↔
      tail = path ++ query ∧ '?' ∉ path ∧ (query = [] ∨ ['?'] <+: query) := by
  unfold cutQueryOff
  constructor
  · intro h
    split at h
    · rename_i p q hsplit
      obtain ⟨rfl, rfl⟩ := Prod.mk.inj h
      obtain ⟨rfl, hmark⟩ := List.splitOnce_eq_some.mp hsplit
      exact ⟨rfl, hmark, .inr (List.prefix_append ['?'] q)⟩
    · rename_i hnone
      obtain ⟨rfl, rfl⟩ := Prod.mk.inj h
      exact ⟨(List.append_nil _).symm, List.splitOnce_eq_none.mp hnone, .inl rfl⟩
  · rintro ⟨rfl, hmark, rfl | ⟨q, rfl⟩⟩
    · rw [List.append_nil, List.splitOnce_eq_none.mpr hmark]
    · rw [List.singleton_append, List.splitOnce_append hmark]

/-- The scheme is what stands before the first `://`, if there is one. -/
theorem cutScheme_eq {uri rest : List Char} {scheme : Option (List Char)} :
    cutScheme uri = (scheme, rest) ↔
      uri = UriPieces.schemeText scheme ++ rest ∧
        uri.splitOnceAt "://".toList = scheme.map fun scheme => (scheme, rest) := by
  unfold cutScheme
  constructor
  · intro h
    split at h
    · rename_i s r hsplit
      obtain ⟨rfl, rfl⟩ := Prod.mk.inj h
      exact ⟨List.splitOnceAt_append hsplit, hsplit⟩
    · rename_i hnone
      obtain ⟨rfl, rfl⟩ := Prod.mk.inj h
      exact ⟨rfl, hnone⟩
  · rintro ⟨huri, hsplit⟩
    rw [hsplit]
    cases scheme with
    | none => exact congrArg (none, ·) huri
    | some s => rfl

theorem cutUri_of {uri rest tail authority path query : List Char}
    {scheme : Option (List Char)} (hs : cutScheme uri = (scheme, rest))
    (ha : splitAuthority rest = (authority, tail)) (hq : cutQueryOff tail = (path, query)) :
    cutUri uri = ⟨scheme, authority, path, query⟩ := by
  unfold cutUri
  rw [hs]
  dsimp only
  rw [ha]
  dsimp only
  rw [hq]

/-- **What is put together is cut apart again.** -/
theorem cutUri_eq {uri : List Char} {p : UriPieces} :
    cutUri uri = p ↔ p.text = uri ∧ p.WellCut := by
  constructor
  · rintro rfl
    cases hs : cutScheme uri with
    | mk scheme rest =>
    cases ha : splitAuthority rest with
    | mk authority tail =>
    cases hq : cutQueryOff tail with
    | mk path query =>
    rw [cutUri_of hs ha hq]
    obtain ⟨huri, hscheme⟩ := cutScheme_eq.mp hs
    obtain ⟨rfl, hslash, htail⟩ := splitAuthority_eq.mp ha
    obtain ⟨rfl, hmark, hquery⟩ := cutQueryOff_eq.mp hq
    have htext : UriPieces.text ⟨scheme, authority, path, query⟩ = uri := huri.symm
    -- A path that is not empty starts with a slash, and an empty one has no slash behind it.
    have hpath : path = [] ∧ '?' ∉ authority ∧ '/' ∉ query ∨ ['/'] <+: path := by
      cases path with
      | nil =>
        refine .inl ⟨rfl, ?_⟩
        rcases htail with htail | ⟨hfree, hnone, -⟩
        · rcases hquery with rfl | ⟨q, rfl⟩
          · exact absurd htail (by simp)
          · exact absurd htail (by simp)
        · exact ⟨hfree, hnone⟩
      | cons c path =>
        right
        rcases htail with ⟨t, ht⟩ | ⟨-, -, htail | ⟨t, ht⟩⟩
        · rw [List.head_eq_of_cons_eq ht.symm]
          exact List.prefix_append ['/'] path
        · cases htail
        · exact absurd List.mem_cons_self (List.head_eq_of_cons_eq ht ▸ hmark)
    refine ⟨htext, htext ▸ hscheme, hslash, hpath.imp_left And.left, hmark, hquery, fun hnil => ?_⟩
    rcases hpath with hbare | hslash'
    · exact hbare.2
    · exact absurd (hnil ▸ hslash' : ['/'] <+: ([] : List Char)) (by simp)
  · rintro ⟨rfl, hp⟩
    have hs : cutScheme p.text = (p.scheme, p.rest) := cutScheme_eq.mpr ⟨rfl, hp.scheme⟩
    have hq : cutQueryOff (p.path ++ p.query) = (p.path, p.query) :=
      cutQueryOff_eq.mpr ⟨rfl, hp.mark, hp.query⟩
    refine cutUri_of hs (splitAuthority_eq.mpr ⟨rfl, hp.authority, ?_⟩) hq
    rcases hp.path with hnil | hslash
    · obtain ⟨hmark, hfree⟩ := hp.bare hnil
      rw [hnil, List.nil_append]
      exact .inr ⟨hmark, hfree, hp.query⟩
    · exact .inl (hslash.trans (List.prefix_append _ _))

theorem text_cutUri (uri : List Char) : (cutUri uri).text = uri := (cutUri_eq.mp rfl).1

theorem wellCut_cutUri (uri : List Char) : (cutUri uri).WellCut := (cutUri_eq.mp rfl).2

theorem cutUri_text {p : UriPieces} (h : p.WellCut) : cutUri p.text = p := cutUri_eq.mpr ⟨rfl, h⟩

/-! ## Normalization, piece by piece

The source normalizes the text in one function. Here it is four functions of the pieces, and the
text of the result is theirs, put together.
-/

namespace UriPieces

/-- The port that is not shown. -/
def defaultPort (p : UriPieces) : List Char :=
  if p.scheme.map toAsciiLowercase = some "http".toList then "80".toList
  else if p.scheme.map toAsciiLowercase = some "https".toList then "443".toList
  else []

/-- An empty port is not shown either. -/
def portText (p : UriPieces) (port : List Char) : List Char :=
  if !port.isEmpty && port != p.defaultPort then ':' :: port else []

def shownAuthority (p : UriPieces) : List Char :=
  lowercaseHost (normalizeHostPort p.authority).1 ++ p.portText (normalizeHostPort p.authority).2

def shownPath (p : UriPieces) : List Char := if p.path.isEmpty then ['/'] else p.path

def normal (p : UriPieces) : UriPieces where
  scheme := p.scheme.map toAsciiLowercase
  authority := p.shownAuthority
  path := normalizePath p.shownPath
  query := p.query

def components (p : UriPieces) : UriComponents where
  scheme := p.scheme.getD []
  host := (parseHostPort p.authority).1
  port := (parseHostPort p.authority).2
  path := p.path
  query := p.query.drop 1

section

variable (p : UriPieces)

@[simp] theorem normal_scheme : p.normal.scheme = p.scheme.map toAsciiLowercase := rfl
@[simp] theorem normal_authority : p.normal.authority = p.shownAuthority := rfl
@[simp] theorem normal_query : p.normal.query = p.query := rfl
@[simp] theorem components_scheme : p.components.scheme = p.scheme.getD [] := rfl
@[simp] theorem components_host : p.components.host = (parseHostPort p.authority).1 := rfl
@[simp] theorem components_path : p.components.path = p.path := rfl
@[simp] theorem components_query : p.components.query = p.query.drop 1 := rfl

end

end UriPieces

/-- What is refused: characters outside ASCII, fragments, and userinfo. -/
structure Permitted (uri : List Char) : Prop where
  ascii : isAscii uri = true
  fragment : '#' ∉ uri
  userinfo : '@' ∉ (cutUri uri).authority

/-- Nothing is checked but this. -/
theorem permitted_iff {uri : List Char} :
    Permitted uri ↔ ensureAscii uri = .ok () ∧ ensureNoFragment uri = .ok () ∧
      ensureNoUserinfo (cutUri uri).authority = .ok () := by
  have hascii : ensureAscii uri = .ok () ↔ isAscii uri = true := by
    unfold ensureAscii
    split <;> simp_all
  have hfragment : ensureNoFragment uri = .ok () ↔ '#' ∉ uri := by
    unfold ensureNoFragment
    split <;> simp_all
  have huserinfo : ∀ a, ensureNoUserinfo a = .ok () ↔ '@' ∉ a := by
    intro a
    unfold ensureNoUserinfo
    split <;> simp_all
  rw [hascii, hfragment, huserinfo]
  exact ⟨fun h => ⟨h.ascii, h.fragment, h.userinfo⟩, fun h => ⟨h.1, h.2.1, h.2.2⟩⟩

/-- What stands behind the checks is returned where they pass. -/
theorem ensurePermitted_eq_ok {α : Type} {uri : List Char} {r v : α} :
    (do
      ensureAscii uri
      ensureNoFragment uri
      ensureNoUserinfo (cutUri uri).authority
      return r) = Except.ok v ↔ Permitted uri ∧ v = r := by
  rw [permitted_iff]
  constructor
  · intro h
    obtain ⟨_, hascii, h⟩ := Except.bind_eq_ok.mp h
    obtain ⟨_, hfragment, h⟩ := Except.bind_eq_ok.mp h
    obtain ⟨_, huserinfo, h⟩ := Except.bind_eq_ok.mp h
    exact ⟨⟨hascii, hfragment, huserinfo⟩, (Except.ok.inj h).symm⟩
  · rintro ⟨⟨hascii, hfragment, huserinfo⟩, rfl⟩
    rw [hascii, hfragment, huserinfo]
    rfl

theorem parseUri_eq (uri : List Char) :
    parseUri uri = do
      ensureAscii uri
      ensureNoFragment uri
      ensureNoUserinfo (cutUri uri).authority
      return (cutUri uri).components := by
  cases hs : cutScheme uri with
  | mk scheme rest =>
  cases ha : splitAuthority rest with
  | mk authority tail =>
  cases hq : cutQueryOff tail with
  | mk path query =>
  have hscheme : (uri.splitOnceAt "://".toList).getD ([], uri) = (scheme.getD [], rest) := by
    obtain ⟨huri, hsplit⟩ := cutScheme_eq.mp hs
    rw [hsplit]
    cases scheme with
    | none => exact congrArg ([], ·) huri
    | some s => rfl
  have hquery : (tail.splitOnce '?').getD (tail, []) = (path, query.drop 1) := by
    obtain ⟨rfl, hmark, rfl | ⟨q, rfl⟩⟩ := cutQueryOff_eq.mp hq
    · rw [List.append_nil, List.splitOnce_eq_none.mpr hmark]
      rfl
    · rw [List.singleton_append, List.splitOnce_append hmark]
      rfl
  rw [cutUri_of hs ha hq, parseUri]
  simp only [hscheme, ha, hquery]
  rfl

theorem parseUri_eq_ok {uri : List Char} {c : UriComponents} :
    parseUri uri = .ok c ↔ Permitted uri ∧ c = (cutUri uri).components := by
  rw [parseUri_eq]
  exact ensurePermitted_eq_ok

/-! ## Letter case

Making a text lower case moves nothing: its delimiters are where they were, since letters are
none of them.
-/

theorem toAsciiLowercase_append (s t : List Char) :
    toAsciiLowercase (s ++ t) = toAsciiLowercase s ++ toAsciiLowercase t := List.map_append

theorem toAsciiLowercase_idem (s : List Char) :
    toAsciiLowercase (toAsciiLowercase s) = toAsciiLowercase s := by
  rw [toAsciiLowercase, toAsciiLowercase, List.map_map]
  exact List.map_congr_left fun c _ => Char.toLower_toLower c

/-- What is no letter stays in its place, and nothing else takes its place. -/
theorem toAsciiLowercase_eq_iff {s t : List Char} (ht : ∀ c ∈ t, c.isAlpha = false) :
    toAsciiLowercase s = t ↔ s = t := by
  induction s generalizing t with
  | nil => exact Iff.rfl
  | cons c s ih =>
    cases t with
    | nil => simp [toAsciiLowercase]
    | cons d t =>
      obtain ⟨hd, ht⟩ := List.forall_mem_cons.mp ht
      show c.toLower :: toAsciiLowercase s = d :: t ↔ c :: s = d :: t
      rw [List.cons.injEq, List.cons.injEq, ih ht, Char.toLower_eq_iff hd]

theorem mem_toAsciiLowercase {s : List Char} {c : Char} (hc : c.isAlpha = false) :
    c ∈ toAsciiLowercase s ↔ c ∈ s := by
  rw [toAsciiLowercase, List.mem_map]
  constructor
  · rintro ⟨d, hd, h⟩
    exact (Char.toLower_eq_iff hc).mp h ▸ hd
  · exact fun h => ⟨c, h, (Char.toLower_eq_iff hc).mpr rfl⟩

/-- A text without letters is found where it was. -/
theorem firstCut_toAsciiLowercase {s pat : List Char} (hpat : ∀ c ∈ pat, c.isAlpha = false) :
    List.FirstCut (toAsciiLowercase s) pat ↔ List.FirstCut s pat := by
  have hfixed : toAsciiLowercase pat = pat := (toAsciiLowercase_eq_iff hpat).mpr rfl
  constructor
  · intro h l' r' heq
    have hl := h (toAsciiLowercase l') (toAsciiLowercase r') (by
      conv_lhs => rw [← hfixed, ← toAsciiLowercase_append, heq]
      rw [toAsciiLowercase_append, toAsciiLowercase_append, hfixed])
    have hlen := congrArg List.length hl
    rw [toAsciiLowercase, toAsciiLowercase, List.length_map, List.length_map] at hlen
    exact (List.append_inj (heq.trans (List.append_assoc _ _ _)) hlen.symm).1.symm
  · intro h l' r' heq
    rw [← hfixed, ← toAsciiLowercase_append, toAsciiLowercase, List.map_eq_append_iff] at heq
    obtain ⟨x, y, heq, hx, rfl⟩ := heq
    obtain ⟨a, b, rfl, rfl, hb⟩ := List.map_eq_append_iff.mp hx
    have hb' : b = pat := (toAsciiLowercase_eq_iff hpat).mp (hb.trans hfixed)
    rw [hb'] at heq
    rw [h a y heq]
    rfl

theorem separator_not_alpha : ∀ c ∈ "://".toList, c.isAlpha = false :=
  List.forall_mem_of_all (by decide +kernel)

/-- Only the scheme decides on the default port. -/
theorem defaultPort_schemeText {p : UriPieces} {host : List Char}
    (hcut : ∀ s, p.scheme = some s → List.FirstCut s "://".toList) (hhost : '/' ∉ host) :
    defaultPort (UriPieces.schemeText (p.scheme.map toAsciiLowercase) ++ host) = p.defaultPort := by
  have hprefix : ∀ s, p.scheme = some s → ∀ name : List Char, ':' ∉ name →
      (name ++ "://".toList <+: toAsciiLowercase s ++ "://".toList ++ host ↔
        toAsciiLowercase s = name) := by
    intro s hs name hname
    constructor
    · rintro ⟨t, ht⟩
      have hsome : (toAsciiLowercase s ++ "://".toList ++ host).splitOnceAt "://".toList =
          some (toAsciiLowercase s, host) := List.splitOnceAt_eq_some.mpr
        ⟨rfl, (firstCut_toAsciiLowercase separator_not_alpha).mpr (hcut s hs)⟩
      obtain ⟨u, rfl⟩ := List.splitOnceAt_first hsome ht.symm
      -- A longer name would go on with the colon.
      cases u with
      | nil => exact (List.append_nil _).symm
      | cons c u =>
        rw [List.append_assoc, List.append_assoc, List.append_assoc] at ht
        have hcolon := List.head_eq_of_cons_eq (List.append_cancel_left ht)
        exact absurd (List.mem_append_right _ List.mem_cons_self) (hcolon ▸ hname)
    · rintro rfl
      exact List.prefix_append _ _
  unfold defaultPort UriPieces.defaultPort
  cases hs : p.scheme with
  | none =>
    have hnot : ∀ t : List Char, ('/' ∈ t) → t.isPrefixOf host = false := by
      intro t ht
      rw [Bool.eq_false_iff]
      intro hpre
      exact hhost ((List.isPrefixOf_iff_prefix.mp hpre).subset ht)
    show (if "http://".toList.isPrefixOf host then _ else
      if "https://".toList.isPrefixOf host then _ else _) = _
    rw [hnot _ (by decide), hnot _ (by decide)]
    rfl
  | some s =>
    have hiff : ∀ name : List Char, ':' ∉ name →
        ((name ++ "://".toList).isPrefixOf
            (UriPieces.schemeText (some (toAsciiLowercase s)) ++ host) = true ↔
          some (toAsciiLowercase s) = some name) := by
      intro name hname
      rw [List.isPrefixOf_iff_prefix, Option.some.injEq]
      exact hprefix s hs name hname
    exact if_congr (hiff "http".toList (by decide)) rfl
      (if_congr (hiff "https".toList (by decide)) rfl rfl)

/-! ## Host and port

A bracketed literal is taken off first; a colon inside of it separates nothing.
-/

/-- An authority that starts with a bracketed literal. -/
def Bracketed (authority : List Char) : Prop := ['['] <+: authority ∧ ']' ∈ authority

/-- What follows a bracketed literal, as a port. -/
def afterBracket : List Char → List Char
  | ':' :: port => port
  | _ => []

theorem normalizeHostPort_bracketed {literal after : List Char}
    (hopen : ['['] <+: literal ++ ']' :: after) (hclose : ']' ∉ literal) :
    normalizeHostPort (literal ++ ']' :: after) = (literal ++ [']'], afterBracket after) := by
  unfold normalizeHostPort
  rw [List.isPrefixOf_iff_prefix.mpr hopen, if_pos rfl, List.splitOnce_append hclose]
  rfl

theorem normalizeHostPort_plain {authority : List Char} (h : ¬Bracketed authority) :
    normalizeHostPort authority = (authority.rsplitOnce ':').getD (authority, []) := by
  have hnone : (if ['['].isPrefixOf authority then authority.splitOnce ']' else none) = none := by
    split
    · rename_i hopen
      exact List.splitOnce_eq_none.mpr fun hmem => h ⟨List.isPrefixOf_iff_prefix.mp hopen, hmem⟩
    · rfl
  unfold normalizeHostPort
  rw [hnone]

/-- **Host and port of an authority**: a bracketed literal, what the last colon separates, or
all of it. -/
theorem normalizeHostPort_cases (authority : List Char) :
    (∃ literal after, authority = literal ++ ']' :: after ∧ ['['] <+: literal ∧ ']' ∉ literal ∧
        normalizeHostPort authority = (literal ++ [']'], afterBracket after)) ∨
      ¬Bracketed authority ∧
        ((∃ host port, authority = host ++ ':' :: port ∧ ':' ∉ port ∧
            normalizeHostPort authority = (host, port)) ∨
          ':' ∉ authority ∧ normalizeHostPort authority = (authority, [])) := by
  by_cases h : Bracketed authority
  · left
    obtain ⟨hopen, hclose⟩ := h
    obtain ⟨literal, after, rfl, hnot⟩ := List.eq_append_cons_of_mem hclose
    refine ⟨literal, after, rfl, ?_, hnot, normalizeHostPort_bracketed hopen hnot⟩
    cases literal with
    | nil => exact absurd hopen (by simp)
    | cons c literal => simpa using hopen
  · refine .inr ⟨h, ?_⟩
    rw [normalizeHostPort_plain h]
    cases hsplit : authority.rsplitOnce ':' with
    | none => exact .inr ⟨List.rsplitOnce_eq_none.mp hsplit, rfl⟩
    | some parts =>
      obtain ⟨host, port⟩ := parts
      obtain ⟨rfl, hport⟩ := List.rsplitOnce_eq_some.mp hsplit
      exact .inl ⟨host, port, rfl, hport, rfl⟩

theorem mem_afterBracket {after : List Char} {c : Char} (h : c ∈ afterBracket after) :
    c ∈ after := by
  unfold afterBracket at h
  split at h
  · exact List.mem_cons_of_mem _ h
  · exact absurd h List.not_mem_nil

theorem mem_lowercaseHost {host : List Char} {c : Char} (hc : c.isAlpha = false) :
    c ∈ lowercaseHost host ↔ c ∈ host := by
  unfold lowercaseHost
  split
  · split
    · rename_i address zone hsplit
      have hhost := List.splitOnceAt_append hsplit
      rw [List.mem_append, List.mem_append, mem_toAsciiLowercase hc, ← List.mem_append,
        ← List.mem_append, ← hhost]
    · exact mem_toAsciiLowercase hc
  · exact mem_toAsciiLowercase hc

/-- Host and port have no other characters than the authority. -/
theorem mem_normalizeHostPort {authority : List Char} {c : Char}
    (h : c ∈ (normalizeHostPort authority).1 ∨ c ∈ (normalizeHostPort authority).2) :
    c ∈ authority := by
  rcases normalizeHostPort_cases authority with
    ⟨literal, after, rfl, -, -, heq⟩ | ⟨-, ⟨host, port, rfl, -, heq⟩ | ⟨-, heq⟩⟩
  · rw [heq] at h
    rcases h with h | h
    · rw [List.mem_append, List.mem_singleton] at h
      rcases h with h | rfl
      · exact List.mem_append_left _ h
      · exact List.mem_append_right _ List.mem_cons_self
    · exact List.mem_append_right _ (List.mem_cons_of_mem _ (mem_afterBracket h))
  · rw [heq] at h
    exact List.mem_append.mpr (h.imp_right (List.mem_cons_of_mem _))
  · rw [heq] at h
    exact h.elim id fun h => absurd h List.not_mem_nil

namespace UriPieces

theorem mem_shownAuthority {p : UriPieces} {c : Char} (hc : c.isAlpha = false)
    (h : c ∈ p.shownAuthority) : c ∈ p.authority ∨ c = ':' := by
  rcases List.mem_append.mp h with h | h
  · exact .inl (mem_normalizeHostPort (.inl ((mem_lowercaseHost hc).mp h)))
  · unfold portText at h
    split at h
    · rcases List.mem_cons.mp h with h | h
      · exact .inr h
      · exact .inl (mem_normalizeHostPort (.inr h))
    · exact absurd h List.not_mem_nil

end UriPieces

/-! ## Normalization -/

theorem normalizeUri_eq (uri : List Char) :
    normalizeUri uri = do
      ensureAscii uri
      ensureNoFragment uri
      ensureNoUserinfo (cutUri uri).authority
      return (cutUri uri).normal.text := by
  cases hs : cutScheme uri with
  | mk scheme rest =>
  cases ha : splitAuthority rest with
  | mk authority tail =>
  cases hq : cutQueryOff tail with
  | mk path query =>
  cases hh : normalizeHostPort authority with
  | mk host port =>
  have hcut := cutUri_of hs ha hq
  obtain ⟨-, hsplit⟩ := cutScheme_eq.mp hs
  have hslash : '/' ∉ lowercaseHost host := fun hmem =>
    (splitAuthority_eq.mp ha).2.1 (mem_normalizeHostPort (.inl (by
      rw [hh]
      exact (mem_lowercaseHost (by decide)).mp hmem)))
  -- The default port is looked up in the text written so far, which begins with the scheme.
  have hport : defaultPort (UriPieces.schemeText (scheme.map toAsciiLowercase) ++
      lowercaseHost host) = UriPieces.defaultPort ⟨scheme, authority, path, query⟩ := by
    refine defaultPort_schemeText (p := ⟨scheme, authority, path, query⟩) ?_ hslash
    rintro s rfl
    exact (List.splitOnceAt_eq_some.mp hsplit).2
  have hresult : (cutUri uri).normal.text =
      (if !port.isEmpty && port != defaultPort (UriPieces.schemeText (scheme.map toAsciiLowercase)
          ++ lowercaseHost host)
        then UriPieces.schemeText (scheme.map toAsciiLowercase) ++ lowercaseHost host ++ ':' :: port
        else UriPieces.schemeText (scheme.map toAsciiLowercase) ++ lowercaseHost host) ++
        normalizePercentEncoding (removeDotSegments (if path.isEmpty then ['/'] else path)) ++
        query := by
    rw [hcut, hport]
    simp only [UriPieces.text, UriPieces.rest, UriPieces.normal, UriPieces.shownAuthority, hh,
      UriPieces.portText, UriPieces.shownPath, normalizePath]
    split <;> simp only [List.append_assoc, List.append_nil]
  rw [hresult, hcut, normalizeUri, hsplit]
  obtain rfl : (cutQueryOff tail).1 = path := by rw [hq]
  obtain rfl : (cutQueryOff tail).2 = query := by rw [hq]
  cases scheme with
  | none =>
    have huri : uri = rest := (cutScheme_eq.mp hs).1
    simp only [Option.map_none, huri, ha, hh]
    rfl
  | some s =>
    simp only [Option.map_some, ha, hh]
    rfl

theorem normalizeUri_eq_ok {uri v : List Char} :
    normalizeUri uri = .ok v ↔ Permitted uri ∧ v = (cutUri uri).normal.text := by
  rw [normalizeUri_eq]
  exact ensurePermitted_eq_ok

end Cat
