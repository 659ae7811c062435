import Cat.Token.EnforceSpec
import Cat.Uri.Respelling

/-!
# Verdicts on one URI in several spellings

A `catu` claim is enforced on the normal form of the request URI. Every spelling of scheme and
authority has the same one. So has every spelling of the path, unless it has a dot segment: dot
segments are removed before triplets are decoded, and one that is spelled with triplets stays.

Two spellings of one URI are two absolute URIs that are related part by part (`Respelled`):
letters in either case, a character or its triplet, a default port or none. A rule gets to see
components of the normal form and nothing else, so the verdicts agree where the normal forms do,
and the converse needs a rule that looks at the one place where they differ.
-/

set_option autoImplicit false

namespace Cat

/-! ## Absolute URIs

A URI by its parts, each with what it may be made of, so that the text of the parts is read as
these parts. The decomposition is only looked at on such texts.
-/

/-- ASCII, and no delimiter of the parts. -/
def isAuthorityChar (c : Char) : Bool := c.toNat < 128 && !List.contains ['/', '?', '#', '@'] c

def isPathChar (c : Char) : Bool := c.toNat < 128 && !List.contains ['?', '#'] c

/-- A host with a name, or an IP address of version 4. -/
def IsHostName (host : List Char) : Prop := ∀ c ∈ host, c ∉ [':', '[', ']']

/-- A literal in brackets. -/
def IsHostLiteral (host : List Char) : Prop :=
  ∃ address, host = '[' :: address ++ [']'] ∧ ']' ∉ address

/-- Scheme, `://`, authority and path. -/
structure AbsoluteUri where
  scheme : List Char
  userinfo : Option (List Char)
  host : List Char
  port : Option (List Char)
  path : List Char
  scheme_chars : scheme.all isSchemeChar = true
  userinfo_chars : ∀ u, userinfo = some u → u.all isAuthorityChar = true
  host_chars : host.all isAuthorityChar = true
  host_form : IsHostName host ∨ IsHostLiteral host
  port_digits : ∀ p, port = some p → p.all Char.isDigit = true
  path_chars : path.all isPathChar = true
  path_slash : path = [] ∨ ['/'] <+: path

namespace AbsoluteUri

variable (a : AbsoluteUri)

def hostAndPort : List Char := a.host ++ (a.port.map (':' :: ·)).getD []

def authority : List Char := (a.userinfo.map (· ++ ['@'])).getD [] ++ a.hostAndPort

def text : List Char := a.scheme ++ "://".toList ++ a.authority ++ a.path

def pieces : UriPieces := ⟨some a.scheme, a.authority, a.path, []⟩

/-- The port that the scheme has without one. -/
def schemePort : List Char :=
  if toAsciiLowercase a.scheme = "http".toList then "80".toList
  else if toAsciiLowercase a.scheme = "https".toList then "443".toList
  else []

/-- No port, or the one that would be taken. -/
def DefaultPort : Prop := a.port = none ∨ a.port = some a.schemePort

end AbsoluteUri

/-- Hosts that are equal, up to letter case if they are names. -/
def SameHost (a b : List Char) : Prop :=
  a = b ∨ IsHostName a ∧ IsHostName b ∧ toAsciiLowercase a = toAsciiLowercase b

/-- Two spellings of one URI. -/
structure Respelled (a b : AbsoluteUri) : Prop where
  scheme : toAsciiLowercase a.scheme = toAsciiLowercase b.scheme
  userinfo : a.userinfo = b.userinfo
  host : SameHost a.host b.host
  port : a.port = b.port ∨ a.DefaultPort ∧ b.DefaultPort
  path : SamePath a.path b.path

/-! ## Pieces

The parts are the pieces that the text is cut into, and the normal form is made of them one by
one.
-/

theorem isAuthorityChar_iff {c : Char} :
    isAuthorityChar c = true ↔ c.toNat < 128 ∧ c ∉ ['/', '?', '#', '@'] := by
  simp [isAuthorityChar]

theorem isPathChar_iff {c : Char} : isPathChar c = true ↔ c.toNat < 128 ∧ c ∉ ['?', '#'] := by
  simp [isPathChar]

theorem isAlphanum_ok {c : Char} (h : c.isAlphanum = true) :
    c.toNat < 128 ∧ c ∉ [':', '/', '?', '#', '@'] := by
  obtain ⟨hlt, hnot⟩ := isUnreserved_ok (c := c) (by simp [isUnreserved, h])
  refine ⟨hlt, fun hmem => hnot ?_⟩
  exact List.mem_append_left ['%'] hmem

theorem isSchemeChar_ok {c : Char} (h : isSchemeChar c = true) :
    c.toNat < 128 ∧ c ∉ [':', '/', '?', '#', '@'] := by
  simp only [isSchemeChar, Bool.or_eq_true, beq_iff_eq] at h
  rcases h with ((h | rfl) | rfl) | rfl
  · exact isAlphanum_ok h
  · decide
  · decide
  · decide

theorem isDigit_ok {c : Char} (h : c.isDigit = true) :
    c.toNat < 128 ∧ c ∉ [':', '/', '?', '#', '@'] :=
  isAlphanum_ok (by simp [Char.isAlphanum, h])

namespace AbsoluteUri

variable (a : AbsoluteUri)

theorem text_pieces : a.pieces.text = a.text := by
  simp [UriPieces.text, UriPieces.rest, UriPieces.schemeText, pieces, text]

/-- No part delimits another one, except for the colon before the port. -/
theorem mem_hostAndPort {c : Char} (h : c ∈ a.hostAndPort) :
    c.toNat < 128 ∧ c ∉ ['/', '?', '#', '@'] := by
  rcases List.mem_append.mp h with h | h
  · exact isAuthorityChar_iff.mp (List.all_eq_true.mp a.host_chars c h)
  · cases hport : a.port with
    | none =>
      rw [hport] at h
      exact absurd h List.not_mem_nil
    | some port =>
      rw [hport] at h
      rcases List.mem_cons.mp h with rfl | h
      · decide
      · obtain ⟨hlt, hnot⟩ := isDigit_ok (List.all_eq_true.mp (a.port_digits port hport) c h)
        exact ⟨hlt, fun hmem => hnot (List.mem_cons_of_mem _ hmem)⟩

theorem mem_authority {c : Char} (h : c ∈ a.authority) :
    c.toNat < 128 ∧ c ∉ ['/', '?', '#'] := by
  have hweaken : c.toNat < 128 ∧ c ∉ ['/', '?', '#', '@'] → c.toNat < 128 ∧ c ∉ ['/', '?', '#'] :=
    fun h => ⟨h.1, fun hmem => h.2 (List.mem_append_left ['@'] hmem)⟩
  rcases List.mem_append.mp h with h | h
  · cases hinfo : a.userinfo with
    | none =>
      rw [hinfo] at h
      exact absurd h List.not_mem_nil
    | some u =>
      rw [hinfo] at h
      rcases List.mem_append.mp h with h | h
      · exact hweaken (isAuthorityChar_iff.mp
          (List.all_eq_true.mp (a.userinfo_chars u hinfo) c h))
      · rw [List.mem_singleton.mp h]
        decide
  · exact hweaken (a.mem_hostAndPort h)

theorem at_mem_authority : '@' ∈ a.authority ↔ a.userinfo ≠ none := by
  cases hinfo : a.userinfo with
  | none =>
    refine iff_of_false (fun h => ?_) (fun h => h rfl)
    rw [authority, hinfo] at h
    exact (a.mem_hostAndPort h).2 (by decide)
  | some u =>
    refine iff_of_true ?_ (Option.some_ne_none u)
    rw [authority, hinfo]
    exact List.mem_append_left _ (List.mem_append_right u List.mem_cons_self)

theorem wellCut_pieces : a.pieces.WellCut where
  scheme := by
    have hcolon : ':' ∉ a.scheme := fun h =>
      (isSchemeChar_ok (List.all_eq_true.mp a.scheme_chars _ h)).2 (by decide)
    exact List.splitOnceAt_eq_some.mpr
      ⟨rfl, List.FirstCut.of_not_mem hcolon⟩
  authority := fun h => (a.mem_authority h).2 (by decide)
  path := a.path_slash
  mark := fun h => (isPathChar_iff.mp (List.all_eq_true.mp a.path_chars _ h)).2 (by decide)
  query := .inl rfl
  bare := fun _ => ⟨fun h => (a.mem_authority h).2 (by decide), List.not_mem_nil⟩

theorem cutUri_text : cutUri a.text = a.pieces := by
  rw [← a.text_pieces]
  exact Cat.cutUri_text a.wellCut_pieces

/-- Nothing is refused but userinfo. -/
theorem permitted_text : Permitted a.text ↔ a.userinfo = none := by
  have hchars : ∀ c ∈ a.text, c.toNat < 128 ∧ c ≠ '#' := by
    intro c hc
    rcases List.mem_append.mp hc with hc | hc
    · rcases List.mem_append.mp hc with hc | hc
      · rcases List.mem_append.mp hc with hc | hc
        · obtain ⟨hlt, hnot⟩ := isSchemeChar_ok (List.all_eq_true.mp a.scheme_chars c hc)
          exact ⟨hlt, fun he => hnot (by rw [he]; decide)⟩
        · obtain rfl | rfl : c = ':' ∨ c = '/' := by simpa using hc
          · exact ⟨by decide +kernel, by decide +kernel⟩
          · exact ⟨by decide +kernel, by decide +kernel⟩
      · obtain ⟨hlt, hnot⟩ := a.mem_authority hc
        exact ⟨hlt, fun he => hnot (by rw [he]; decide)⟩
    · obtain ⟨hlt, hnot⟩ := isPathChar_iff.mp (List.all_eq_true.mp a.path_chars c hc)
      exact ⟨hlt, fun he => hnot (by rw [he]; decide)⟩
  have hcut : (cutUri a.text).authority = a.authority := by rw [a.cutUri_text]; rfl
  constructor
  · intro h
    by_contra hinfo
    exact h.userinfo (hcut ▸ a.at_mem_authority.mpr hinfo)
  · intro hinfo
    refine ⟨isAscii_iff.mpr fun c hc => (hchars c hc).1, fun h => (hchars _ h).2 rfl, ?_⟩
    rw [hcut]
    exact fun h => a.at_mem_authority.mp h hinfo

/-- **An absolute URI is read from its normal pieces.** -/
theorem decomposeUri_text {c : UriComponents} :
    decomposeUri (String.ofList a.text) = .ok c ↔
      a.userinfo = none ∧ c = a.pieces.normal.components := by
  have hjoin : ¬(cutUri a.text).JoinsScheme := by
    rw [a.cutUri_text]
    exact fun h => Option.some_ne_none _ h.1
  have hwell := (wellCut_cutUri a.text).normal hjoin
  rw [decomposeUri_eq_ok, String.toList_ofList, Cat.cutUri_text hwell, a.cutUri_text,
    a.permitted_text]
  refine and_congr_right fun hinfo => and_iff_right ?_
  have := permitted_normal (a.permitted_text.mpr hinfo) hjoin
  rwa [a.cutUri_text] at this

theorem normalizeHostPort_hostAndPort :
    normalizeHostPort a.hostAndPort = (a.host, a.port.getD []) := by
  have hdigits : ∀ port, a.port = some port → ':' ∉ port ∧ ']' ∉ port := by
    intro port hport
    have hall := List.all_eq_true.mp (a.port_digits port hport)
    exact ⟨fun h => (isDigit_ok (hall _ h)).2 (by decide), fun h => absurd (hall _ h) (by decide)⟩
  rcases a.host_form with hname | ⟨address, hhost, hclose⟩
  · have hplain : ¬Bracketed a.hostAndPort := by
      rintro ⟨-, hmem⟩
      rcases List.mem_append.mp hmem with hmem | hmem
      · exact hname _ hmem (by decide)
      · cases hport : a.port with
        | none =>
          rw [hport] at hmem
          exact absurd hmem List.not_mem_nil
        | some port =>
          rw [hport] at hmem
          exact (List.mem_cons.mp hmem).elim (by decide) (hdigits port hport).2
    rw [normalizeHostPort_plain hplain, hostAndPort]
    cases hport : a.port with
    | none =>
      have hnone : ':' ∉ a.host := fun h => hname _ h (by decide)
      rw [Option.map_none, Option.getD_none, List.append_nil, List.rsplitOnce_eq_none.mpr hnone]
      rfl
    | some port =>
      rw [Option.map_some, Option.getD_some,
        List.rsplitOnce_eq_some.mpr ⟨rfl, (hdigits port hport).1⟩]
      rfl
  · have hopen : ∀ after, ['['] <+: '[' :: address ++ ']' :: after := fun after =>
      List.prefix_append ['['] _
    have hclose' : ']' ∉ '[' :: address := by simpa using hclose
    rw [hostAndPort, hhost, List.append_assoc, List.singleton_append,
      normalizeHostPort_bracketed (hopen _) hclose']
    cases a.port with
    | none => rfl
    | some port => rfl

theorem defaultPort_pieces : a.pieces.defaultPort = a.schemePort := by
  have hscheme : a.pieces.scheme.map toAsciiLowercase = some (toAsciiLowercase a.scheme) := rfl
  rw [UriPieces.defaultPort, hscheme]
  simp only [Option.some.injEq]
  rfl

theorem shownAuthority_pieces (h : a.userinfo = none) :
    a.pieces.shownAuthority = lowercaseHost a.host ++ a.pieces.portText (a.port.getD []) := by
  have hauthority : a.pieces.authority = a.hostAndPort := by
    rw [pieces, authority, h]
    rfl
  rw [UriPieces.shownAuthority, hauthority, a.normalizeHostPort_hostAndPort]

theorem portText_default (h : a.DefaultPort) : a.pieces.portText (a.port.getD []) = [] := by
  apply UriPieces.portText_of_drops
  rcases h with h | h
  · rw [h]
    exact .inl rfl
  · rw [h]
    exact .inr a.defaultPort_pieces.symm

end AbsoluteUri

/-! ## Spellings

Scheme, host and port have one normal form in all spellings, so two URIs that are spelt
differently are told apart by their paths, if at all.
-/

theorem SameHost.lowercaseHost_eq {a b : List Char} (h : SameHost a b) :
    lowercaseHost a = lowercaseHost b := by
  rcases h with rfl | ⟨ha, hb, heq⟩
  · rfl
  · have hplain : ∀ {host}, IsHostName host → ¬Bracketed host := fun hname hbracket =>
      hname _ hbracket.2 (by decide)
    rw [lowercaseHost_plain (hplain ha), lowercaseHost_plain (hplain hb), heq]

namespace Respelled

variable {a b : AbsoluteUri}

/-- **Scheme and authority have one normal form.** -/
theorem shownAuthority_eq (h : Respelled a b) (hinfo : a.userinfo = none) :
    a.pieces.shownAuthority = b.pieces.shownAuthority := by
  have hdefault : a.pieces.defaultPort = b.pieces.defaultPort := by
    rw [a.defaultPort_pieces, b.defaultPort_pieces, AbsoluteUri.schemePort,
      AbsoluteUri.schemePort, h.scheme]
  rw [a.shownAuthority_pieces hinfo, b.shownAuthority_pieces (h.userinfo ▸ hinfo),
    h.host.lowercaseHost_eq]
  apply congrArg (lowercaseHost b.host ++ ·)
  rcases h.port with hport | ⟨ha, hb⟩
  · rw [hport, UriPieces.portText, UriPieces.portText, hdefault]
  · rw [a.portText_default ha, b.portText_default hb]

/-- The components are the same exactly if the normal paths are. -/
theorem components_eq_iff (h : Respelled a b) (hinfo : a.userinfo = none) :
    a.pieces.normal.components = b.pieces.normal.components ↔
      normalizePath a.pieces.shownPath = normalizePath b.pieces.shownPath := by
  constructor
  · intro heq
    exact congrArg UriComponents.path heq
  · intro hpath
    have hscheme : a.pieces.normal.scheme = b.pieces.normal.scheme := congrArg some h.scheme
    have hauthority : a.pieces.normal.authority = b.pieces.normal.authority :=
      h.shownAuthority_eq hinfo
    have hpath : a.pieces.normal.path = b.pieces.normal.path := hpath
    unfold UriPieces.components
    rw [hscheme, hauthority, hpath]
    rfl

/-- The empty path and its one other spelling. -/
theorem shownPath (h : Respelled a b) : SamePath a.pieces.shownPath b.pieces.shownPath := by
  have hpath := h.path
  show SamePath (if a.path.isEmpty then ['/'] else a.path) (if b.path.isEmpty then ['/'] else b.path)
  by_cases ha : a.path = []
  · rw [ha] at hpath ⊢
    rw [hpath.eq_nil]
    exact .refl _
  · have hb : b.path ≠ [] := fun hb => ha (SamePath.eq_nil (hb ▸ hpath.symm))
    rw [List.isEmpty_eq_false_iff.mpr ha, List.isEmpty_eq_false_iff.mpr hb]
    exact hpath

end Respelled

/-! ## Verdicts

A guard gets the components. Where these are the same no rule can tell the URIs apart, and where
the paths differ a rule for one of the paths does.
-/

variable {H : Host}

/-- No `catu` claim tells the two apart. -/
def SameVerdicts (H : Host) (a b : AbsoluteUri) : Prop :=
  ∀ token, (enforceCatu H token (String.ofList a.text)).isOk =
    (enforceCatu H token (String.ofList b.text)).isOk

/-- A URI is seen through its components only. -/
theorem enforceCatu_congr {token : CatToken} {u v : String}
    (h : ∀ c, decomposeUri u = .ok c ↔ decomposeUri v = .ok c) :
    (enforceCatu H token u).isOk = (enforceCatu H token v).isOk := by
  have hmet : ∀ rules, CatuMet H rules (some u) ↔ CatuMet H rules (some v) := by
    intro rules
    constructor
    · rintro ⟨_, c, huri, hc, hrules⟩
      obtain rfl := Option.some.inj huri
      exact ⟨v, c, rfl, (h c).mp hc, hrules⟩
    · rintro ⟨_, c, huri, hc, hrules⟩
      obtain rfl := Option.some.inj huri
      exact ⟨u, c, rfl, (h c).mpr hc, hrules⟩
  rw [Bool.eq_iff_iff, Except.isOk_iff_exists, Except.isOk_iff_exists]
  exact exists_congr fun _ => enforceCatu_ok.trans
    ((forall₂_congr fun rules _ => hmet rules).trans enforceCatu_ok.symm)

/-- A token with one rule, for the path. -/
def pathToken (mv : MatchValue) : CatToken :=
  { CatToken.new with cat := { catu := some [⟨uriComponentPath, [mv]⟩] } }

theorem enforceCatu_pathToken {mv : MatchValue} {uri : String} :
    (enforceCatu H (pathToken mv) uri).isOk = true ↔
      ∃ c, decomposeUri uri = .ok c ∧ applyMatchValue H mv c.path = true := by
  rw [Except.isOk_iff_exists]
  constructor
  · rintro ⟨_, h⟩
    obtain ⟨_, c, huri, hc, hrules⟩ := enforceCatu_ok.mp h _ rfl
    obtain rfl := Option.some.inj huri
    obtain ⟨_, hmem, hmatch⟩ := hrules _ List.mem_cons_self
    rw [List.mem_singleton.mp hmem] at hmatch
    exact ⟨c, hc, hmatch⟩
  · rintro ⟨c, hc, hmatch⟩
    refine ⟨(), enforceCatu_ok.mpr fun rules hrules => ?_⟩
    obtain rfl := Option.some.inj hrules
    refine ⟨uri, c, rfl, hc, fun rule hrule => ⟨mv, ?_⟩⟩
    obtain rfl := List.mem_singleton.mp hrule
    exact ⟨List.mem_cons_self, hmatch⟩

/-- **Two spellings get one verdict** exactly if their normal paths are the same. -/
theorem sameVerdicts_iff {a b : AbsoluteUri} (h : Respelled a b) :
    SameVerdicts H a b ↔
      (a.userinfo = none → normalizePath a.pieces.shownPath = normalizePath b.pieces.shownPath) := by
  constructor
  · intro hsame hinfo
    -- A rule for the exact path of the one lets the other pass too.
    have hexact := hsame (pathToken (.exact (String.ofList (normalizePath a.pieces.shownPath))))
    rw [Bool.eq_iff_iff, enforceCatu_pathToken, enforceCatu_pathToken] at hexact
    obtain ⟨c, hc, hmatch⟩ := hexact.mp
      ⟨_, a.decomposeUri_text.mpr ⟨hinfo, rfl⟩, by simp [applyMatchValue]; rfl⟩
    obtain ⟨-, rfl⟩ := b.decomposeUri_text.mp hc
    have heq : b.pieces.normal.components.path = normalizePath a.pieces.shownPath := by
      simpa [applyMatchValue] using hmatch
    exact heq.symm
  · intro hpath token
    refine enforceCatu_congr fun c => ?_
    rw [a.decomposeUri_text, b.decomposeUri_text, h.userinfo]
    refine and_congr_right fun hinfo => ?_
    rw [(h.components_eq_iff (h.userinfo ▸ hinfo)).mpr (hpath (h.userinfo ▸ hinfo))]

/-- Another spelling of a path has no delimiter either. -/
theorem SamePath.path_chars {s t : List Char} (h : SamePath s t)
    (hs : s.all isPathChar = true) : t.all isPathChar = true := by
  have hchar : ∀ c, c.toNat < 128 ∧ c ∉ [':', '/', '?', '#', '@', '%'] → isPathChar c = true := by
    intro c hc
    refine isPathChar_iff.mpr ⟨hc.1, fun hmem => hc.2 ?_⟩
    rcases List.mem_cons.mp hmem with rfl | hmem
    · decide
    · rw [List.mem_singleton.mp hmem]
      decide
  apply List.all_eq_true.mpr
  refine h.forall_mem (by decide) (fun c _ hc => ?_) (fun c hc => ?_) (List.all_eq_true.mp hs)
  · exact hchar c (hexVal_ok hc).2
  · exact hchar c (isUnreserved_ok hc)

theorem SamePath.path_slash {s t : List Char} (h : SamePath s t)
    (hs : s = [] ∨ ['/'] <+: s) : t = [] ∨ ['/'] <+: t := by
  rcases hs with rfl | hs
  · exact .inl h.eq_nil
  · exact .inr (h.slash hs)

namespace AbsoluteUri

/-- The same URI with its path in another spelling. -/
def withPath (a : AbsoluteUri) (path : List Char) (h : SamePath a.path path) : AbsoluteUri :=
  { a with path, path_chars := h.path_chars a.path_chars, path_slash := h.path_slash a.path_slash }

theorem respelled_withPath (a : AbsoluteUri) {path : List Char} (h : SamePath a.path path) :
    Respelled a (a.withPath path h) :=
  ⟨rfl, rfl, .inl rfl, .inl rfl, h⟩

theorem shownPath_of_slash {a : AbsoluteUri} (h : ['/'] <+: a.path) :
    a.pieces.shownPath = a.path :=
  UriPieces.shownPath_of_slash h

end AbsoluteUri

/-- **Verdicts do not depend on spelling** where the path has no dot segment, in any spelling.
Of two spellings of a path that has one, the verdicts are the same if the normal paths are.

A dot segment spelled with triplets is decoded after the dot segments are removed, so it stays where
the same segment in plain dots is gone. Nothing else in a spelling matters: letter case, a default
port and other triplets come to one text. -/
theorem enforceCatu_respelled_iff (a : AbsoluteUri) :
    ((∀ b, Respelled a b → SameVerdicts H a b) ↔ (a.userinfo = none → NoDotSegments a.path)) ∧
      ∀ b, Respelled a b → (SameVerdicts H a b ↔
        (a.userinfo = none →
          normalizePath a.pieces.shownPath = normalizePath b.pieces.shownPath)) := by
  refine ⟨⟨fun hall hinfo => ?_, fun h b hb => (sameVerdicts_iff hb).mpr fun hinfo => ?_⟩,
    fun b h => sameVerdicts_iff h⟩
  · rcases a.path_slash with hnil | hslash
    · rw [hnil]
      decide
    · apply (normalizePath_respelled_iff hslash).mp
      intro t ht
      have hb := a.respelled_withPath ht
      have hpath := (sameVerdicts_iff hb).mp (hall _ hb) hinfo
      rwa [AbsoluteUri.shownPath_of_slash hslash,
        AbsoluteUri.shownPath_of_slash (ht.slash hslash)] at hpath
  · apply (normalizePath_respelled_iff (UriPieces.slash_shownPath a.wellCut_pieces)).mpr _ _
      hb.shownPath
    rcases a.path_slash with hnil | hslash
    · have hroot : a.pieces.shownPath = ['/'] := by
        rw [UriPieces.shownPath, AbsoluteUri.pieces, hnil]
        rfl
      rw [hroot]
      decide
    · rw [AbsoluteUri.shownPath_of_slash hslash]
      exact h hinfo

/-- A token for one directory admits a path out of it if the dots are spelled with triplets,
and not if they are spelled out. -/
theorem enforceCatu_respelled_differs :
    ∃ a b : AbsoluteUri, Respelled a b ∧
      String.ofList a.text = "http://h/public/../secret" ∧
      String.ofList b.text = "http://h/public/%2e%2e/secret" ∧
      ∃ token : CatToken, token.cat.catu = some [⟨uriComponentPath, [.pre "/public/"]⟩] ∧
        ∀ H, (enforceCatu H token "http://h/public/../secret").isOk = false ∧
          (enforceCatu H token "http://h/public/%2e%2e/secret").isOk = true := by
  let a : AbsoluteUri :=
    { scheme := "http".toList, userinfo := none, host := "h".toList, port := none,
      path := "/public/../secret".toList
      scheme_chars := by decide +kernel
      userinfo_chars := fun u h => absurd h (by simp)
      host_chars := by decide +kernel
      host_form := .inl (by simp [IsHostName])
      port_digits := fun u h => absurd h (by simp)
      path_chars := by decide +kernel
      path_slash := .inr ⟨"public/../secret".toList, rfl⟩ }
  refine ⟨a, _, a.respelled_withPath (samePath_withDots (.inr rfl) _), by decide +kernel,
    by decide +kernel, pathToken (.pre "/public/"), rfl, fun H => ⟨?_, ?_⟩⟩
  · have hread : decomposeUri "http://h/public/../secret" = .ok
        { scheme := "http".toList, host := "h".toList, path := "/secret".toList } := by
      decide +kernel
    rw [Bool.eq_false_iff, ne_eq, enforceCatu_pathToken]
    rintro ⟨c, hc, hmatch⟩
    obtain rfl := Except.ok.inj (hread.symm.trans hc)
    exact absurd hmatch (by simp [applyMatchValue])
  · have hread : decomposeUri "http://h/public/%2e%2e/secret" = .ok
        { scheme := "http".toList, host := "h".toList, path := "/public/../secret".toList } := by
      decide +kernel
    exact enforceCatu_pathToken.mpr ⟨_, hread, by simp [applyMatchValue]⟩

end Cat
