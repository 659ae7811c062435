import Cat.Uri.Delimiting

/-!
# What is read is what was there

The components of a URI, put together, are the normalized URI, and normalization drops nothing
of the authority but an empty or default port. The exceptions are text behind a bracketed
literal that is no port, and a scheme that is empty.

Whoever decides by the components decides about the text only if nothing of the text is missing
from them. So the theorem has both halves: what is read, written one after the other with its
delimiters, is what was cut; and what was cut is what came in, up to case, triplets, dot
segments and a port that says nothing.

Reading the authority is where text can get lost, because a host in brackets ends at its
bracket, and what follows is looked at only if it starts with a colon. The condition on the
authority says that it starts so or is not there.
-/

set_option autoImplicit false

namespace Cat

/-- The components with their delimiters. -/
def UriComponents.recompose (c : UriComponents) : List Char :=
  (if c.scheme = [] then [] else c.scheme ++ "://".toList) ++
    ((c.host ++ if c.port = [] then [] else ':' :: c.port) ++
      (c.path ++ if c.query = [] then [] else '?' :: c.query))

/-- What stands behind the bracketed literal of an authority, if it has one. -/
def LiteralFollowedBy (ok : List Char → Prop) (authority : List Char) : Prop :=
  ['['] <+: authority → ∀ literal after, authority.splitOnce ']' = some (literal, after) → ok after

/-- Nothing, or a colon and digits. -/
def PortOrEnd (after : List Char) : Prop :=
  after = [] ∨ ∃ port, after = ':' :: port ∧ port.all Char.isDigit = true

/-- Nothing, or a colon and at least one digit. -/
def ShownPortOrEnd (after : List Char) : Prop :=
  after = [] ∨ ∃ port, after = ':' :: port ∧ port.all Char.isDigit = true ∧ port ≠ []

/-- Nothing is lost between a URI, its normalized form and its components. -/
structure LosesNothing (uri v : List Char) (c : UriComponents) : Prop where
  recompose : c.recompose = v ∨ c.query = [] ∧ c.recompose ++ ['?'] = v
  authority : ∃ dropped, toAsciiLowercase (cutUri uri).authority =
      toAsciiLowercase (cutUri uri).shownAuthority ++ dropped ∧
    (dropped = [] ∨ dropped = [':'] ∨ dropped = ':' :: (cutUri uri).defaultPort)
  literal : LiteralFollowedBy PortOrEnd (cutUri uri).authority

/-! ## The authority, read

What reading leaves out: it is told as a text, so that "nothing is lost" is that it is empty.
-/

theorem literalFollowedBy_literal {ok : List Char → Prop} {literal after : List Char}
    (hopen : ['['] <+: literal) (hclose : ']' ∉ literal) :
    LiteralFollowedBy ok (literal ++ ']' :: after) ↔ ok after := by
  unfold LiteralFollowedBy
  rw [List.splitOnce_append hclose]
  constructor
  · exact fun h => h (hopen.trans (List.prefix_append _ _)) _ _ rfl
  · rintro h - literal' after' heq
    rw [← (Prod.mk.inj (Option.some.inj heq)).2]
    exact h

theorem literalFollowedBy_plain {ok : List Char → Prop} {authority : List Char}
    (h : ¬Bracketed authority) : LiteralFollowedBy ok authority := by
  intro hopen literal after hsplit
  refine absurd ⟨hopen, ?_⟩ h
  rw [(List.splitOnce_eq_some.mp hsplit).1]
  simp

def readAuthority (authority : List Char) : List Char :=
  (parseHostPort authority).1 ++
    if (parseHostPort authority).2 = [] then [] else ':' :: (parseHostPort authority).2

theorem digitsAfter_eq (after : List Char) :
    digitsAfter after = [] ∨ after = ':' :: digitsAfter after ∧
      (digitsAfter after).all Char.isDigit = true := by
  unfold digitsAfter
  split
  · split
    · rename_i hdigits
      rw [Bool.and_eq_true] at hdigits
      exact .inr ⟨rfl, hdigits.2⟩
    · exact .inl rfl
  · exact .inl rfl

theorem digitsAfter_ne_nil {port : List Char} (hdigits : port.all Char.isDigit = true)
    (hne : port ≠ []) : digitsAfter (':' :: port) = port := by
  rw [digitsAfter, if_pos]
  rw [hdigits]
  simpa using hne

/-- **What is read of an authority** is all of it, unless a bracketed literal is followed by
something that is no port. -/
theorem readAuthority_lost (authority : List Char) :
    ∃ lost, authority = readAuthority authority ++ lost ∧
      (lost = [] ↔ LiteralFollowedBy ShownPortOrEnd authority) := by
  by_cases hb : Bracketed authority
  · obtain ⟨literal, after, rfl, hopen, hclose⟩ := bracketed_iff.mp hb
    rw [literalFollowedBy_literal hopen hclose]
    unfold readAuthority
    rw [parseHostPort_bracketed hopen hclose]
    dsimp only
    by_cases hnil : digitsAfter after = []
    · refine ⟨after, by rw [if_pos hnil]; simp, fun h => .inl h, fun h => ?_⟩
      rcases h with h | ⟨port, rfl, hdigits, hne⟩
      · exact h
      · exact absurd ((digitsAfter_ne_nil hdigits hne).symm.trans hnil) hne
    · obtain ⟨heq, hdigits⟩ := (digitsAfter_eq after).resolve_left hnil
      refine ⟨[], by rw [if_neg hnil, ← heq]; simp, ?_⟩
      exact iff_of_true rfl (.inr ⟨_, heq, hdigits, hnil⟩)
  · refine ⟨[], ?_, iff_of_true rfl (literalFollowedBy_plain hb)⟩
    unfold readAuthority
    rcases parseHostPort_plain hb with heq | ⟨host, port, rfl, hne, heq⟩
    · rw [heq]
      simp
    · rw [heq]
      simp [hne]

/-! ## The components, put together

Scheme, host, port, path and query with their delimiters, each written only if it is there. That
an empty scheme is not written is one of the exceptions.
-/

namespace UriPieces

theorem recompose_components (q : UriPieces) :
    q.components.recompose =
      (if q.scheme.getD [] = [] then [] else q.scheme.getD [] ++ "://".toList) ++
        (readAuthority q.authority ++
          (q.path ++ if q.query.drop 1 = [] then [] else '?' :: q.query.drop 1)) := rfl

/-- A query is put together again unless it is a question mark alone. -/
theorem query_recompose {q : UriPieces} (hq : q.WellCut) :
    (if q.query.drop 1 = [] then [] else '?' :: q.query.drop 1) = q.query ∨
      q.query = ['?'] := by
  rcases hq.query with hnil | ⟨t, ht⟩
  · rw [hnil]
    exact .inl rfl
  · rw [← ht]
    cases t with
    | nil => exact .inr rfl
    | cons c t => exact .inl rfl

theorem length_query_recompose (q : UriPieces) :
    (if q.query.drop 1 = [] then [] else '?' :: q.query.drop 1).length ≤ q.query.length := by
  split
  · exact Nat.zero_le _
  · rename_i hne
    have := List.length_pos_of_ne_nil hne
    rw [List.length_drop] at this
    rw [List.length_cons, List.length_drop]
    omega

/-- **The components of pieces, put together**, are their text exactly if there is no empty
scheme and nothing but a port behind a bracketed literal. -/
theorem recompose_iff {q : UriPieces} (hq : q.WellCut) :
    (q.components.recompose = q.text ∨
        q.components.query = [] ∧ q.components.recompose ++ ['?'] = q.text) ↔
      q.scheme ≠ some [] ∧ LiteralFollowedBy ShownPortOrEnd q.authority := by
  obtain ⟨lost, hlost, hnil⟩ := readAuthority_lost q.authority
  have hscheme : (if q.scheme.getD [] = [] then [] else q.scheme.getD [] ++ "://".toList) =
      if q.scheme = some [] then [] else schemeText q.scheme := by
    cases q.scheme with
    | none => rfl
    | some s =>
      rw [Option.getD_some]
      by_cases hs : s = []
      · rw [if_pos hs, if_pos (congrArg some hs)]
      · rw [if_neg hs, if_neg fun h => hs (Option.some.inj h)]
        rfl
  have htext : q.text = schemeText q.scheme ++
      ((readAuthority q.authority ++ lost) ++ (q.path ++ q.query)) := by
    rw [← hlost]
    rfl
  have hthree : (schemeText (some [])).length = 3 := rfl
  rw [recompose_components, hscheme, htext, ← hnil]
  constructor
  · rintro (heq | ⟨hquery, heq⟩)
    · have hlen := congrArg List.length heq
      have hshort := length_query_recompose q
      by_cases hs : q.scheme = some []
      · rw [if_pos hs, hs] at hlen
        simp only [List.length_append, List.length_nil, hthree] at hlen
        omega
      · rw [if_neg hs] at hlen
        simp only [List.length_append] at hlen
        exact ⟨hs, List.length_eq_zero_iff.mp (by omega)⟩
    · have hdrop : q.query.drop 1 = [] := hquery
      rw [if_pos hdrop, List.append_nil] at heq
      have hlen := congrArg List.length heq
      by_cases hs : q.scheme = some []
      · rw [if_pos hs, hs] at hlen
        simp only [List.length_append, List.length_nil, List.length_singleton, hthree] at hlen
        omega
      · rw [if_neg hs] at heq hlen
        refine ⟨hs, ?_⟩
        simp only [List.length_append, List.length_singleton] at hlen
        -- A character lost there would be the question mark.
        by_contra hne
        have hpos := List.length_pos_of_ne_nil hne
        have hnone : q.query = [] := List.length_eq_zero_iff.mp (by omega)
        rw [hnone, List.append_nil, List.append_assoc, List.append_cancel_left_eq,
          List.append_assoc, List.append_assoc, List.append_cancel_left_eq] at heq
        have hmem : '?' ∈ lost ++ q.path := heq ▸ List.mem_append_right _ List.mem_cons_self
        have hmark : '?' ∈ lost := (List.mem_append.mp hmem).resolve_right hq.mark
        have hpath : q.path = [] := by
          cases hp : q.path with
          | nil => rfl
          | cons c path =>
            obtain ⟨d, rfl⟩ := List.length_eq_one_iff.mp (show lost.length = 1 by omega)
            rw [hp] at heq
            have hhead : c = d := List.head_eq_of_cons_eq heq
            rw [← hhead] at hmark
            refine absurd ?_ hq.mark
            rw [hp, List.mem_singleton.mp hmark]
            exact List.mem_cons_self
        exact (hq.bare hpath).1 (hlost ▸ List.mem_append_right _ hmark)
  · rintro ⟨hs, rfl⟩
    rw [if_neg hs, List.append_nil]
    rcases query_recompose hq with hquery | hquery
    · rw [hquery]
      exact .inl rfl
    · rw [hquery]
      refine .inr ⟨congrArg (List.drop 1) hquery, ?_⟩
      simp

end UriPieces

/-! ## The authority, normalized

Between the authority that came in and the one that is shown lies at most a port and its colon.
-/

namespace UriPieces

/-- What the shown authority has lost of the authority. -/
def DropsOnlyPort (p : UriPieces) : Prop :=
  ∃ dropped, toAsciiLowercase p.authority = toAsciiLowercase p.shownAuthority ++ dropped ∧
    (dropped = [] ∨ dropped = [':'] ∨ dropped = ':' :: p.defaultPort)

/-- Behind a host, a port is shown or is one that may be dropped. -/
theorem dropsOnlyPort_of {p : UriPieces} (host after port : List Char)
    (heq : p.authority = host ++ after)
    (hshown : p.shownAuthority = lowercaseHost host ++ p.portText port)
    (hafter : after = [] ∧ port = [] ∨ after = ':' :: port) : p.DropsOnlyPort := by
  unfold DropsOnlyPort
  rw [heq, hshown, toAsciiLowercase_append, toAsciiLowercase_append, toAsciiLowercase_lowercaseHost]
  rcases hafter with ⟨rfl, rfl⟩ | rfl
  · rw [portText_of_drops (.inl rfl)]
    exact ⟨[], (List.append_nil _).symm, .inl rfl⟩
  · by_cases hdrop : p.DropsPort port
    · rw [portText_of_drops hdrop]
      refine ⟨':' :: toAsciiLowercase port, by simp [toAsciiLowercase], ?_⟩
      rcases hdrop with rfl | rfl
      · exact .inr (.inl rfl)
      · rw [(toAsciiLowercase_eq_iff p.defaultPort_not_alpha).mpr rfl]
        exact .inr (.inr rfl)
    · rw [portText_of_shown hdrop]
      exact ⟨[], (List.append_nil _).symm, .inl rfl⟩

/-- **Only a port is dropped**, where nothing but a port stands behind a bracketed literal. -/
theorem dropsOnlyPort {p : UriPieces} (h : LiteralFollowedBy PortOrEnd p.authority) :
    p.DropsOnlyPort := by
  rcases normalizeHostPort_cases p.authority with
    ⟨literal, after, heq, hopen, hclose, hparts⟩ | ⟨-, ⟨host, port, heq, -, hparts⟩ | ⟨-, hparts⟩⟩
  · rw [heq, literalFollowedBy_literal hopen hclose] at h
    refine dropsOnlyPort_of (literal ++ [']']) after (afterBracket after) ?_ ?_ ?_
    · rw [heq, List.append_assoc]
      rfl
    · unfold shownAuthority
      rw [hparts]
    · rcases h with rfl | ⟨port, rfl, -⟩
      · exact .inl ⟨rfl, rfl⟩
      · exact .inr rfl
  · exact dropsOnlyPort_of host _ port heq (by unfold shownAuthority; rw [hparts]) (.inr rfl)
  · exact dropsOnlyPort_of _ [] [] (List.append_nil _).symm (by unfold shownAuthority; rw [hparts])
      (.inl ⟨rfl, rfl⟩)

theorem prefix_normalizeHostPort (authority : List Char) :
    (normalizeHostPort authority).1 <+: authority := by
  rcases normalizeHostPort_cases authority with
    ⟨literal, after, heq, -, -, hparts⟩ | ⟨-, ⟨host, port, heq, -, hparts⟩ | ⟨-, hparts⟩⟩
  · rw [hparts, heq]
    exact ⟨after, by rw [List.append_assoc]; rfl⟩
  · rw [hparts, heq]
    exact List.prefix_append _ _
  · exact ⟨[], by rw [hparts, List.append_nil]⟩

theorem not_bracketed_shownAuthority {p : UriPieces} (h : ¬Bracketed p.authority) :
    ¬Bracketed p.shownAuthority := by
  rintro ⟨hopen, hclose⟩
  refine h ⟨?_, (mem_shownAuthority (by decide) hclose).resolve_right (by decide)⟩
  refine List.IsPrefix.trans ?_ (prefix_normalizeHostPort p.authority)
  have hlower := toAsciiLowercase_lowercaseHost (normalizeHostPort p.authority).1
  unfold shownAuthority at hopen
  cases hhost : lowercaseHost (normalizeHostPort p.authority).1 with
  | nil =>
    rw [hhost, List.nil_append] at hopen
    unfold portText at hopen
    split at hopen
    · exact absurd (List.cons_prefix_cons.mp hopen).1 (by decide)
    · exact absurd hopen (by simp)
  | cons c host =>
    rw [hhost] at hopen hlower
    rw [← prefix_toAsciiLowercase (by decide), ← hlower, prefix_toAsciiLowercase (by decide),
      (List.cons_prefix_cons.mp hopen).1]
    exact List.prefix_append [c] host

/-- What is shown behind a bracketed literal is read again. -/
theorem literalFollowedBy_shownAuthority {p : UriPieces}
    (h : LiteralFollowedBy PortOrEnd p.authority) :
    LiteralFollowedBy ShownPortOrEnd p.shownAuthority := by
  by_cases hb : Bracketed p.authority
  · obtain ⟨literal, after, heq, hopen, hclose⟩ := bracketed_iff.mp hb
    obtain ⟨shown, hshown, hopen', hclose'⟩ := lowercaseHost_literal hopen hclose
    have htext : p.shownAuthority = shown ++ ']' :: p.portText (afterBracket after) := by
      unfold shownAuthority
      rw [heq, normalizeHostPort_bracketed (hopen.trans (List.prefix_append _ _)) hclose, hshown,
        List.append_assoc]
      rfl
    rw [heq, literalFollowedBy_literal hopen hclose] at h
    rw [htext, literalFollowedBy_literal hopen' hclose']
    by_cases hdrop : p.DropsPort (afterBracket after)
    · exact .inl (portText_of_drops hdrop)
    · rw [portText_of_shown hdrop]
      rcases h with rfl | ⟨port, rfl, hdigits⟩
      · exact absurd (.inl rfl) hdrop
      · exact .inr ⟨port, rfl, hdigits, fun hnil => hdrop (.inl hnil)⟩
  · exact literalFollowedBy_plain (not_bracketed_shownAuthority hb)

end UriPieces

/-- A scheme, if there is one, is not empty; nothing but a port stands behind a bracketed
literal; and both hold of the pieces that a `://` divides where it comes together. -/
structure PlainPieces (uri : List Char) : Prop where
  scheme : (cutUri uri).scheme ≠ some []
  literal : LiteralFollowedBy PortOrEnd (cutUri uri).authority
  joined : (cutUri uri).JoinsScheme → (cutUri uri).joined.scheme ≠ some [] ∧
    LiteralFollowedBy ShownPortOrEnd (cutUri uri).joined.authority

/-- **Decomposition loses nothing** exactly if the pieces are plain.

Behind the bracket of a literal the reader expects a colon and drops what is none; a port that is no
number is in no component; and an empty scheme is not written back. Where a `://` comes together the
same is asked of the pieces that it divides. -/
theorem decomposeUri_losesNothing_iff {uri : String} {v : List Char} {c : UriComponents}
    (h : decomposeUri uri = .ok c) (hv : normalizeUri uri.toList = .ok v) :
    LosesNothing uri.toList v c ↔ PlainPieces uri.toList := by
  obtain ⟨-, -, rfl⟩ := decomposeUri_eq_ok.mp h
  obtain ⟨-, rfl⟩ := normalizeUri_eq_ok.mp hv
  have hwell := wellCut_cutUri uri.toList
  have hrecompose := UriPieces.recompose_iff (wellCut_cutUri (cutUri uri.toList).normal.text)
  rw [text_cutUri] at hrecompose
  -- Without a joined separator the pieces of the result are the normal pieces.
  have hnormal : ¬(cutUri uri.toList).JoinsScheme →
      cutUri (cutUri uri.toList).normal.text = (cutUri uri.toList).normal := fun hjoin =>
    cutUri_text (hwell.normal hjoin)
  have hscheme : (cutUri uri.toList).normal.scheme = some [] ↔
      (cutUri uri.toList).scheme = some [] := by
    show (cutUri uri.toList).scheme.map toAsciiLowercase = some [] ↔ _
    cases (cutUri uri.toList).scheme with
    | none => simp
    | some s => simp [toAsciiLowercase]
  constructor
  · intro hloses
    obtain ⟨hs, hliteral⟩ := hrecompose.mp hloses.recompose
    refine ⟨fun hempty => ?_, hloses.literal, fun hjoin => ?_⟩
    · have hjoin : ¬(cutUri uri.toList).JoinsScheme := fun hjoin => by
        cases hjoin.1.symm.trans hempty
      rw [hnormal hjoin] at hs
      exact hs (hscheme.mpr hempty)
    · rw [← UriPieces.cutUri_normal_text hwell hjoin.1]
      exact ⟨hs, hliteral⟩
  · intro hplain
    refine ⟨hrecompose.mpr ?_, UriPieces.dropsOnlyPort hplain.literal, hplain.literal⟩
    by_cases hjoin : (cutUri uri.toList).JoinsScheme
    · rw [UriPieces.cutUri_normal_text hwell hjoin.1]
      exact hplain.joined hjoin
    · rw [hnormal hjoin]
      exact ⟨fun hempty => hplain.scheme (hscheme.mp hempty),
        UriPieces.literalFollowedBy_shownAuthority hplain.literal⟩

theorem decomposeUri_losesNothing_iff_example :
    LosesNothing "http://[FE80::1%25Eth0]:8080/x?q".toList "http://[fe80::1%25Eth0]:8080/x?q".toList
      { scheme := "http".toList, host := "[fe80::1%25Eth0]".toList, port := "8080".toList,
        path := "/x".toList, query := "q".toList } := by
  refine (@decomposeUri_losesNothing_iff "http://[FE80::1%25Eth0]:8080/x?q" _ _ ?_ ?_).mpr
    ⟨?_, fun _ literal after hsplit => ?_, ?_⟩
  · decide +kernel
  · decide +kernel
  · decide +kernel
  · have hcut : (cutUri "http://[FE80::1%25Eth0]:8080/x?q".toList).authority.splitOnce ']' =
        some ("[FE80::1%25Eth0".toList, ":8080".toList) := by
      decide +kernel
    rw [← (Prod.mk.inj (Option.some.inj (hcut.symm.trans hsplit))).2]
    exact .inr ⟨"8080".toList, rfl, by decide⟩
  · exact fun hjoin => absurd hjoin.1 (by decide +kernel)

/-- Text behind a bracketed literal, a port that is no number, and an empty scheme. -/
theorem decomposeUri_losesSomething :
    (normalizeUri "http://[::1]junk/".toList = .ok "http://[::1]/".toList ∧
      decomposeUri "http://[::1]junk/" =
        .ok { scheme := "http".toList, host := "[::1]".toList, path := "/".toList }) ∧
    (normalizeUri "http://[::1]:abc/".toList = .ok "http://[::1]:abc/".toList ∧
      decomposeUri "http://[::1]:abc/" =
        .ok { scheme := "http".toList, host := "[::1]".toList, path := "/".toList }) ∧
    normalizeUri "://x".toList = .ok "://x/".toList ∧
      decomposeUri "://x" = .ok { host := "x".toList, path := "/".toList } := by
  decide +kernel

end Cat
