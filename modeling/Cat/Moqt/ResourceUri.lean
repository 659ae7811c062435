import Cat.Dpop.CwtRoundTrip
import Cat.Lib.Splitting
import Cat.Moqt.Request

/-!
# Resource URIs, written and read

`construct_moqt_uri` writes the URI of a resource, and `parse_moqt_resource_uri` reads it. A
resource is an endpoint, a tuple of names and a track, and the two functions are inverse on most
of them: what was written is read back as these unless the endpoint is empty or the tuple is
that of one empty name.

Both exceptions are texts that are no longer what they were written for. An empty endpoint gives
`moqt://?tns=`, which the reader refuses. The tuple of one empty name and the empty text are the
same text, since names are joined by commas and the empty name is written with no characters at
all; the reader takes the text for a tuple without names, and refuses that.

In the other direction, an accepted URI is the one its parts are written as, unless it gives the
track before the tuple. The reader takes the pairs of the query in any order, and the writer has
one.

`parseResourcePair_eq_ok` is the specification of one turn of the reader's loop, and
`parseResourceQuery_eq_ok` of the loop: there are at most two turns, since a pair is the tuple's
or the track's and each is met once. Of base64url it is assumed, besides what every user of it
here assumes, that its alphabet has none of the characters that delimit a URI.
-/

set_option autoImplicit false

namespace Cat

open Cbor

section
variable (H : Host)

def constructMoqtUri (endpoint : String) (namespaces : Option (List Bytes))
    (track : Option Bytes) : Except CatError String := do
  if endpoint.toList.contains '?' || endpoint.toList.contains '#' ||
      endpoint.toList.contains '/' then
    throw (.invalidClaimValue "MOQT endpoint must not contain '?', '#', or '/'")
  let uri := "moqt://".toList ++ endpoint.toList
  match namespaces with
  | some ns =>
    if ns.isEmpty then
      throw (.invalidClaimValue "MOQT resource namespace tuple must have at least one element")
    let encodedSegments := ns.map fun seg => (H.base64Encode seg).toList
    let uri := uri ++ "?tns=".toList ++ [','].intercalate encodedSegments
    match track with
    | some t => return String.ofList (uri ++ "&tn=".toList ++ (H.base64Encode t).toList)
    | none => return String.ofList uri
  | none =>
    if track.isSome then
      throw (.invalidClaimValue "MOQT resource track requires a namespace tuple")
    return String.ofList uri

/-! ## The parts of the query

A resource is given by a pair for the tuple and one for the track. Commas and the delimiters of
a URI are not in the alphabet of base64url, so each text is found again where it was put; this,
and that only no bytes are encoded as the empty text, is what is relied on of the encoding.
-/

/-- What more is relied on of base64url: its alphabet, and that no bytes are no text. -/
structure Base64UrlLawful : Prop extends Base64Lawful H where
  alphabet : ∀ b, ∀ c ∈ (H.base64Encode b).toList, c ∈ Base64.alphabet
  empty : H.base64Encode [] = ""

/-- The pair of the query that gives the tuple: the names in base64url, joined by commas. -/
def namespaceText (ns : List Bytes) : List Char :=
  "tns=".toList ++ [','].intercalate (ns.map fun seg => (H.base64Encode seg).toList)

def trackText (t : Bytes) : List Char := "tn=".toList ++ (H.base64Encode t).toList

/-- The query with these `key=value` pairs. -/
def queryText (pairs : List (List Char)) : List Char :=
  if pairs = [] then [] else '?' :: ['&'].intercalate pairs

def resourceText (endpoint : List Char) (pairs : List (List Char)) : List Char :=
  "moqt://".toList ++ (endpoint ++ queryText pairs)

/-- The query starts with the track. -/
def trackFirst (uri : String) : Bool :=
  match (uri.toList.drop 7).splitOnce '?' with
  | some (_, query) => "tn=".toList.isPrefixOf query
  | none => false

end

variable {H : Host}

/-- A character of the tuple's text is one of its key, a comma or one of base64url. -/
theorem mem_namespaceText (hb : Base64UrlLawful H) {c : Char} {ns : List Bytes}
    (h : c ∈ namespaceText H ns) : c ∈ "tns=,".toList ∨ c ∈ Base64.alphabet := by
  rcases List.mem_append.mp h with h | h
  · left
    revert h
    simp
    tauto
  · rcases List.mem_intercalate h with rfl | ⟨part, hpart, hc⟩
    · left
      decide
    · obtain ⟨b, -, rfl⟩ := List.mem_map.mp hpart
      exact .inr (hb.alphabet b c hc)

theorem mem_trackText (hb : Base64UrlLawful H) {c : Char} {t : Bytes} (h : c ∈ trackText H t) :
    c ∈ "tns=,".toList ∨ c ∈ Base64.alphabet := by
  rcases List.mem_append.mp h with h | h
  · left
    revert h
    simp
    tauto
  · exact .inr (hb.alphabet t c h)

/-- What delimits a URI is in neither. -/
theorem not_mem_pairTexts (hb : Base64UrlLawful H) {c : Char}
    (hc : c ∉ "tns=,".toList ∧ c ∉ Base64.alphabet) :
    (∀ ns, c ∉ namespaceText H ns) ∧ ∀ t, c ∉ trackText H t :=
  ⟨fun _ h => (mem_namespaceText hb h).elim hc.1 hc.2,
    fun _ h => (mem_trackText hb h).elim hc.1 hc.2⟩

theorem encode_eq_empty (hb : Base64UrlLawful H) {b : Bytes} :
    (H.base64Encode b).toList = [] ↔ b = [] := by
  constructor
  · intro h
    have hback := hb.decode_encode b
    rw [String.toList_eq_nil_iff.mp h, ← hb.empty, hb.decode_encode] at hback
    exact (Except.ok.inj hback).symm
  · rintro rfl
    rw [hb.empty]
    rfl

theorem decodeSegment_eq_ok (hb : Base64UrlLawful H) {what : String} {seg : List Char}
    {b : Bytes} :
    decodeSegment H what seg = .ok b ↔ (H.base64Encode b).toList = seg := by
  constructor
  · intro h
    rw [decodeSegment] at h
    split at h
    · rename_i x hx
      obtain rfl := Except.ok.inj h
      rw [hb.encode_decode _ _ hx, String.toList_ofList]
    · cases h
  · rintro rfl
    rw [decodeSegment, String.ofList_toList, hb.decode_encode]

/-- A tuple has one text. There is no text of the tuple without names: splitting a text at commas
    gives one piece at least. -/
theorem decodeSegments_eq_ok (hb : Base64UrlLawful H) {what : String} {v : List Char}
    {ns : List Bytes} :
    (v.splitOn ',').mapM' (decodeSegment H what) = .ok ns ↔
      ns ≠ [] ∧ [','].intercalate (ns.map fun seg => (H.base64Encode seg).toList) = v := by
  have hsegs : (v.splitOn ',').mapM' (decodeSegment H what) = .ok ns ↔
      v.splitOn ',' = ns.map fun seg => (H.base64Encode seg).toList := by
    rw [Except.mapM'_eq_ok, ← List.forall₂_eq_eq_eq, List.forall₂_map_right_iff]
    constructor
    · intro h
      exact h.imp fun _ _ hseg => ((decodeSegment_eq_ok hb).mp hseg).symm
    · intro h
      exact h.imp fun _ _ hseg => (decodeSegment_eq_ok hb).mpr hseg.symm
  rw [hsegs]
  constructor
  · intro h
    refine ⟨?_, by rw [← h, List.intercalate_splitOn]⟩
    rintro rfl
    exact List.splitOn_ne_nil _ _ h
  · rintro ⟨hne, rfl⟩
    apply List.splitOn_intercalate _ _ (by simpa using hne)
    rw [List.forall_mem_map]
    exact fun b _ hmem => absurd (hb.alphabet b _ hmem) (by decide)

/-! ## Reading the query

The loop takes one pair at a time and refuses a key that it has seen. What it returns depends on
the pairs as a set, and there are at most two.
-/

/-- **A pair is the tuple's or the track's, and is met once.** -/
theorem parseResourcePair_eq_ok (hb : Base64UrlLawful H) {uri uri' : MoqtResourceUri}
    {pair : List Char} :
    parseResourcePair H uri pair = .ok uri' ↔
      (∃ ns, uri.namespaces = none ∧ ns ≠ [] ∧ ns ≠ [[]] ∧ pair = namespaceText H ns ∧
        uri' = { uri with namespaces := some ns }) ∨
      ∃ t, uri.track = none ∧ pair = trackText H t ∧ uri' = { uri with track := some t } := by
  have hkeys : "tn".toList ≠ "tns".toList := by decide
  have hnotin : '=' ∉ "tns".toList ∧ '=' ∉ "tn".toList := by decide
  -- The tuple's text is empty only for the tuple of the empty name.
  have hempty : ∀ ns : List Bytes, ns ≠ [] →
      ([','].intercalate (ns.map fun seg => (H.base64Encode seg).toList) = [] ↔ ns = [[]]) := by
    intro ns hne
    cases ns with
    | nil => exact absurd rfl hne
    | cons b ns =>
      cases ns with
      | nil => simp [List.intercalate, encode_eq_empty hb]
      | cons b' ns => simp [List.intercalate]
  constructor
  · intro h
    rw [parseResourcePair] at h
    split at h
    · cases h
    · rename_i k v hsplit
      obtain ⟨rfl, -⟩ := List.splitOnce_eq_some.mp hsplit
      split at h
      · rename_i hk
        obtain ⟨rfl, hnone⟩ := hk
        by_cases hv : v.isEmpty
        · rw [if_pos hv] at h
          cases h
        rw [if_neg hv] at h
        obtain ⟨ns, hns, h⟩ := Except.bind_eq_ok.mp h
        obtain rfl := Except.ok.inj h
        obtain ⟨hne, htext⟩ := (decodeSegments_eq_ok hb).mp hns
        refine .inl ⟨ns, by simpa using hnone, hne, fun hone => ?_, ?_, rfl⟩
        · exact hv (by rw [← htext, (hempty ns hne).mpr hone]; rfl)
        · rw [namespaceText, htext]
          rfl
      · split at h
        · rename_i hk
          obtain ⟨rfl, hnone⟩ := hk
          obtain ⟨t, ht, h⟩ := Except.bind_eq_ok.mp h
          obtain rfl := Except.ok.inj h
          refine .inr ⟨t, by simpa using hnone, ?_, rfl⟩
          rw [trackText, (decodeSegment_eq_ok hb).mp ht]
          rfl
        · cases h
  · rintro (⟨ns, hnone, hne, hone, rfl, rfl⟩ | ⟨t, hnone, rfl, rfl⟩)
    · have hsplit : (namespaceText H ns).splitOnce '=' = some ("tns".toList,
          [','].intercalate (ns.map fun seg => (H.base64Encode seg).toList)) :=
        List.splitOnce_append hnotin.1
      rw [parseResourcePair, hsplit]
      simp only
      rw [if_pos ⟨trivial, by rw [hnone]; rfl⟩,
        if_neg fun h => hone ((hempty ns hne).mp (by simpa using h)),
        (decodeSegments_eq_ok hb).mpr ⟨hne, rfl⟩]
      rfl
    · have hsplit : (trackText H t).splitOnce '=' =
          some ("tn".toList, (H.base64Encode t).toList) := List.splitOnce_append hnotin.2
      rw [parseResourcePair, hsplit]
      simp only
      rw [if_neg fun h => hkeys h.1, if_pos ⟨trivial, by rw [hnone]; rfl⟩,
        (decodeSegment_eq_ok hb).mpr rfl]
      rfl

/-- The pairs a resource may be given by. -/
def PairsOf (H : Host) (r : MoqtResourceUri) (pairs : List (List Char)) : Prop :=
  (r.namespaces = none ∧ r.track = none ∧ pairs = []) ∨
  ∃ ns, r.namespaces = some ns ∧ ns ≠ [] ∧ ns ≠ [[]] ∧
    ((r.track = none ∧ pairs = [namespaceText H ns]) ∨
      ∃ t, r.track = some t ∧ (pairs = [namespaceText H ns, trackText H t] ∨
        pairs = [trackText H t, namespaceText H ns]))

/-- One turn of the loop: the first pair, and then the others with what is known so far. -/
theorem parseResourceQuery_cons {uri r : MoqtResourceUri} {pair : List Char}
    {pairs : List (List Char)} :
    parseResourceQuery H uri (pair :: pairs) = .ok r ↔
      ∃ uri', parseResourcePair H uri pair = .ok uri' ∧
        parseResourceQuery H uri' pairs = .ok r := by
  rw [parseResourceQuery]
  cases parseResourcePair H uri pair with
  | error e => simp
  | ok uri' => simp

/-- Once tuple and track are there, any further pair is refused. -/
theorem parseResourceQuery_full (hb : Base64UrlLawful H) {uri r : MoqtResourceUri}
    {pairs : List (List Char)} (hns : uri.namespaces ≠ none) (ht : uri.track ≠ none) :
    parseResourceQuery H uri pairs = .ok r ↔ pairs = [] ∧ r = uri := by
  cases pairs with
  | nil => simp [parseResourceQuery, eq_comm]
  | cons pair pairs => simp [parseResourceQuery_cons, parseResourcePair_eq_ok hb, hns, ht]

/-- **Query to resource.** A track does not come alone. -/
theorem parseResourceQuery_eq_ok (hb : Base64UrlLawful H) {endpoint : String}
    {r : MoqtResourceUri} {pairs : List (List Char)} :
    parseResourceQuery H { endpoint := endpoint } pairs = .ok r ∧
        ¬(r.track.isSome = true ∧ r.namespaces.isNone = true) ↔
      r.endpoint = endpoint ∧ PairsOf H r pairs := by
  constructor
  · rintro ⟨h, halone⟩
    cases pairs with
    | nil =>
      obtain rfl := Except.ok.inj h
      exact ⟨rfl, .inl ⟨rfl, rfl, rfl⟩⟩
    | cons pair pairs =>
      obtain ⟨uri, hpair, h⟩ := parseResourceQuery_cons.mp h
      rcases (parseResourcePair_eq_ok hb).mp hpair with
        ⟨ns, -, hne, hone, rfl, rfl⟩ | ⟨t, -, rfl, rfl⟩
      · cases pairs with
        | nil =>
          obtain rfl := Except.ok.inj h
          exact ⟨rfl, .inr ⟨ns, rfl, hne, hone, .inl ⟨rfl, rfl⟩⟩⟩
        | cons pair pairs =>
          obtain ⟨uri, hpair, h⟩ := parseResourceQuery_cons.mp h
          -- A second pair of the same kind is refused, and nothing follows one of each.
          rcases (parseResourcePair_eq_ok hb).mp hpair with ⟨_, hnone, -⟩ | ⟨t, -, rfl, rfl⟩
          · cases hnone
          · obtain ⟨rfl, rfl⟩ := (parseResourceQuery_full hb (by simp) (by simp)).mp h
            exact ⟨rfl, .inr ⟨ns, rfl, hne, hone, .inr ⟨t, rfl, .inl rfl⟩⟩⟩
      · cases pairs with
        | nil =>
          obtain rfl := Except.ok.inj h
          exact absurd ⟨rfl, rfl⟩ halone
        | cons pair pairs =>
          obtain ⟨uri, hpair, h⟩ := parseResourceQuery_cons.mp h
          rcases (parseResourcePair_eq_ok hb).mp hpair with
            ⟨ns, -, hne, hone, rfl, rfl⟩ | ⟨_, hnone, -⟩
          · obtain ⟨rfl, rfl⟩ := (parseResourceQuery_full hb (by simp) (by simp)).mp h
            exact ⟨rfl, .inr ⟨ns, rfl, hne, hone, .inr ⟨t, rfl, .inr rfl⟩⟩⟩
          · cases hnone
  · obtain ⟨ep, nss, track⟩ := r
    rintro ⟨rfl, ⟨rfl, rfl, rfl⟩ | ⟨ns, rfl, hne, hone, ⟨rfl, rfl⟩ | ⟨t, rfl, rfl | rfl⟩⟩⟩
    · exact ⟨rfl, by simp⟩
    · refine ⟨parseResourceQuery_cons.mpr ⟨_, ?_, rfl⟩, by simp⟩
      exact (parseResourcePair_eq_ok hb).mpr (.inl ⟨ns, rfl, hne, hone, rfl, rfl⟩)
    · refine ⟨parseResourceQuery_cons.mpr ⟨⟨ep, some ns, none⟩, ?_, ?_⟩, by simp⟩
      · exact (parseResourcePair_eq_ok hb).mpr (.inl ⟨ns, rfl, hne, hone, rfl, rfl⟩)
      · refine parseResourceQuery_cons.mpr ⟨_, ?_, rfl⟩
        exact (parseResourcePair_eq_ok hb).mpr (.inr ⟨t, rfl, rfl, rfl⟩)
    · refine ⟨parseResourceQuery_cons.mpr ⟨⟨ep, none, some t⟩, ?_, ?_⟩, by simp⟩
      · exact (parseResourcePair_eq_ok hb).mpr (.inr ⟨t, rfl, rfl, rfl⟩)
      · refine parseResourceQuery_cons.mpr ⟨_, ?_, rfl⟩
        exact (parseResourcePair_eq_ok hb).mpr (.inl ⟨ns, rfl, hne, hone, rfl, rfl⟩)

/-! ## Reading and writing

Reader and writer as two relations between texts and resources, each an equivalence. The reader
asks for an endpoint that is not empty, and the writer for one without delimiters.
-/

/-- What may stand for an endpoint. -/
def EndpointText (endpoint : String) : Prop := ∀ c ∈ endpoint.toList, c ∉ ['?', '#', '/']

theorem not_mem_pairs (hb : Base64UrlLawful H) {r : MoqtResourceUri} {pairs : List (List Char)}
    (h : PairsOf H r pairs) {c : Char} (hc : c ∉ "tns=,".toList ∧ c ∉ Base64.alphabet) :
    ∀ pair ∈ pairs, c ∉ pair := by
  obtain ⟨hns, ht⟩ := not_mem_pairTexts hb hc
  rcases h with ⟨-, -, rfl⟩ | ⟨ns, -, -, -, ⟨-, rfl⟩ | ⟨t, -, rfl | rfl⟩⟩
  · exact fun _ h => absurd h List.not_mem_nil
  · simp [hns]
  · simp [hns, ht]
  · simp [hns, ht]

theorem queryText_one (pair : List Char) : queryText [pair] = '?' :: pair := by
  simp [queryText, List.intercalate]

theorem queryText_two (pair pair' : List Char) :
    queryText [pair, pair'] = '?' :: (pair ++ '&' :: pair') := by
  simp [queryText, List.intercalate]

/-- The reader's cut at the query. -/
def cutQuery (rest : List Char) : List Char × List (List Char) :=
  match rest.splitOnce '?' with
  | some (ep, q) => (ep, q.splitOn '&')
  | none => (rest, [])

theorem cutQuery_eq {rest ep : List Char} {pairs : List (List Char)} :
    cutQuery rest = (ep, pairs) ↔
      rest = ep ++ queryText pairs ∧ '?' ∉ ep ∧ ∀ pair ∈ pairs, '&' ∉ pair := by
  rw [cutQuery]
  constructor
  · intro h
    split at h
    · rename_i ep' q hsplit
      obtain ⟨rfl, rfl⟩ := Prod.mk.inj h
      obtain ⟨rfl, hmark⟩ := List.splitOnce_eq_some.mp hsplit
      refine ⟨?_, hmark, fun _ => List.not_mem_of_mem_splitOn⟩
      rw [queryText, if_neg (List.splitOn_ne_nil _ _), List.intercalate_splitOn]
    · rename_i hsplit
      obtain ⟨rfl, rfl⟩ := Prod.mk.inj h
      exact ⟨(List.append_nil _).symm, List.splitOnce_eq_none.mp hsplit, by simp⟩
  · rintro ⟨rfl, hmark, hpairs⟩
    by_cases hnil : pairs = []
    · rw [queryText, if_pos hnil, List.append_nil, List.splitOnce_eq_none.mpr hmark, hnil]
    · rw [queryText, if_neg hnil, List.splitOnce_append hmark]
      exact congrArg (ep, ·) (List.splitOn_intercalate _ hpairs hnil)

/-- What the reader does once the query is cut off. -/
def finishResource (H : Host) (endpoint : List Char) (pairs : List (List Char)) :
    Except CatError MoqtResourceUri := do
  if endpoint.isEmpty then
    throw (.dpopValidationFailed "DPoP proof resource endpoint is empty")
  let parsed ← parseResourceQuery H { endpoint := String.ofList endpoint } pairs
  if parsed.track.isSome && parsed.namespaces.isNone then
    throw (.dpopValidationFailed "DPoP proof resource carries tn without tns")
  return parsed

theorem finishResource_eq_ok (hb : Base64UrlLawful H) {endpoint : List Char}
    {pairs : List (List Char)} {r : MoqtResourceUri} :
    finishResource H endpoint pairs = .ok r ↔
      endpoint ≠ [] ∧ r.endpoint = String.ofList endpoint ∧ PairsOf H r pairs := by
  rw [← parseResourceQuery_eq_ok hb, finishResource]
  constructor
  · intro h
    dsimp only at h
    split at h
    · cases h
    rename_i hempty
    obtain ⟨parsed, hquery, h⟩ := Except.bind_eq_ok.mp h
    split at h
    · cases h
    rename_i halone
    obtain rfl := Except.ok.inj h
    exact ⟨by simpa using hempty, hquery, by simpa using halone⟩
  · rintro ⟨hne, hquery, halone⟩
    dsimp only
    rw [if_neg (by simpa using hne), hquery]
    exact if_neg (by simpa using halone)

theorem parseMoqtResourceUri_eq (H : Host) (uri : String) :
    parseMoqtResourceUri H uri =
      if !"moqt://".toList.isPrefixOf uri.toList then
        .error (.dpopValidationFailed
          s!"DPoP proof resource must start with moqt://; got '{uri}'")
      else if (uri.toList.drop 7).contains '#' || (uri.toList.drop 7).contains '/' then
        .error (.dpopValidationFailed "DPoP proof resource must not contain '#' or '/'")
      else finishResource H (cutQuery (uri.toList.drop 7)).1 (cutQuery (uri.toList.drop 7)).2 := by
  rfl

/-- **What is accepted.** -/
theorem parseMoqtResourceUri_eq_ok (hb : Base64UrlLawful H) {uri : String}
    {r : MoqtResourceUri} :
    parseMoqtResourceUri H uri = .ok r ↔
      r.endpoint ≠ "" ∧ EndpointText r.endpoint ∧
        ∃ pairs, PairsOf H r pairs ∧ uri.toList = resourceText r.endpoint.toList pairs := by
  rw [parseMoqtResourceUri_eq]
  constructor
  · intro h
    split at h
    · cases h
    rename_i hscheme
    split at h
    · cases h
    rename_i hchars
    obtain ⟨rest, hrest⟩ : "moqt://".toList <+: uri.toList := by simpa using hscheme
    have hdrop : uri.toList.drop 7 = rest := by
      rw [← hrest]
      rfl
    rw [hdrop] at h hchars
    -- What follows the scheme is the endpoint up to the first question mark, then the pairs.
    obtain ⟨hcut, hmark, -⟩ := cutQuery_eq.mp (Prod.mk.eta (p := cutQuery rest)).symm
    obtain ⟨hne, hep, hpairs⟩ := (finishResource_eq_ok hb).mp h
    have hclear : '#' ∉ rest ∧ '/' ∉ rest := by simpa using hchars
    rw [hep, String.toList_ofList]
    refine ⟨fun h => hne (by simpa using h), fun c hc hmem => ?_, _, hpairs, ?_⟩
    · rw [String.toList_ofList] at hc
      have hin : c ∈ rest := hcut ▸ List.mem_append_left _ hc
      simp only [List.mem_cons, List.not_mem_nil, or_false] at hmem
      rcases hmem with rfl | rfl | rfl
      · exact hmark hc
      · exact hclear.1 hin
      · exact hclear.2 hin
    · exact hrest.symm.trans (congrArg ("moqt://".toList ++ ·) hcut)
  · rintro ⟨hne, htext, pairs, hpairs, huri⟩
    have hdrop : uri.toList.drop 7 = r.endpoint.toList ++ queryText pairs := by
      rw [huri]
      rfl
    -- Neither the endpoint nor a written pair holds a fragment mark or a slash.
    have hclear : ∀ c ∈ ['#', '/'], c ∉ r.endpoint.toList ++ queryText pairs := by
      intro c hc hmem
      have hall : ∀ c ∈ ['#', '/'], c ∉ "tns=,".toList ∧ c ∉ Base64.alphabet ∧
          c ∈ ['?', '#', '/'] ∧ c ≠ '?' ∧ c ≠ '&' :=
        List.forall_mem_of_all (by decide +kernel)
      have hc' := hall c hc
      rcases List.mem_append.mp hmem with hmem | hmem
      · exact htext c hmem hc'.2.2.1
      · rw [queryText] at hmem
        split at hmem
        · exact List.not_mem_nil hmem
        · rcases List.mem_cons.mp hmem with h | hmem
          · exact hc'.2.2.2.1 h
          · rcases List.mem_intercalate hmem with h | ⟨pair, hpair, hmem⟩
            · exact hc'.2.2.2.2 h
            · exact not_mem_pairs hb hpairs ⟨hc'.1, hc'.2.1⟩ pair hpair hmem
    have hcut : cutQuery (r.endpoint.toList ++ queryText pairs) = (r.endpoint.toList, pairs) :=
      cutQuery_eq.mpr ⟨rfl, fun hmem => htext _ hmem (by decide),
        not_mem_pairs hb hpairs (by decide +kernel)⟩
    rw [hdrop, hcut, if_neg, if_neg, finishResource_eq_ok hb]
    · exact ⟨by simpa using hne, String.ofList_toList.symm, hpairs⟩
    · have h1 := hclear '#' (by simp)
      have h2 := hclear '/' (by simp)
      simp only [List.contains_eq_mem, h1, h2, decide_false, Bool.or_self, Bool.false_eq_true,
        not_false_eq_true]
    · rw [huri]
      have hscheme : "moqt://".toList.isPrefixOf (resourceText r.endpoint.toList pairs) = true :=
        List.isPrefixOf_iff_prefix.mpr ⟨_, rfl⟩
      rw [hscheme]
      exact Bool.false_ne_true

/-- The pairs the writer writes. -/
def pairTexts (H : Host) (namespaces : Option (List Bytes)) (track : Option Bytes) :
    List (List Char) :=
  namespaces.toList.map (namespaceText H) ++ track.toList.map (trackText H)

theorem endpointText_iff {endpoint : String} :
    EndpointText endpoint ↔ ¬(endpoint.toList.contains '?' || endpoint.toList.contains '#' ||
      endpoint.toList.contains '/') = true := by
  simp only [EndpointText, List.mem_cons, List.not_mem_nil, or_false, Bool.or_eq_true,
    List.contains_iff_mem, not_or]
  constructor
  · intro h
    exact ⟨⟨fun hm => (h _ hm).1 rfl, fun hm => (h _ hm).2.1 rfl⟩, fun hm => (h _ hm).2.2 rfl⟩
  · rintro ⟨⟨h₁, h₂⟩, h₃⟩ c hc
    exact ⟨fun he => h₁ (he ▸ hc), fun he => h₂ (he ▸ hc), fun he => h₃ (he ▸ hc)⟩

section
variable {endpoint u : String} {namespaces : Option (List Bytes)} {track : Option Bytes}

/-- What the writer refuses: an endpoint with a delimiter, an empty namespace, and a track
    without one. -/
theorem constructMoqtUri_accepts (h : constructMoqtUri H endpoint namespaces track = .ok u) :
    EndpointText endpoint ∧ namespaces ≠ some [] ∧ (namespaces = none → track = none) := by
  rw [constructMoqtUri] at h
  by_cases hchars : (endpoint.toList.contains '?' || endpoint.toList.contains '#' ||
      endpoint.toList.contains '/') = true
  · rw [if_pos hchars] at h
    cases h
  · rw [if_neg hchars] at h
    refine ⟨endpointText_iff.mpr hchars, ?_, ?_⟩
    · rintro rfl
      cases h
    · rintro rfl
      cases track with
      | none => rfl
      | some t => cases h

theorem constructMoqtUri_written (hendpoint : EndpointText endpoint) (hne : namespaces ≠ some [])
    (ht : namespaces = none → track = none) :
    constructMoqtUri H endpoint namespaces track =
      .ok (String.ofList (resourceText endpoint.toList (pairTexts H namespaces track))) := by
  rw [constructMoqtUri, if_neg (endpointText_iff.mp hendpoint)]
  cases namespaces with
  | none =>
    obtain rfl := ht rfl
    have htext : resourceText endpoint.toList (pairTexts H none none) =
        "moqt://".toList ++ endpoint.toList :=
      congrArg ("moqt://".toList ++ ·) (List.append_nil _)
    rw [htext]
    rfl
  | some ns =>
    cases ns with
    | nil => exact absurd rfl hne
    | cons b ns =>
      cases track with
      | none =>
        have htext : resourceText endpoint.toList (pairTexts H (some (b :: ns)) none) =
            "moqt://".toList ++ endpoint.toList ++ "?tns=".toList ++
              [','].intercalate ((b :: ns).map fun seg => (H.base64Encode seg).toList) := by
          show "moqt://".toList ++ (endpoint.toList ++ queryText [namespaceText H (b :: ns)]) = _
          rw [queryText_one, List.append_assoc, List.append_assoc]
          rfl
        rw [htext]
        rfl
      | some t =>
        have htext : resourceText endpoint.toList (pairTexts H (some (b :: ns)) (some t)) =
            "moqt://".toList ++ endpoint.toList ++ "?tns=".toList ++
              [','].intercalate ((b :: ns).map fun seg => (H.base64Encode seg).toList) ++
              "&tn=".toList ++ (H.base64Encode t).toList := by
          show "moqt://".toList ++ (endpoint.toList ++
            queryText [namespaceText H (b :: ns), trackText H t]) = _
          rw [queryText_two, namespaceText, trackText]
          simp only [List.append_assoc]
          rfl
        rw [htext]
        rfl

/-- **What is written.** -/
theorem constructMoqtUri_eq_ok :
    constructMoqtUri H endpoint namespaces track = .ok u ↔
      EndpointText endpoint ∧ namespaces ≠ some [] ∧ (namespaces = none → track = none) ∧
        u.toList = resourceText endpoint.toList (pairTexts H namespaces track) := by
  constructor
  · intro h
    obtain ⟨hendpoint, hne, ht⟩ := constructMoqtUri_accepts h
    rw [constructMoqtUri_written hendpoint hne ht] at h
    obtain rfl := Except.ok.inj h
    exact ⟨hendpoint, hne, ht, String.toList_ofList⟩
  · rintro ⟨hendpoint, hne, ht, hu⟩
    rw [constructMoqtUri_written hendpoint hne ht, ← hu, String.ofList_toList]

end

/-! ## There and back

The two relations are compared. The reader takes the pairs in either order and the writer has
one; what else is different is listed in the theorem.
-/

theorem pairsOf_pairTexts {r : MoqtResourceUri} (hne : r.namespaces ≠ some [])
    (hone : r.namespaces ≠ some [[]]) (ht : r.namespaces = none → r.track = none) :
    PairsOf H r (pairTexts H r.namespaces r.track) := by
  obtain ⟨ep, namespaces, track⟩ := r
  cases namespaces with
  | none =>
    obtain rfl := ht rfl
    exact .inl ⟨rfl, rfl, rfl⟩
  | some ns =>
    refine .inr ⟨ns, rfl, fun h => hne (congrArg some h), fun h => hone (congrArg some h), ?_⟩
    cases track with
    | none => exact .inl ⟨rfl, rfl⟩
    | some t => exact .inr ⟨t, rfl, .inl rfl⟩

/-- A URI with its query starts with the track only if its first pair is the track. -/
theorem trackFirst_iff {u : String} {endpoint : List Char} {pairs : List (List Char)}
    (hmark : '?' ∉ endpoint) (h : u.toList = resourceText endpoint pairs) :
    trackFirst u = true ↔ pairs ≠ [] ∧ "tn=".toList <+: ['&'].intercalate pairs := by
  have hdrop : u.toList.drop 7 = endpoint ++ queryText pairs := by
    rw [h]
    rfl
  rw [trackFirst, hdrop, queryText]
  by_cases hnil : pairs = []
  · rw [if_pos hnil, List.append_nil, List.splitOnce_eq_none.mpr hmark]
    simp [hnil]
  · rw [if_neg hnil, List.splitOnce_append hmark]
    simp only [ne_eq, hnil, not_false_eq_true, true_and]
    exact List.isPrefixOf_iff_prefix

theorem not_track_namespaceText (ns : List Bytes) (rest : List Char) :
    ¬"tn=".toList <+: namespaceText H ns ++ rest := by
  rintro ⟨t, ht⟩
  have hthird := congrArg (fun cs => (cs.drop 2).head?) ht
  cases hthird

/-- **The pairs of an accepted URI** are those the writer writes, in one order or the other. -/
theorem pairs_of_accepted {u : String} {r : MoqtResourceUri} {pairs : List (List Char)}
    (hmark : '?' ∉ r.endpoint.toList) (hpairs : PairsOf H r pairs)
    (hu : u.toList = resourceText r.endpoint.toList pairs) :
    pairs = if trackFirst u then (pairTexts H r.namespaces r.track).reverse
      else pairTexts H r.namespaces r.track := by
  obtain ⟨ep, namespaces, track⟩ := r
  rcases hpairs with ⟨rfl, rfl, rfl⟩ | ⟨ns, rfl, -, -, ⟨rfl, rfl⟩ | ⟨t, rfl, rfl | rfl⟩⟩
  · exact (ite_self _).symm
  · exact (ite_self _).symm
  · rw [if_neg]
    · rfl
    · intro h
      have := ((trackFirst_iff hmark hu).mp h).2
      exact not_track_namespaceText ns ('&' :: trackText H t)
        (by simpa [List.intercalate] using this)
  · rw [if_pos]
    · rfl
    · refine (trackFirst_iff hmark hu).mpr ⟨by simp, ?_⟩
      rw [trackText, List.intercalate_cons_cons, List.append_assoc, List.append_assoc]
      exact List.prefix_append _ _

theorem PairsOf.written {r : MoqtResourceUri} {pairs : List (List Char)}
    (h : PairsOf H r pairs) :
    r.namespaces ≠ some [] ∧ (r.namespaces = none → r.track = none) := by
  rcases h with ⟨hnone, ht, -⟩ | ⟨ns, hns, hne, -⟩
  · exact ⟨by simp [hnone], fun _ => ht⟩
  · exact ⟨fun h => hne (Option.some.inj (hns.symm.trans h)), fun h => by cases hns.symm.trans h⟩

/-- The writer does not start with the track. -/
theorem not_trackFirst_pairTexts {namespaces : Option (List Bytes)} {track : Option Bytes}
    (halone : namespaces = none → track = none) :
    ¬(pairTexts H namespaces track ≠ [] ∧
      "tn=".toList <+: ['&'].intercalate (pairTexts H namespaces track)) := by
  rintro ⟨hne, hpre⟩
  cases namespaces with
  | none =>
    obtain rfl := halone rfl
    exact hne rfl
  | some ns =>
    cases track with
    | none =>
      exact not_track_namespaceText ns [] (by simpa [pairTexts, List.intercalate] using hpre)
    | some t =>
      exact not_track_namespaceText ns ('&' :: trackText H t)
        (by simpa [pairTexts, List.intercalate] using hpre)

/-- **Resource URIs are read back, and are written as they were read, up to three kinds.**

The parser takes the two members of the query in either order, and the constructor writes them in
one; the constructor takes an empty endpoint and the tuple of one empty name, and the parser takes
neither. -/
theorem resourceUri_inverse_iff (H : Host) (hb : Base64UrlLawful H) :
    (∀ endpoint namespaces track u,
      constructMoqtUri H endpoint namespaces track = .ok u →
        (parseMoqtResourceUri H u = .ok ⟨endpoint, namespaces, track⟩ ↔
          endpoint ≠ "" ∧ namespaces ≠ some [[]])) ∧
    (∀ u r, parseMoqtResourceUri H u = .ok r →
      (constructMoqtUri H r.endpoint r.namespaces r.track = .ok u ↔ trackFirst u = false)) ∧
    ∀ u u' r, parseMoqtResourceUri H u = .ok r → parseMoqtResourceUri H u' = .ok r →
      (u = u' ↔ trackFirst u = trackFirst u') := by
  refine ⟨?_, ?_, ?_⟩
  · intro endpoint namespaces track u h
    obtain ⟨htext, hnil, ht, hu⟩ := constructMoqtUri_eq_ok.mp h
    rw [parseMoqtResourceUri_eq_ok hb]
    constructor
    · rintro ⟨hne, -, pairs, hpairs, -⟩
      refine ⟨hne, fun hone => ?_⟩
      rcases hpairs with ⟨hnone, -⟩ | ⟨ns, hns, -, hns', -⟩
      · cases hnone.symm.trans hone
      · exact hns' (Option.some.inj (hns.symm.trans hone))
    · rintro ⟨hne, hone⟩
      exact ⟨hne, htext, _, pairsOf_pairTexts hnil hone ht, hu⟩
  · intro u r h
    obtain ⟨-, htext, pairs, hpairs, hu⟩ := (parseMoqtResourceUri_eq_ok hb).mp h
    have hmark : '?' ∉ r.endpoint.toList := fun hmem => htext _ hmem (by decide)
    obtain ⟨hnil, halone⟩ := hpairs.written
    constructor
    · intro hwritten
      obtain ⟨-, -, -, hu'⟩ := constructMoqtUri_eq_ok.mp hwritten
      exact Bool.eq_false_iff.mpr fun hfirst =>
        not_trackFirst_pairTexts halone ((trackFirst_iff hmark hu').mp hfirst)
    · intro hfirst
      have hwritten := pairs_of_accepted hmark hpairs hu
      rw [hfirst, if_neg Bool.false_ne_true] at hwritten
      exact constructMoqtUri_eq_ok.mpr ⟨htext, hnil, halone, hwritten ▸ hu⟩
  · intro u u' r h h'
    obtain ⟨-, htext, pairs, hpairs, hu⟩ := (parseMoqtResourceUri_eq_ok hb).mp h
    obtain ⟨-, -, pairs', hpairs', hu'⟩ := (parseMoqtResourceUri_eq_ok hb).mp h'
    have hmark : '?' ∉ r.endpoint.toList := fun hmem => htext _ hmem (by decide)
    constructor
    · exact congrArg trackFirst
    · intro hfirst
      rw [pairs_of_accepted hmark hpairs hu, hfirst, ← pairs_of_accepted hmark hpairs' hu',
        ← hu'] at hu
      exact String.toList_inj.mp hu

theorem reference_base64url : Base64UrlLawful .reference where
  toBase64Lawful := base64Lawful_of_reference (fun _ => rfl) (fun _ => rfl)
  alphabet b c hc := by
    have hc : c ∈ (String.ofList (Base64.encode b)).toList := hc
    rw [String.toList_ofList] at hc
    exact Base64.mem_alphabet hc
  empty := rfl

theorem resourceUri_inverse_iff_reference :
    parseMoqtResourceUri .reference "moqt://relay?tns=YQ,Yg&tn=dA" =
      .ok ⟨"relay", some [[0x61], [0x62]], some [0x74]⟩ :=
  (((resourceUri_inverse_iff .reference reference_base64url).1 "relay"
    (some [[0x61], [0x62]]) (some [0x74]) "moqt://relay?tns=YQ,Yg&tn=dA"
    (by decide +kernel)).mpr ⟨by decide, by decide⟩)

/-- The track before the tuple is accepted and written the other way round; what is written
for no endpoint, or for the tuple of the empty name, is not accepted. -/
theorem resourceUri_not_inverse :
    (parseMoqtResourceUri .reference "moqt://h?tn=dA&tns=YQ" =
        .ok ⟨"h", some [[0x61]], some [0x74]⟩ ∧
      constructMoqtUri .reference "h" (some [[0x61]]) (some [0x74]) =
        .ok "moqt://h?tns=YQ&tn=dA") ∧
    (constructMoqtUri .reference "" none none = .ok "moqt://" ∧
      (parseMoqtResourceUri .reference "moqt://").isOk = false) ∧
    constructMoqtUri .reference "h" (some [[]]) none = .ok "moqt://h?tns=" ∧
      (parseMoqtResourceUri .reference "moqt://h?tns=").isOk = false := by
  decide +kernel

end Cat
