import Cat.Cwt.DecodeSpec
import Cat.Moqt.Mediation

/-!
# Empty lists on the wire

Six claims are disjunctions over a list. Each is followed here from the items of its value in
the payload, over the decoded token, to the guard that judges it. `ListClaim` says how a claim
is read and judged, so that there is one argument for all of them.

Where the decoder keeps an empty list the guard passes it over, and where the guard would refuse
it the decoder has dropped it: an empty `catnip` or geographic list lifts its restriction
(`authorizeCall_failsClosed`). `catm` and `catalpn` do fail closed.

Read as a disjunction, an empty list is false, and a token with one permits nothing. Whether an
issuer means that by it is another question. The decoder and the guards were written apart, and
their ways of treating the empty list only matter in combination; this is why the claim is
followed all the way, and why no statement about either half is enough.

The statement is for any list: an item of it matches the request, or the list is empty and is
one of the four kinds. The two payloads at the end differ in one item.
-/

set_option autoImplicit false

namespace Cat

open Cbor

/-- The claims that are disjunctions. -/
inductive ListClaim where
  | catnip
  | catm
  | catalpn
  | catgeoiso3166
  | catgeocoord
  | geohash
  deriving DecidableEq

namespace ListClaim

def label : ListClaim → Int64
  | catnip => claimCatnip
  | catm => claimCatm
  | catalpn => claimCatalpn
  | catgeoiso3166 => claimCatgeoiso3166
  | catgeocoord => claimCatgeocoord
  | geohash => claimGeohash

/-- What a decoded list consists of. -/
def Elem : ListClaim → Type
  | catnip => NetworkIdentifier
  | catm | catgeoiso3166 | geohash => String
  | catalpn => Bytes
  | catgeocoord => GeoCoordinate

def get (cat : CatClaims) : (c : ListClaim) → Option (List c.Elem)
  | catnip => cat.catnip
  | catm => cat.catm
  | catalpn => cat.catalpn
  | catgeoiso3166 => cat.catgeoiso3166
  | catgeocoord => cat.catgeocoord
  | geohash => cat.geohash

/-- The items of a value on the wire. A single geohash may stand for a list of one. -/
def items (c : ListClaim) (value : Value) : Option (List Value) :=
  match c with
  | catnip | catm | catalpn | catgeoiso3166 =>
    match value with
    | .array items => some items
    | _ => none
  | catgeocoord =>
    match unwrapCrsTag value with
    | .ok (.array items) => some items
    | _ => none
  | geohash =>
    match unwrapCrsTag value with
    | .ok (.text s) => some [.text s]
    | .ok (.array items) => some items
    | _ => none

/-- The claims whose empty list the decoder drops. -/
def dropsEmpty : ListClaim → Bool
  | catgeocoord | geohash => true
  | catnip | catm | catalpn | catgeoiso3166 => false

/-- The claims whose empty list restricts nothing: it is dropped, or the guard skips it. -/
def liftedByEmpty : ListClaim → Bool
  | catnip | catgeoiso3166 | catgeocoord | geohash => true
  | catm | catalpn => false

section
variable (H : Host) (limits : CwtLimits)

/-- What an item says. -/
def Reads : (c : ListClaim) → Value → c.Elem → Prop
  | catnip, item, n => decodeNetworkIdentifier item = .ok n
  | catm, item, s | catgeoiso3166, item, s | geohash, item, s => item = .text s
  | catalpn, item, b => item = .bytes b
  | catgeocoord, item, zone => ∃ s s', decodeZone H limits item s = .ok (zone, s')

variable {H}

/-- What a request is compared with. -/
def Accepts (ctx : RelayRequestContext H) : (c : ListClaim) → c.Elem → Prop
  | catnip, n => n.matchesPeer ctx.peerIp ctx.peerAsn = true
  | catm, method => ctx.requestMethod = some method
  | catalpn, alpn => ctx.peerTlsAlpn = some alpn
  | catgeoiso3166, code => InCountry ctx.peerLocation code
  | catgeocoord, zone => InZone H ctx.peerLocation zone
  | geohash, g => InGeohash ctx.peerLocation g

/-- The list of the value is not empty, and an item of it matches the request. -/
def SomeItemMatches (c : ListClaim) (value : Value) (ctx : RelayRequestContext H) : Prop :=
  ∃ items, c.items value = some items ∧
    ∃ item ∈ items, ∃ e, c.Reads H limits item e ∧ c.Accepts ctx e

end

/-! ## The decoder

For each of the six claims, what its items on the wire are and what list the token has of them.
The decoders are loops of different kinds, and this is the last place where it matters.
-/

/-- The claim of a token is the list its items say, or absent where no items are dropped. -/
def DecodedFrom {α : Type} (drops : Bool) (R : Value → α → Prop) (items : List Value)
    (claim : Option (List α)) : Prop :=
  ∃ list, List.Forall₂ R items list ∧
    (claim = some list ∨ drops = true ∧ list = [] ∧ claim = none)

variable {α : Type} {drops : Bool} {R : Value → α → Prop} {items : List Value}
  {claim : Option (List α)} {Matches : α → Prop}

/-- A claim that is met has a matching item, if its guard saw any. -/
theorem DecodedFrom.some_matches (h : DecodedFrom drops R items claim)
    (hany : AnyOf Matches (nonempty? claim)) (hne : items ≠ []) :
    ∃ item ∈ items, ∃ e, R item e ∧ Matches e := by
  obtain ⟨list, hitems, hclaim⟩ := h
  have hlist : list ≠ [] := by
    rintro rfl
    exact hne (List.forall₂_nil_right_iff.mp hitems)
  rcases hclaim with hsome | ⟨-, rfl, -⟩
  · obtain ⟨e, he, hmatches⟩ := hany list (nonempty?_eq_some.mpr ⟨hsome, hlist⟩)
    obtain ⟨item, hitem, hreads⟩ := hitems.exists_of_mem_right he
    exact ⟨item, hitem, e, hreads, hmatches⟩
  · exact absurd rfl hlist

/-- Where the decoder drops nothing, a disjunction that is met was not empty. -/
theorem DecodedFrom.ne_nil (h : DecodedFrom false R items claim) (hany : AnyOf Matches claim) :
    items ≠ [] := by
  obtain ⟨list, hitems, hclaim⟩ := h
  rcases hclaim with rfl | ⟨hfalse, -⟩
  · rintro rfl
    obtain rfl := List.forall₂_nil_left_iff.mp hitems
    exact hany.listsSome rfl
  · exact absurd hfalse (by simp)

end ListClaim

section
variable {H : Host} {limits : CwtLimits} {composite : CompositeDecoder} {value : Value}
  {s s' : DecodeCounters}

theorem decodeCatnip_ok {ns : List NetworkIdentifier}
    (h : decodeCatnip limits value s = .ok (ns, s')) :
    ∃ items, value = .array items ∧
      List.Forall₂ (fun item n => decodeNetworkIdentifier item = .ok n) items ns := by
  unfold decodeCatnip at h
  obtain ⟨_, _, -, h⟩ := StateT.bind_eq_ok.mp h
  split at h
  · obtain ⟨-, h⟩ := StateT.guard_eq_ok.mp h
    refine ⟨_, rfl, (StateT.mapM'_ok h).imp fun item n hn => ?_⟩
    obtain ⟨_, _, hn⟩ := hn
    obtain ⟨_, _, -, hn⟩ := StateT.bind_eq_ok.mp hn
    exact (StateT.lift_eq_ok.mp hn).1
  · exact absurd h StateT.throw_ne_ok

/-- An array of counted texts. -/
theorem decodeCountedText_ok {wrongItem : String} {items : List Value} {ts : List String}
    (h : items.mapM' (decodeCountedText limits wrongItem) s = .ok (ts, s')) :
    List.Forall₂ (fun item t => item = .text t) items ts := by
  refine (StateT.mapM'_ok h).imp fun item t ht => ?_
  obtain ⟨_, _, ht⟩ := ht
  obtain ⟨_, _, -, ht⟩ := StateT.bind_eq_ok.mp ht
  split at ht
  · rw [(StateT.pure_eq_ok.mp ht).1]
  · exact absurd ht StateT.throw_ne_ok

theorem decodeCatm_ok {ms : List String} (h : decodeCatm limits value s = .ok (ms, s')) :
    ∃ items, value = .array items ∧ List.Forall₂ (fun item m => item = .text m) items ms := by
  unfold decodeCatm at h
  obtain ⟨_, _, -, h⟩ := StateT.bind_eq_ok.mp h
  split at h
  · obtain ⟨-, h⟩ := StateT.guard_eq_ok.mp h
    exact ⟨_, rfl, decodeCountedText_ok h⟩
  · exact absurd h StateT.throw_ne_ok

theorem decodeCatalpn_ok {as : List Bytes} (h : decodeCatalpn limits value s = .ok (as, s')) :
    ∃ items, value = .array items ∧ List.Forall₂ (fun item a => item = .bytes a) items as := by
  unfold decodeCatalpn at h
  obtain ⟨_, _, -, h⟩ := StateT.bind_eq_ok.mp h
  split at h
  · obtain ⟨-, h⟩ := StateT.guard_eq_ok.mp h
    refine ⟨_, rfl, (StateT.mapM'_ok h).imp fun item a ha => ?_⟩
    obtain ⟨_, _, ha⟩ := ha
    obtain ⟨_, _, -, ha⟩ := StateT.bind_eq_ok.mp ha
    split at ha
    · rw [(StateT.pure_eq_ok.mp ha).1]
    · exact absurd ha StateT.throw_ne_ok
  · exact absurd h StateT.throw_ne_ok

theorem decodeCatgeoiso3166_ok {cs : List String}
    (h : decodeCatgeoiso3166 limits value s = .ok (cs, s')) :
    ∃ items, value = .array items ∧ List.Forall₂ (fun item c => item = .text c) items cs := by
  unfold decodeCatgeoiso3166 at h
  obtain ⟨_, _, -, h⟩ := StateT.bind_eq_ok.mp h
  split at h
  · exact ⟨_, rfl, decodeCountedText_ok h⟩
  · exact absurd h StateT.throw_ne_ok

/-- The list that is kept, or an empty one that is dropped. -/
theorem droppedEmpty {α : Type} (list : List α) :
    (if list.isEmpty then none else some list) = some list ∨
      true = true ∧ list = [] ∧ (if list.isEmpty then none else some list) = none := by
  cases list with
  | nil => exact .inr ⟨rfl, rfl, rfl⟩
  | cons a as => exact .inl rfl

theorem decodeCatgeocoord_ok {zones : Option (List GeoCoordinate)}
    (h : decodeCatgeocoord H limits value s = .ok (zones, s')) :
    ∃ items, unwrapCrsTag value = .ok (.array items) ∧
      ListClaim.DecodedFrom true
        (fun item zone => ∃ s s', decodeZone H limits item s = .ok (zone, s')) items zones := by
  unfold decodeCatgeocoord at h
  obtain ⟨v, _, hv, h⟩ := StateT.bind_eq_ok.mp h
  split at h
  · obtain ⟨coords, _, hcoords, h⟩ := StateT.bind_eq_ok.mp h
    obtain ⟨rfl, -⟩ := StateT.pure_eq_ok.mp h
    exact ⟨_, (StateT.lift_eq_ok.mp hv).1, coords, StateT.mapM'_ok hcoords, droppedEmpty coords⟩
  · exact absurd h StateT.throw_ne_ok

theorem decodeTexts_ok {e : CatError} {items : List Value} :
    ∀ {ts : List String}, decodeTexts e items = .ok ts →
      List.Forall₂ (fun item t => item = .text t) items ts := by
  induction items with
  | nil =>
    intro ts h
    obtain rfl := Except.ok.inj h
    exact .nil
  | cons item items ih =>
    intro ts h
    cases item with
    | text t =>
      obtain ⟨ts', hts', rfl⟩ := Except.map_eq_ok.mp h
      exact .cons rfl (ih hts')
    | _ => exact absurd h (by simp [decodeTexts])

theorem decodeGeohash_ok {hashes : Option (List String)}
    (h : decodeGeohash value s = .ok (hashes, s')) :
    ∃ items, ListClaim.geohash.items value = some items ∧
      ListClaim.DecodedFrom true (fun item t => item = .text t) items hashes := by
  unfold decodeGeohash at h
  obtain ⟨v, _, hv, h⟩ := StateT.bind_eq_ok.mp h
  have hunwrap := (StateT.lift_eq_ok.mp hv).1
  split at h
  · rename_i t
    obtain ⟨rfl, -⟩ := StateT.pure_eq_ok.mp h
    exact ⟨[.text t], by rw [ListClaim.items, hunwrap], [t], .cons rfl .nil, .inl rfl⟩
  · rename_i items
    obtain ⟨ts, _, hts, h⟩ := StateT.bind_eq_ok.mp h
    obtain ⟨rfl, -⟩ := StateT.pure_eq_ok.mp h
    exact ⟨items, by rw [ListClaim.items, hunwrap], ts,
      decodeTexts_ok (StateT.lift_eq_ok.mp hts).1, droppedEmpty ts⟩
  · exact absurd h StateT.throw_ne_ok

/-- A list claim in the payload: its items, and what the token has of them. -/
theorem DecodesTo.listClaim {b : Bytes} {es : List (Value × Value)} {ds : List DecodedClaim}
    {t : CatToken} (h : DecodesTo H limits composite b es ds t) (c : ListClaim)
    (he : (i64Value c.label, value) ∈ es) :
    ∃ items, c.items value = some items ∧
      ListClaim.DecodedFrom c.dropsEmpty (c.Reads H limits) items (c.get t.cat) := by
  obtain ⟨d, hd, hlabel, n, s, s', hdec⟩ := h.mem_claims he
  have hother (t : CatToken) (d : DecodedClaim) (hne : d.label ≠ c.label) :
      c.get (t.assign d).cat = c.get t.cat := by
    unfold CatToken.assign
    cases c <;> split <;> first | rfl | exact absurd rfl hne
  obtain ⟨t₀, h₀, ht⟩ := h.assigned (fun t => c.get t.cat) hother hd hlabel
  rw [show c.get t.cat = _ from ht]
  unfold decodeClaim at hdec
  cases c with
  | catnip =>
    iterate 8 rw [if_neg (by decide)] at hdec
    rw [if_pos (by decide)] at hdec
    obtain ⟨ns, _, hns, hp⟩ := StateT.bind_eq_ok.mp hdec
    obtain ⟨rfl, -⟩ := StateT.pure_eq_ok.mp hp
    obtain ⟨items, rfl, hitems⟩ := decodeCatnip_ok hns
    exact ⟨items, rfl, ns, hitems, .inl rfl⟩
  | catm =>
    iterate 10 rw [if_neg (by decide)] at hdec
    rw [if_pos (by decide)] at hdec
    obtain ⟨ms, _, hms, hp⟩ := StateT.bind_eq_ok.mp hdec
    obtain ⟨rfl, -⟩ := StateT.pure_eq_ok.mp hp
    obtain ⟨items, rfl, hitems⟩ := decodeCatm_ok hms
    exact ⟨items, rfl, ms, hitems, .inl rfl⟩
  | catalpn =>
    iterate 11 rw [if_neg (by decide)] at hdec
    rw [if_pos (by decide)] at hdec
    obtain ⟨as, _, has, hp⟩ := StateT.bind_eq_ok.mp hdec
    obtain ⟨rfl, -⟩ := StateT.pure_eq_ok.mp hp
    obtain ⟨items, rfl, hitems⟩ := decodeCatalpn_ok has
    exact ⟨items, rfl, as, hitems, .inl rfl⟩
  | catgeoiso3166 =>
    iterate 13 rw [if_neg (by decide)] at hdec
    rw [if_pos (by decide)] at hdec
    obtain ⟨cs, _, hcs, hp⟩ := StateT.bind_eq_ok.mp hdec
    obtain ⟨rfl, -⟩ := StateT.pure_eq_ok.mp hp
    obtain ⟨items, rfl, hitems⟩ := decodeCatgeoiso3166_ok hcs
    exact ⟨items, rfl, cs, hitems, .inl rfl⟩
  | catgeocoord =>
    iterate 14 rw [if_neg (by decide)] at hdec
    rw [if_pos (by decide)] at hdec
    obtain ⟨zones, _, hzones, hp⟩ := StateT.bind_eq_ok.mp hdec
    obtain ⟨rfl, -⟩ := StateT.pure_eq_ok.mp hp
    obtain ⟨items, hv, hitems⟩ := decodeCatgeocoord_ok hzones
    refine ⟨items, by rw [ListClaim.items, hv], ?_⟩
    cases zones with
    | none =>
      show ListClaim.DecodedFrom true _ items (ListClaim.get t₀.cat .catgeocoord)
      rw [h₀]
      exact hitems
    | some zones => exact hitems
  | geohash =>
    iterate 15 rw [if_neg (by decide)] at hdec
    rw [if_pos (by decide)] at hdec
    obtain ⟨hashes, _, hhashes, hp⟩ := StateT.bind_eq_ok.mp hdec
    obtain ⟨rfl, -⟩ := StateT.pure_eq_ok.mp hp
    obtain ⟨items, hv, hitems⟩ := decodeGeohash_ok hhashes
    refine ⟨items, hv, ?_⟩
    cases hashes with
    | none =>
      show ListClaim.DecodedFrom true _ items (ListClaim.get t₀.cat .geohash)
      rw [h₀]
      exact hitems
    | some hashes => exact hitems

end

/-! ## The guard

A guard that judged the list has found an item that matches. Whether it judged an empty one
depends on the claim.
-/

section
variable {H : Host} {σ γ : Type}

theorem AnyOf.nonempty? {α : Type} {Matches : α → Prop} {claim : Option (List α)}
    (h : AnyOf Matches claim) : AnyOf Matches (nonempty? claim) :=
  fun list hlist => h list (nonempty?_eq_some.mp hlist).1

/-- Every list that is not empty is compared with the request. -/
theorem RestrictionsMet.listClaim {cat : CatClaims} {ctx : RelayRequestContext H}
    (h : RestrictionsMet cat.judged ctx) (c : ListClaim) :
    AnyOf (c.Accepts ctx) (nonempty? (c.get cat)) := by
  cases c with
  | catnip => exact h.catnip
  | catm => exact h.catm.nonempty?
  | catalpn => exact h.catalpn.nonempty?
  | catgeoiso3166 => exact h.catgeoiso3166
  | catgeocoord => exact h.catgeocoord
  | geohash => exact h.geohash

variable {v : MoqtValidator σ} {guard : Option (ReplayGuard γ)} {env : Ambient}
  {token : ValidatedToken} {ctx : RelayRequestContext H} {st : RelayStores σ γ}
  {r : AuthorizedRequest} {limits : CwtLimits} {b : Bytes} {es : List (Value × Value)}

/-- **Which lists fail closed.** Of an authorized token's payload, every list has an item
    that matches the request, but for the empty lists of four of the claims.

    Lists of methods and of protocols are refused when they are empty, because nothing is in them.
    The lists of networks and of countries are skipped, and of the two geometries there is nothing
    left after decoding: an empty list becomes an absent claim. This is why the statement starts at
    the entries of the payload; over decoded tokens the last two could not be said. -/
theorem authorizeCall_failsClosed
    (hread : H.cbor.read cborMaxRecursionDepth b = .ok (.map es, []))
    (hdec : decodePayloadWithLimits H limits b = .ok token.claims)
    (h : (v.authorizeCall guard env token ctx st).1 = .ok r) :
    (∀ (c : ListClaim) (value : Value), (i64Value c.label, value) ∈ es →
        c.SomeItemMatches limits value ctx) ↔
      ∀ (c : ListClaim) (value : Value), c.liftedByEmpty = true → (i64Value c.label, value) ∈ es →
        c.items value ≠ some [] := by
  constructor
  · intro hmatches c value _ he hempty
    obtain ⟨items, hitems, item, hitem, -⟩ := hmatches c value he
    obtain rfl := Option.some.inj (hempty.symm.trans hitems)
    exact absurd hitem List.not_mem_nil
  · intro hnonempty c value he
    obtain ⟨es', ds, hdecodes⟩ := decodePayloadWithLimits_ok hdec
    obtain rfl : es' = es := by simpa using hdecodes.read_eq.symm.trans hread
    obtain ⟨items, hitems, hfrom⟩ := hdecodes.listClaim c he
    obtain ⟨pre, hpre, -⟩ := MoqtValidator.authorizeCall_ok h
    have hjudged := MoqtValidator.checkRestrictions_ok (MoqtValidator.authorizePrecommit_ok hpre).1
    refine ⟨items, hitems, hfrom.some_matches (hjudged.listClaim c) fun hempty => ?_⟩
    cases hc : c.liftedByEmpty with
    | true => exact hnonempty c value hc he (hempty ▸ hitems)
    | false =>
      cases c with
      | catm => exact hfrom.ne_nil hjudged.catm hempty
      | catalpn => exact hfrom.ne_nil hjudged.catalpn hempty
      | _ => exact absurd hc (by simp [ListClaim.liftedByEmpty])

end

/-! ### A network, and no network -/

/-- `{3: ["relay"], 311: [64512], 313: ["GET"], 327: [[[0]]]}`. -/
def networkPayload : Bytes :=
  [0xa4, 0x03, 0x81, 0x65, 0x72, 0x65, 0x6c, 0x61, 0x79, 0x19, 0x01, 0x37, 0x81, 0x19, 0xfc, 0x00,
    0x19, 0x01, 0x39, 0x81, 0x63, 0x47, 0x45, 0x54, 0x19, 0x01, 0x47, 0x81, 0x81, 0x81, 0x00]

def networkEntries : List (Value × Value) :=
  [(i64Value claimAud, .array [.text "relay"]), (i64Value claimCatnip, .array [u32Value 64512]),
    (i64Value claimCatm, .array [.text "GET"]),
    (i64Value claimMoqt, .array [.array [.array [i64Value 0]]])]

/-- `{3: ["relay"], 311: [], 327: [[[0]]]}`. -/
def noNetworkPayload : Bytes :=
  [0xa3, 0x03, 0x81, 0x65, 0x72, 0x65, 0x6c, 0x61, 0x79, 0x19, 0x01, 0x37, 0x80, 0x19, 0x01, 0x47,
    0x81, 0x81, 0x81, 0x00]

def noNetworkEntries : List (Value × Value) :=
  [(i64Value claimAud, .array [.text "relay"]), (i64Value claimCatnip, .array []),
    (i64Value claimMoqt, .array [.array [.array [i64Value 0]]])]

def networkToken : ValidatedToken :=
  sampleValidated (setupToken { catnip := some [.asn 64512], catm := some ["GET"] } none)
    (by decide +kernel)

def noNetworkToken : ValidatedToken :=
  sampleValidated (setupToken { catnip := some [] } none) (by decide +kernel)

set_option maxRecDepth 100000 in
theorem authorizeCall_failsClosed_networkPayload :
    (∀ (c : ListClaim) (value : Value), (i64Value c.label, value) ∈ networkEntries →
        c.SomeItemMatches .default value setupContext) ↔
      ∀ (c : ListClaim) (value : Value), c.liftedByEmpty = true →
        (i64Value c.label, value) ∈ networkEntries → c.items value ≠ some [] := by
  have hread : Host.reference.cbor.read cborMaxRecursionDepth networkPayload =
      .ok (.map networkEntries, []) := rfl
  have hdec : decodePayloadWithLimits .reference .default networkPayload =
      .ok networkToken.claims := rfl
  have hcall : (({} : MoqtValidator Unit).authorizeCall (some .ofList) sampleAmbient networkToken
      setupContext sampleStores).1 = .ok { matchedScopeIndex := 0 } := by decide +kernel
  exact authorizeCall_failsClosed hread hdec hcall

set_option maxRecDepth 100000 in
/-- The decoder keeps the empty list, and the guard skips it. -/
theorem authorizeCall_not_failsClosed :
    ¬∀ (H : Host) (σ γ : Type) (v : MoqtValidator σ) (guard : Option (ReplayGuard γ))
      (env : Ambient) (token : ValidatedToken) (ctx : RelayRequestContext H)
      (st : RelayStores σ γ) (r : AuthorizedRequest) (limits : CwtLimits) (b : Bytes)
      (es : List (Value × Value)),
      H.cbor.read cborMaxRecursionDepth b = .ok (.map es, []) →
      decodePayloadWithLimits H limits b = .ok token.claims →
      (v.authorizeCall guard env token ctx st).1 = .ok r →
      ∀ (c : ListClaim) (value : Value), (i64Value c.label, value) ∈ es →
        c.SomeItemMatches limits value ctx := by
  intro h
  have hread : Host.reference.cbor.read cborMaxRecursionDepth noNetworkPayload =
      .ok (.map noNetworkEntries, []) := rfl
  have hdec : decodePayloadWithLimits .reference .default noNetworkPayload =
      .ok noNetworkToken.claims := rfl
  have hcall : (({} : MoqtValidator Unit).authorizeCall (some .ofList) sampleAmbient
      noNetworkToken setupContext sampleStores).1 = .ok { matchedScopeIndex := 0 } := by
    decide +kernel
  obtain ⟨items, hitems, item, hitem, -⟩ := h _ _ _ _ _ _ _ _ _ _ _ _ _ hread hdec hcall .catnip
    (.array []) (List.mem_cons_of_mem _ List.mem_cons_self)
  obtain rfl : [] = items := Option.some.inj hitems
  exact absurd hitem List.not_mem_nil

end Cat
