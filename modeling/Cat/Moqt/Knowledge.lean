import Cat.Moqt.Admission
import Cat.Moqt.Mediation

/-!
# What a relay knows about a request

A field of the request context that is not set is unknown. A relay that does not terminate TLS
has no ALPN to give, one behind a proxy may have no address of the peer, and which fields a
deployment can fill is not for the crate to know. Two things follow from how the guards read
such a context.

A field that no claim of the token is about plays no part, in no run of any calls
(`RelayCall.run_relevant`): the context may be cut down to what the token asks for
(`relevantTo`) and every step of every interleaving stays the same. And where a request is
authorized, learning more about it changes nothing (`RelayCall.run_of_knownIn`): no unknown
field was taken for a match, and none that becomes known takes the authorization back.

The second is a monotonicity, and what it rests on is that every guard asks for a match and none
for the absence of one. `Fills` is the order on one field and `KnownIn` on a request. Headers
are ordered by prefix and not by inclusion, since the guard judges the first header of a name,
and a nonce is not ordered at all: it is a demand of the relay's.

Several guards test for emptiness and presence on their way. They are first shown to be the
disjunctions they stand for (`enforceCatnip_iff`, `enforceGeo_iff`), which are monotone by
inspection.
-/

set_option autoImplicit false

namespace Cat

open Cbor

namespace Except

variable {ε α : Type} {p : Prop} [Decidable p] {e : ε} {x : Except ε α} {a : α}

theorem ite_error_eq_ok : (if p then .error e else x) = .ok a ↔ ¬p ∧ x = .ok a := by
  by_cases hp : p
  · simp [hp]
  · simp [hp]

theorem ite_ok_eq_ok {u u' : Unit} :
    (if p then .ok u else .error e : Except ε Unit) = .ok u' ↔ p := by
  by_cases hp : p
  · simp [hp]
  · simp [hp]

end Except

/-! ## Knowing more

A context is compared with one that has the same request and leaves less open. Headers are an
order of their own: more of them may follow, but those that are known come first, since the
guard looks at the first of a name.
-/

/-- What is known on the left is known on the right. -/
def Fills {α : Type} (o o' : Option α) : Prop := ∀ a ∈ o, o' = some a

theorem Fills.refl {α : Type} (o : Option α) : Fills o o := fun _ ha => ha

theorem Fills.unknown {α : Type} (o : Option α) : Fills none o := fun _ ha => absurd ha (by simp)

/-- A field that is known on the left is known on the right. -/
theorem Fills.isSome {α : Type} {o o' : Option α} (h : Fills o o') (hsome : o.isSome) :
    o'.isSome := by
  obtain ⟨a, ha⟩ := Option.isSome_iff_exists.mp hsome
  rw [h a ha]
  rfl

structure RequestLocation.KnownIn (l l' : RequestLocation) : Prop where
  latitude : Fills l.latitude l'.latitude
  longitude : Fills l.longitude l'.longitude
  countryCode : Fills l.countryCode l'.countryCode
  subdivisionCode : Fills l.subdivisionCode l'.subdivisionCode
  geohash : Fills l.geohash l'.geohash

/-- The same request, known at least as well. Headers are seen in order. A nonce is no knowledge
    about the request but a demand of the relay's, and is not added. -/
structure RelayRequestContext.KnownIn {H : Host} (ctx ctx' : RelayRequestContext H) : Prop where
  relayEndpoint : ctx'.relayEndpoint = ctx.relayEndpoint
  action : ctx'.action = ctx.action
  namespaces : ctx'.namespaces = ctx.namespaces
  track : ctx'.track = ctx.track
  peerTlsAlpn : Fills ctx.peerTlsAlpn ctx'.peerTlsAlpn
  peerIp : Fills ctx.peerIp ctx'.peerIp
  peerAsn : Fills ctx.peerAsn ctx'.peerAsn
  requestUri : Fills ctx.requestUri ctx'.requestUri
  requestMethod : Fills ctx.requestMethod ctx'.requestMethod
  requestHeaders : ctx.requestHeaders <+: ctx'.requestHeaders
  dpopProof : Fills ctx.dpopProof ctx'.dpopProof
  expectedDpopNonce : Fills ctx'.expectedDpopNonce ctx.expectedDpopNonce
  peerLocation : ∀ l ∈ ctx.peerLocation, ∃ l' ∈ ctx'.peerLocation, l.KnownIn l'

/-! ## The guards, knowing more

Each guard wants something to be known and to match. It keeps its verdict if it passed, because
what it looked at has not changed. A guard that refuses may do so for what it does not know, and
nothing is said of it.
-/

section
variable {H : Host} {t : CatToken} {u : Unit}

theorem AnyOf.imp {α : Type} {P Q : α → Prop} {claim : Option (List α)} (h : AnyOf P claim)
    (hPQ : ∀ a, P a → Q a) : AnyOf Q claim :=
  fun list hlist => (h list hlist).imp fun a ha => ⟨ha.1, hPQ a ha.2⟩

theorem AnyOf.of_listed {α : Type} {claim : Option (List α)} {list : List α} {a : α}
    (hclaim : claim = some list) (ha : a ∈ list) : AnyOf (some a = some ·) claim := by
  intro list' hlist'
  obtain rfl := Option.some.inj (hclaim.symm.trans hlist')
  exact ⟨a, ha, rfl⟩

/-- The first header of a name stays the first one when others come after it. -/
theorem CathMet.of_longer {rules : List HeaderMatchRule} {headers headers' : List (String × String)}
    (hle : headers <+: headers') (h : CathMet H rules headers) : CathMet H rules headers' := by
  obtain ⟨more, rfl⟩ := hle
  intro rule hrule
  obtain ⟨header, hfind, hmatch⟩ := h rule hrule
  refine ⟨header, ?_, hmatch⟩
  rw [List.find?_append, hfind]
  rfl

theorem NetworkIdentifier.matchesPeer_of_fills {n : NetworkIdentifier} {ip ip' : Option IpAddr}
    {asn asn' : Option UInt32} (hip : Fills ip ip') (hasn : Fills asn asn')
    (h : n.matchesPeer ip asn = true) : n.matchesPeer ip' asn' = true := by
  unfold matchesPeer at h ⊢
  rw [Bool.or_eq_true] at h ⊢
  refine h.imp (fun h => ?_) (fun h => ?_)
  · cases hsome : ip with
    | none =>
      rw [hsome] at h
      exact absurd h Bool.false_ne_true
    | some a =>
      rw [hsome] at h
      rw [hip a hsome]
      exact h
  · cases hsome : asn with
    | none =>
      rw [hsome] at h
      exact absurd h Bool.false_ne_true
    | some a =>
      rw [hsome] at h
      rw [hasn a hsome]
      exact h

/-- A list of networks that has an element asks for what its elements are about, and for a match. -/
theorem enforceCatnip_iff {ip : Option IpAddr} {asn : Option UInt32} :
    enforceCatnip t ip asn = .ok u ↔ ∀ nips ∈ nonempty? t.cat.catnip,
      (nips.any (·.isIpBased) = true → ip.isSome) ∧ (nips.any (·.isAsnBased) = true → asn.isSome) ∧
        nips.any (·.matchesPeer ip asn) = true := by
  unfold enforceCatnip
  cases hclaim : t.cat.catnip with
  | none => exact iff_of_true rfl (by simp [nonempty?])
  | some nips =>
    cases nips with
    | nil => exact iff_of_true rfl (by simp [nonempty?])
    | cons n nips =>
      have hlist : nonempty? (some (n :: nips)) = some (n :: nips) := rfl
      simp only [hlist, Option.mem_def, Option.some.injEq, forall_eq']
      rw [if_neg (by simp), Except.ite_error_eq_ok, Except.ite_error_eq_ok, Except.ite_ok_eq_ok,
        Bool.and_eq_true, Bool.and_eq_true, not_and, not_and, Option.isNone_iff_eq_none,
        Option.isNone_iff_eq_none, Option.isSome_iff_ne_none, Option.isSome_iff_ne_none]

theorem enforceCatnip_of_fills {ip ip' : Option IpAddr} {asn asn' : Option UInt32}
    (hip : Fills ip ip') (hasn : Fills asn asn') (h : enforceCatnip t ip asn = .ok u) :
    enforceCatnip t ip' asn' = .ok u := by
  refine enforceCatnip_iff.mpr fun nips hnips => ?_
  obtain ⟨hips, hasns, hany⟩ := enforceCatnip_iff.mp h nips hnips
  obtain ⟨n, hn, hmatch⟩ := List.any_eq_true.mp hany
  exact ⟨fun h => hip.isSome (hips h), fun h => hasn.isSome (hasns h),
    List.any_eq_true.mpr ⟨n, hn, n.matchesPeer_of_fills hip hasn hmatch⟩⟩

theorem codeMatches_of_knownIn {l l' : RequestLocation} (hle : l.KnownIn l')
    {country code : String} (h : codeMatches l country code = true) :
    codeMatches l' country code = true := by
  unfold codeMatches at h ⊢
  cases hsplit : code.toList.splitOnce '-' with
  | none =>
    rw [hsplit] at h
    exact h
  | some parts =>
    rw [hsplit] at h
    obtain ⟨hcountry, hsub⟩ := Bool.and_eq_true_iff.mp h
    refine Bool.and_eq_true_iff.mpr ⟨hcountry, ?_⟩
    cases hknown : l.subdivisionCode with
    | none =>
      rw [hknown] at hsub
      exact absurd hsub Bool.false_ne_true
    | some sub =>
      rw [hknown] at hsub
      rw [hle.subdivisionCode sub hknown]
      exact hsub

theorem InCountry.of_knownIn {l l' : RequestLocation} (hle : l.KnownIn l') {code : String}
    (h : InCountry (some l) code) : InCountry (some l') code := by
  obtain ⟨_, country, ⟨⟩, hcountry, hmatch⟩ := h
  exact ⟨l', country, rfl, hle.countryCode country hcountry, codeMatches_of_knownIn hle hmatch⟩

theorem InZone.of_knownIn {l l' : RequestLocation} (hle : l.KnownIn l') {zone : GeoCoordinate}
    (h : InZone H (some l) zone) : InZone H (some l') zone := by
  obtain ⟨_, lat, lon, ⟨⟩, hlat, hlon, hin⟩ := h
  exact ⟨l', lat, lon, rfl, hle.latitude lat hlat, hle.longitude lon hlon, hin⟩

theorem InGeohash.of_knownIn {l l' : RequestLocation} (hle : l.KnownIn l') {geohash : String}
    (h : InGeohash (some l) geohash) : InGeohash (some l') geohash := by
  obtain ⟨_, peerHash, ⟨⟩, hknown, hprefix⟩ := h
  exact ⟨l', peerHash, rfl, hle.geohash peerHash hknown, hprefix⟩

theorem enforceIso3166_iff {l : RequestLocation} {codes : List String} :
    enforceIso3166 l codes = .ok u ↔ ∃ code ∈ codes, InCountry (some l) code := by
  refine ⟨enforceIso3166_ok, ?_⟩
  rintro ⟨code, hcode, _, country, ⟨⟩, hcountry, hmatch⟩
  unfold enforceIso3166
  rw [hcountry]
  exact if_pos (List.any_eq_true.mpr ⟨code, hcode, hmatch⟩)

theorem enforceGeocoord_iff {l : RequestLocation} {zones : List GeoCoordinate} :
    enforceGeocoord H l zones = .ok u ↔ ∃ zone ∈ zones, InZone H (some l) zone := by
  refine ⟨enforceGeocoord_ok, ?_⟩
  rintro ⟨zone, hzone, _, lat, lon, ⟨⟩, hlat, hlon, hin⟩
  unfold enforceGeocoord
  rw [hlat, hlon]
  exact if_pos (List.any_eq_true.mpr ⟨zone, hzone, hin⟩)

theorem enforceGeohash_iff {l : RequestLocation} {hashes : List String} :
    enforceGeohash l hashes = .ok u ↔ ∃ t ∈ hashes, InGeohash (some l) t := by
  refine ⟨enforceGeohash_ok, ?_⟩
  rintro ⟨t, ht, _, peerHash, ⟨⟩, hknown, hprefix⟩
  unfold enforceGeohash
  rw [hknown]
  exact if_pos (List.any_eq_true.mpr ⟨t, ht, hprefix⟩)

/-- The geographic lists that have an element are the disjunctions they stand for. -/
theorem enforceGeo_iff {location : Option RequestLocation} :
    enforceGeo H t location = .ok u ↔
      AnyOf (InCountry location) (nonempty? t.cat.catgeoiso3166) ∧
        AnyOf (InZone H location) (nonempty? t.cat.catgeocoord) ∧
        AnyOf (InGeohash location) (nonempty? t.cat.geohash) := by
  refine ⟨enforceGeo_ok, fun ⟨hiso, hcoord, hhash⟩ => ?_⟩
  unfold enforceGeo
  dsimp only
  split
  · rfl
  · rename_i hsome
    cases location with
    | none =>
      refine absurd ?_ hsome
      have hnone {α : Type} {P : α → Prop} {claim : Option (List α)} (hP : ∀ a, ¬P a)
          (h : AnyOf P claim) : claim.isNone = true := by
        cases hclaim : claim with
        | none => rfl
        | some list =>
          obtain ⟨a, -, ha⟩ := h list hclaim
          exact absurd ha (hP a)
      rw [hnone (fun code h => by obtain ⟨_, _, h, -⟩ := h; cases h) hiso,
        hnone (fun zone h => by obtain ⟨_, _, _, h, -⟩ := h; cases h) hcoord,
        hnone (fun hash h => by obtain ⟨_, _, h, -⟩ := h; cases h) hhash]
      rfl
    | some l =>
      refine Except.bind_eq_ok.mpr ⟨(), ?_, Except.bind_eq_ok.mpr ⟨(), ?_, ?_⟩⟩
      · exact Except.option_forM_eq_ok.mpr fun codes h => enforceIso3166_iff.mpr (hiso codes h)
      · exact Except.option_forM_eq_ok.mpr fun zones h => enforceGeocoord_iff.mpr (hcoord zones h)
      · exact Except.option_forM_eq_ok.mpr fun hashes h => enforceGeohash_iff.mpr (hhash hashes h)

theorem enforceGeo_of_knownIn {location location' : Option RequestLocation}
    (hle : ∀ l ∈ location, ∃ l' ∈ location', l.KnownIn l')
    (h : enforceGeo H t location = .ok u) : enforceGeo H t location' = .ok u := by
  obtain ⟨hiso, hcoord, hhash⟩ := enforceGeo_iff.mp h
  refine enforceGeo_iff.mpr ⟨hiso.imp fun code h => ?_, hcoord.imp fun zone h => ?_,
    hhash.imp fun hash h => ?_⟩
  · obtain ⟨l, _, hl, -⟩ := id h
    obtain ⟨l', hl', hknown⟩ := hle l hl
    rw [show location' = some l' from hl']
    exact InCountry.of_knownIn hknown (hl ▸ h)
  · obtain ⟨l, _, _, hl, -⟩ := id h
    obtain ⟨l', hl', hknown⟩ := hle l hl
    rw [show location' = some l' from hl']
    exact InZone.of_knownIn hknown (hl ▸ h)
  · obtain ⟨l, _, hl, -⟩ := id h
    obtain ⟨l', hl', hknown⟩ := hle l hl
    rw [show location' = some l' from hl']
    exact InGeohash.of_knownIn hknown (hl ▸ h)

end

/-! ## The decision, knowing more

Guard by guard in the order of the source. The draw is the same on both sides, so `catpor` comes
to the same answer.
-/

namespace MoqtValidator

variable {H : Host} {σ : Type} {v : MoqtValidator σ} {env : Ambient} {token : ValidatedToken}
  {ctx ctx' : RelayRequestContext H} {configured : Bool} {blockList : Option CatPorBlockList}
  {pre : PreCommit}

theorem checkRestrictions_of_knownIn (hle : ctx.KnownIn ctx') {t : CatToken} {u : Unit}
    (h : v.checkRestrictions t ctx = .ok u) : v.checkRestrictions t ctx' = .ok u := by
  unfold checkRestrictions at h ⊢
  simp only [Except.bind_eq_ok, Except.guard_eq_ok] at h ⊢
  obtain ⟨_, hmoqt, hcatv, _, haud, hdpop, hcattpk, _, halpn, _, hcatu, _, hcatm, _, hcath, _,
    hnip, hgeo⟩ := h
  refine ⟨_, hmoqt, hcatv, (), ?_, hdpop, hcattpk, (), ?_, (), ?_, (), ?_, (), ?_, (), ?_, ?_⟩
  · unfold checkAudience at haud ⊢
    rw [hle.relayEndpoint]
    exact haud
  · exact enforceCatalpn_ok.mpr ((enforceCatalpn_ok.mp halpn).imp fun a ha => hle.peerTlsAlpn a ha)
  · refine requireCatu_ok.mpr fun rules hrules => ?_
    obtain ⟨uri, components, huri, hmet⟩ := requireCatu_ok.mp hcatu rules hrules
    exact ⟨uri, components, hle.requestUri uri huri, hmet⟩
  · exact requireCatm_ok.mpr ((requireCatm_ok.mp hcatm).imp fun m hm => hle.requestMethod m hm)
  · exact validateAllHeaders_ok.mpr fun rules hrules =>
      (validateAllHeaders_ok.mp hcath rules hrules).of_longer hle.requestHeaders
  · exact enforceCatnip_of_fills hle.peerIp hle.peerAsn hnip
  · exact enforceGeo_of_knownIn hle.peerLocation hgeo

/-- A proof is compared with fields that every request has, and with a nonce, which is the same. -/
theorem ProofAccepted.of_knownIn (hle : ctx.KnownIn ctx') {cnf : ConfirmationClaim}
    {validator : DpopValidator σ} {proof : DpopProof H}
    (h : v.ProofAccepted env token ctx cnf validator proof) :
    v.ProofAccepted env token ctx' cnf validator proof where
  presented := hle.dpopProof proof h.presented
  configured := h.configured
  accepts := hle.action ▸ h.accepts
  target := by
    rw [hle.action, hle.namespaces, hle.track]
    exact h.target
  expected := h.expected
  resource := by
    rw [hle.relayEndpoint, hle.action]
    exact h.resource
  shape := hle.action ▸ h.shape
  nonce n hn := h.nonce n (hle.expectedDpopNonce n hn)

theorem obligations_of_knownIn (hle : ctx.KnownIn ctx')
    (h : v.obligations env token ctx configured = .ok pre) :
    v.obligations env token ctx' configured = .ok pre := by
  have hscope : matchScopeIndex token.claims ctx' = matchScopeIndex token.claims ctx := by
    unfold matchScopeIndex scopeMatches
    rw [hle.action, hle.namespaces, hle.track]
  have hdpop {c : Option (String × Int64)} (h : v.dpopCommit env token ctx = .ok c) :
      v.dpopCommit env token ctx' = .ok c := by
    cases hcnf : token.claims.dpop.cnf with
    | none =>
      rw [dpopCommit, hcnf] at h ⊢
      exact h
    | some cnf =>
      obtain ⟨validator, proof, haccepted, hc⟩ := dpopCommit_ok hcnf h
      rw [dpopCommit, hcnf]
      exact checkProof_ok.mpr ⟨validator, proof, haccepted.of_knownIn hle, hc⟩
  unfold obligations at h ⊢
  rw [hscope]
  obtain ⟨replay, hreplay, h⟩ := Except.bind_eq_ok.mp h
  refine Except.bind_eq_ok.mpr ⟨replay, hreplay, ?_⟩
  split at h
  · exact absurd h (by simp)
  · obtain ⟨c, hc, hpre⟩ := Except.bind_eq_ok.mp h
    exact Except.bind_eq_ok.mpr ⟨c, hdpop hc, hpre⟩

/-- Where the decision was to permit, it is the same, and the block list is left the same. The draw
    of `catpor` comes between the guards and is not repeated. -/
theorem authorizePrecommit_of_knownIn (hle : ctx.KnownIn ctx')
    (h : (v.authorizePrecommit env token ctx configured blockList).1 = .ok pre) :
    v.authorizePrecommit env token ctx' configured blockList =
      v.authorizePrecommit env token ctx configured blockList := by
  obtain ⟨hrestrictions, -, hob⟩ := authorizePrecommit_ok h
  unfold authorizePrecommit
  rw [hrestrictions, checkRestrictions_of_knownIn hle hrestrictions, hob,
    obligations_of_knownIn hle hob]

end MoqtValidator

/-! ## Calls -/

namespace RelayCall

variable {H : Host} {σ₀ σ γ : Type}

def context : RelayCall H σ₀ σ γ → RelayRequestContext H
  | sync _ _ _ ctx | async _ _ _ ctx => ctx

def withContext (ctx : RelayRequestContext H) : RelayCall H σ₀ σ γ → RelayCall H σ₀ σ γ
  | sync v guard token _ => sync v guard token ctx
  | async v guard token _ => async v guard token ctx

variable {c : RelayCall H σ₀ σ γ} {ctx : RelayRequestContext H} {env : Ambient}

@[simp] theorem commitJti_withContext (pre : PreCommit) (s : σ) :
    (c.withContext ctx).commitJti env pre s = c.commitJti env pre s := by cases c <;> rfl

@[simp] theorem commitReplay_withContext (pre : PreCommit) (g : γ) :
    (c.withContext ctx).commitReplay pre g = c.commitReplay pre g := by cases c <;> rfl

/-- Every call decides by its validator's `authorizePrecommit`. -/
theorem precommit_withContext_congr {blockList : Option CatPorBlockList}
    (h : ∀ (σ : Type) (v : MoqtValidator σ) (configured : Bool) (list : Option CatPorBlockList),
      (v.authorizePrecommit env c.token c.context configured list).1 =
          (c.precommit env blockList).1 →
        v.authorizePrecommit env c.token ctx configured list =
          v.authorizePrecommit env c.token c.context configured list) :
    (c.withContext ctx).precommit env blockList = c.precommit env blockList := by
  cases c with
  | sync v guard token ctx' =>
    cases guard with
    | none => exact congrArg (fun r => (r.1, blockList)) (h σ v false none rfl)
    | some guard => exact h σ v true blockList rfl
  | async v guard token ctx' =>
    cases guard with
    | none => exact congrArg (fun r => (r.1, blockList)) (h σ₀ v.sync false none rfl)
    | some guard => exact h σ₀ v.sync true blockList rfl

/-- **Knowing more changes nothing about an authorized request**: the same answer, and the stores
    are left the same.

    What a relay does not know can make it refuse and can never make it permit, so leaving a field
    out is always on the safe side. -/
theorem run_of_knownIn {st : RelayStores σ γ} {r : AuthorizedRequest}
    (hle : c.context.KnownIn ctx) (h : (c.run env st).1 = .ok r) :
    (c.withContext ctx).run env st = c.run env st := by
  rw [run_eq] at h
  rw [run_eq, run_eq]
  have hpre : ∃ pre, (c.precommit env st.blockList).1 = .ok pre := by
    rcases hp : c.precommit env st.blockList with ⟨e | pre, list⟩
    · rw [hp] at h
      cases h
    · exact ⟨pre, rfl⟩
  obtain ⟨pre, hpre⟩ := hpre
  rw [precommit_withContext_congr fun σ v configured list heq =>
    v.authorizePrecommit_of_knownIn hle (heq.trans hpre)]
  simp only [commitJti_withContext, commitReplay_withContext]

/-- A call whose token is about the network and the method. -/
def restrictedCall : RelayCall .reference Unit Unit (List Bytes) :=
  .sync {} (some .ofList) restrictedToken setupContext

/-- The same request, with the URI, the address of the peer and a header. -/
def knownContext : RelayRequestContext .reference :=
  { setupContext with
    requestUri := some "moqt://relay/"
    peerIp := some (.v4 0x7f000001)
    requestHeaders := [("accept", "video")]
    headers_ok := by decide +kernel }

theorem setupContext_knownIn : setupContext.KnownIn knownContext where
  relayEndpoint := rfl
  action := rfl
  namespaces := rfl
  track := rfl
  peerTlsAlpn := .refl _
  peerIp := .unknown _
  peerAsn := .refl _
  requestUri := .unknown _
  requestMethod := .refl _
  requestHeaders := List.nil_prefix
  dpopProof := .refl _
  expectedDpopNonce := .refl _
  peerLocation _ h := absurd h (by simp [setupContext])

theorem run_of_knownIn_knownContext :
    (restrictedCall.withContext knownContext).run sampleAmbient sampleStores =
      restrictedCall.run sampleAmbient sampleStores :=
  run_of_knownIn (r := { matchedScopeIndex := 0 }) setupContext_knownIn (by decide +kernel)

end RelayCall

/-! ## What plays no part

The converse question: what may be left out of a context. A field is looked at only if a claim
of the token is about it, so a context can be reduced to those fields, for every call of a run
at once.
-/

/-- What is known, where it is asked for. -/
def onlyIf {α : Type} (asked : Bool) (known : Option α) : Option α :=
  if asked then known else none

theorem onlyIf_true {α : Type} (known : Option α) : onlyIf true known = known := rfl

theorem onlyIf_false {α : Type} (known : Option α) : onlyIf false known = none := rfl

theorem onlyIf_eq_some {α : Type} {asked : Bool} {known : Option α} {a : α}
    (h : onlyIf asked known = some a) : asked = true := by
  cases asked with
  | true => rfl
  | false => exact absurd h (by simp [onlyIf_false])

/-- Of the location, what the token's geographic lists are about. Each of the three reads fields of
    its own. -/
def RequestLocation.relevantTo (l : RequestLocation) (cat : CatClaims) : RequestLocation where
  latitude := onlyIf (nonempty? cat.catgeocoord).isSome l.latitude
  longitude := onlyIf (nonempty? cat.catgeocoord).isSome l.longitude
  countryCode := onlyIf (nonempty? cat.catgeoiso3166).isSome l.countryCode
  subdivisionCode := onlyIf (nonempty? cat.catgeoiso3166).isSome l.subdivisionCode
  geohash := onlyIf (nonempty? cat.geohash).isSome l.geohash

/-- A geographic list with an element is there. -/
def CatClaims.asksLocation (cat : CatClaims) : Bool :=
  (nonempty? cat.catgeoiso3166).isSome || (nonempty? cat.catgeocoord).isSome ||
    (nonempty? cat.geohash).isSome

/-- The fields that every request is judged by, and those that a claim of the token is about. -/
def RelayRequestContext.relevantTo {H : Host} (ctx : RelayRequestContext H) (t : CatToken) :
    RelayRequestContext H where
  relayEndpoint := ctx.relayEndpoint
  action := ctx.action
  namespaces := ctx.namespaces
  track := ctx.track
  peerTlsAlpn := onlyIf t.cat.catalpn.isSome ctx.peerTlsAlpn
  peerIp := onlyIf ((t.cat.catnip.getD []).any (·.isIpBased)) ctx.peerIp
  peerAsn := onlyIf ((t.cat.catnip.getD []).any (·.isAsnBased)) ctx.peerAsn
  requestUri := onlyIf t.cat.catu.isSome ctx.requestUri
  requestMethod := onlyIf t.cat.catm.isSome ctx.requestMethod
  requestHeaders := if t.cat.cath.isSome then ctx.requestHeaders else []
  dpopProof := onlyIf t.dpop.cnf.isSome ctx.dpopProof
  expectedDpopNonce := onlyIf t.dpop.cnf.isSome ctx.expectedDpopNonce
  peerLocation := onlyIf t.cat.asksLocation (ctx.peerLocation.map (·.relevantTo t.cat))
  headers_ok := by
    intro h hmem
    split at hmem
    · exact ctx.headers_ok h hmem
    · exact absurd hmem List.not_mem_nil

section
variable {H : Host} {t : CatToken}

open MoqtValidator

/-- A location that is still known has been cut down. -/
theorem RelayRequestContext.relevantTo_peerLocation {ctx : RelayRequestContext H}
    {l : RequestLocation} (h : (ctx.relevantTo t).peerLocation = some l) :
    ∃ known : RequestLocation, l = known.relevantTo t.cat := by
  change onlyIf t.cat.asksLocation (ctx.peerLocation.map (·.relevantTo t.cat)) = some l at h
  rw [onlyIf_eq_some h, onlyIf_true] at h
  obtain ⟨known, -, hknown⟩ := Option.map_eq_some_iff.mp h
  exact ⟨known, hknown.symm⟩

theorem enforceCatalpn_onlyIf (alpn : Option Bytes) :
    enforceCatalpn t (onlyIf t.cat.catalpn.isSome alpn) = enforceCatalpn t alpn := by
  unfold enforceCatalpn
  cases t.cat.catalpn <;> rfl

theorem requireCatu_relevantTo (ctx : RelayRequestContext H) :
    requireCatu t (ctx.relevantTo t) = requireCatu t ctx := by
  unfold requireCatu RelayRequestContext.relevantTo
  cases t.cat.catu <;> rfl

theorem requireCatm_relevantTo (ctx : RelayRequestContext H) :
    requireCatm t (ctx.relevantTo t) = requireCatm t ctx := by
  unfold requireCatm RelayRequestContext.relevantTo
  cases t.cat.catm <;> rfl

theorem validateAllHeaders_relevantTo (headers : List (String × String)) :
    validateAllHeaders H t (if t.cat.cath.isSome then headers else []) =
      validateAllHeaders H t headers := by
  unfold validateAllHeaders
  cases t.cat.cath <;> rfl

/-- An address says nothing about a network that is not known by addresses, and a number of a
    network nothing about one that is not known by numbers. -/
theorem NetworkIdentifier.matchesPeer_onlyIf {nips : List NetworkIdentifier} (ip : Option IpAddr)
    (asn : Option UInt32) {n : NetworkIdentifier} (hn : n ∈ nips) :
    n.matchesPeer (onlyIf (nips.any (·.isIpBased)) ip) (onlyIf (nips.any (·.isAsnBased)) asn) =
      n.matchesPeer ip asn := by
  have hip (h : nips.any (·.isIpBased) = false) (a : IpAddr) : n.matchesIp a = false := by
    have hkind := List.any_eq_false.mp h n hn
    cases n with
    | ipAddress | ipPrefix => exact absurd rfl hkind
    | asn | asnRange => rfl
  have hasn (h : nips.any (·.isAsnBased) = false) (a : UInt32) : n.matchesAsn a = false := by
    have hkind := List.any_eq_false.mp h n hn
    cases n with
    | ipAddress | ipPrefix => rfl
    | asn | asnRange => exact absurd rfl hkind
  unfold matchesPeer
  congr 1
  · cases hany : nips.any (·.isIpBased) with
    | true => rfl
    | false =>
      cases ip with
      | none => rfl
      | some a => exact (hip hany a).symm
  · cases hany : nips.any (·.isAsnBased) with
    | true => rfl
    | false =>
      cases asn with
      | none => rfl
      | some a => exact (hasn hany a).symm

theorem enforceCatnip_onlyIf (ip : Option IpAddr) (asn : Option UInt32) :
    enforceCatnip t (onlyIf ((t.cat.catnip.getD []).any (·.isIpBased)) ip)
      (onlyIf ((t.cat.catnip.getD []).any (·.isAsnBased)) asn) = enforceCatnip t ip asn := by
  unfold enforceCatnip
  cases t.cat.catnip with
  | none => rfl
  | some nips =>
    have hpeer : (nips.any fun n => n.matchesPeer (onlyIf (nips.any (·.isIpBased)) ip)
        (onlyIf (nips.any (·.isAsnBased)) asn)) = nips.any fun n => n.matchesPeer ip asn := by
      rw [Bool.eq_iff_iff, List.any_eq_true, List.any_eq_true]
      exact exists_congr fun n => and_congr_right fun hn => by
        rw [NetworkIdentifier.matchesPeer_onlyIf ip asn hn]
    show (if nips.isEmpty then _ else _) = (if nips.isEmpty then _ else _)
    simp only [Option.getD_some, hpeer]
    cases nips.any (·.isIpBased) <;> cases nips.any (·.isAsnBased) <;> rfl

/-- Each geographic list is judged by its own fields of the location. -/
theorem enforceGeo_onlyIf (location : Option RequestLocation) :
    enforceGeo H t (onlyIf t.cat.asksLocation (location.map (·.relevantTo t.cat))) =
      enforceGeo H t location := by
  unfold enforceGeo CatClaims.asksLocation RequestLocation.relevantTo
  cases nonempty? t.cat.catgeoiso3166 <;> cases nonempty? t.cat.catgeocoord <;>
    cases nonempty? t.cat.geohash <;> cases location <;> rfl

end

namespace MoqtValidator

variable {H : Host} {σ : Type} (v : MoqtValidator σ) (env : Ambient) (token : ValidatedToken)
  (ctx : RelayRequestContext H) (configured : Bool) (blockList : Option CatPorBlockList)

theorem checkRestrictions_relevantTo (t : CatToken) :
    v.checkRestrictions t (ctx.relevantTo t) = v.checkRestrictions t ctx := by
  unfold checkRestrictions
  rw [requireCatu_relevantTo, requireCatm_relevantTo,
    show enforceCatalpn t (ctx.relevantTo t).peerTlsAlpn = enforceCatalpn t ctx.peerTlsAlpn from
      enforceCatalpn_onlyIf _,
    show validateAllHeaders H t (ctx.relevantTo t).requestHeaders =
      validateAllHeaders H t ctx.requestHeaders from validateAllHeaders_relevantTo _,
    show enforceCatnip t (ctx.relevantTo t).peerIp (ctx.relevantTo t).peerAsn =
      enforceCatnip t ctx.peerIp ctx.peerAsn from enforceCatnip_onlyIf _ _,
    show enforceGeo H t (ctx.relevantTo t).peerLocation = enforceGeo H t ctx.peerLocation from
      enforceGeo_onlyIf _]
  rfl

theorem dpopCommit_relevantTo :
    v.dpopCommit env token (ctx.relevantTo token.claims) = v.dpopCommit env token ctx := by
  unfold dpopCommit
  cases hcnf : token.claims.dpop.cnf with
  | none => rfl
  | some cnf =>
    have hproof : (ctx.relevantTo token.claims).dpopProof = ctx.dpopProof := by
      unfold RelayRequestContext.relevantTo
      rw [hcnf]
      rfl
    have hnonce (proof : DpopProof H) :
        checkNonce proof (ctx.relevantTo token.claims) = checkNonce proof ctx := by
      unfold checkNonce RelayRequestContext.relevantTo
      rw [hcnf]
      rfl
    show v.checkProof env token (ctx.relevantTo token.claims) cnf = v.checkProof env token ctx cnf
    unfold checkProof
    simp only [hproof, hnonce]
    rfl

theorem authorizePrecommit_relevantTo :
    v.authorizePrecommit env token (ctx.relevantTo token.claims) configured blockList =
      v.authorizePrecommit env token ctx configured blockList := by
  unfold authorizePrecommit obligations
  rw [checkRestrictions_relevantTo, dpopCommit_relevantTo]
  rfl

theorem authorizeCall_relevantTo {γ : Type} (guard : Option (ReplayGuard γ))
    (st : RelayStores σ γ) :
    v.authorizeCall guard env token (ctx.relevantTo token.claims) st =
      v.authorizeCall guard env token ctx st := by
  unfold authorizeCall authorize authorizeWithReplay
  cases guard with
  | none =>
    dsimp only
    rw [authorizePrecommit_relevantTo]
  | some G =>
    dsimp only
    rw [authorizePrecommit_relevantTo]

end MoqtValidator

namespace RelayStep

variable {ι : Type} [DecidableEq ι] {H : Host} {σ₀ σ γ : Type}
  {calls calls' : ι → RelayCall H σ₀ σ γ}

/-- Calls that decide and commit alike take the same steps. The steps look at a call through these
    three functions only. -/
theorem of_alike {st st' : RelayState ι σ γ} {i : ι}
    (hpre : ∀ env list, (calls' i).precommit env list = (calls i).precommit env list)
    (hjti : ∀ env pre s, (calls' i).commitJti env pre s = (calls i).commitJti env pre s)
    (hreplay : ∀ pre g, (calls' i).commitReplay pre g = (calls i).commitReplay pre g)
    (h : RelayStep calls st i st') : RelayStep calls' st i st' := by
  cases h with
  | decide hph h => exact .decide hph ((hpre _ _).trans h)
  | reject hph h => exact .reject hph ((hpre _ _).trans h)
  | enter hph h => exact .enter hph ((hjti _ _ _).trans h)
  | bar hph h => exact .bar hph ((hjti _ _ _).trans h)
  | authorize hph h => exact .authorize hph ((hreplay _ _).trans h)
  | refuse hph h => exact .refuse hph ((hreplay _ _).trans h)

end RelayStep

namespace RelayCall

variable {ι : Type} [DecidableEq ι] {H : Host} {σ₀ σ γ : Type}

/-- The call with the part of its context that matters. -/
def relevant (c : RelayCall H σ₀ σ γ) : RelayCall H σ₀ σ γ :=
  c.withContext (c.context.relevantTo c.token.claims)

theorem precommit_relevant (c : RelayCall H σ₀ σ γ) (env : Ambient)
    (blockList : Option CatPorBlockList) :
    c.relevant.precommit env blockList = c.precommit env blockList :=
  precommit_withContext_congr fun _ v configured list _ =>
    v.authorizePrecommit_relevantTo env c.token c.context configured list

/-- **What no claim is about plays no part**: in any interleaving of any calls, each may be given
    its context without the fields that no claim of its token is about.

    A relay that serves no tokens with such claims need not fill the fields in. -/
theorem run_relevant (calls : ι → RelayCall H σ₀ σ γ) (st st' : RelayState ι σ γ) (es : List ι) :
    Run (RelayStep fun i => (calls i).relevant) st es st' ↔ Run (RelayStep calls) st es st' := by
  have hjti (i : ι) (env : Ambient) (pre : PreCommit) (s : σ) :
      (calls i).relevant.commitJti env pre s = (calls i).commitJti env pre s :=
    commitJti_withContext pre s
  have hreplay (i : ι) (pre : PreCommit) (g : γ) :
      (calls i).relevant.commitReplay pre g = (calls i).commitReplay pre g :=
    commitReplay_withContext pre g
  refine ⟨fun h => h.mono fun _ i _ => ?_, fun h => h.mono fun _ i _ => ?_⟩
  · exact RelayStep.of_alike (fun env list => ((calls i).precommit_relevant env list).symm)
      (fun env pre s => (hjti i env pre s).symm) fun pre g => (hreplay i pre g).symm
  · exact RelayStep.of_alike ((calls i).precommit_relevant) (hjti i) (hreplay i)

end RelayCall

end Cat
