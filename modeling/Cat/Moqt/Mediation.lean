import Cat.Moqt.AuthorizeSpec

/-!
# Which restrictions an authorized request meets

A relay relies on `authorize` to compare every restriction of the token with the request. It
does so for all of them but five: nothing judges an altitude, and an empty list of networks,
countries, zones or geohashes is passed over. `authorizeCall_mediated` says that these are the
only ones.

What it is to meet them is written down as a structure (`Mediated`, and `RestrictionsMet` for
those on the network, the place and the HTTP request), in terms of each claim and the part of
the request that it restricts. The pipeline is followed once, from a request that was authorized
back through its sections, and each section gives its field. A claim that no section reads has
no field that could be filled, and this is how the altitude is missed.

Being met is the reading of a claim as its documentation has it, so the fields quantify over
lists and compare with the request; how a section computes its answer is left behind in its own
lemma.
-/

set_option autoImplicit false

namespace Cat

open Cbor

/-! ## Replay -/

section
variable {γ : Type}

/-- A guard is there, the token has a `cti`, and the guard has not seen it, or what it says
    is what is reported. -/
def CatreplayMet (token : CatToken) (guard : Option (ReplayGuard γ)) (g : γ) (reused : Bool) :
    ReplayProtection → Prop
  | .permitted => True
  | .prohibited => ∃ G cti, guard = some G ∧ token.core.cti = some cti ∧
      (G.checkAndRecord cti g).1 = .ok false
  | .reuseDetection => ∃ G cti, guard = some G ∧ token.core.cti = some cti ∧
      (G.checkAndRecord cti g).1 = .ok reused

end

/-! ## Mediation -/

section
variable {H : Host} {σ γ : Type}

/-- Every restriction on the token was compared with the request and is met by it. -/
structure Mediated (v : MoqtValidator σ) (guard : Option (ReplayGuard γ)) (env : Ambient)
    (token : ValidatedToken) (ctx : RelayRequestContext H) (st : RelayStores σ γ)
    (r : AuthorizedRequest) : Prop where
  restrictions : RestrictionsMet token.claims.cat ctx
  catpor : ∀ catpor ∈ token.claims.cat.catpor, CatporMet env catpor (st.blockListFor guard)
  catreplay : ∀ mode ∈ token.claims.cat.catreplay,
    CatreplayMet token.claims guard st.guard r.reuseDetected mode
  cnf : ∀ cnf ∈ token.claims.dpop.cnf,
    ∃ validator proof, v.ProofAccepted env token ctx cnf validator proof

variable {v : MoqtValidator σ} {guard : Option (ReplayGuard γ)} {env : Ambient}
  {token : ValidatedToken} {ctx : RelayRequestContext H} {st : RelayStores σ γ}
  {r : AuthorizedRequest}

theorem commit_catreplay {pre : PreCommit}
    (hpre : MoqtValidator.replayObligation token.claims guard.isSome = .ok pre.replay)
    (h : (v.commit env pre guard st.jti st.guard).1 = .ok r) :
    ∀ mode ∈ token.claims.cat.catreplay,
      CatreplayMet token.claims guard st.guard r.reuseDetected mode := by
  intro mode hmode
  obtain ⟨reused, -, hreplay, rfl⟩ := PreCommit.commitWith_ok (Prod.ext h rfl)
  cases MoqtValidator.replayObligation_some hmode hpre with
  | inl hpermitted =>
    obtain rfl := hpermitted
    exact trivial
  | inr howed =>
    obtain ⟨cti, hcti, howed⟩ := howed
    rcases howed with ⟨rfl, hob⟩ | ⟨rfl, hob⟩
    · obtain ⟨G, seen, hG, hseen, hpass⟩ := commitReplay_ok hob hreplay
      cases hpass with
      | prohibited => exact ⟨G, cti, hG, hcti, congrArg Prod.fst hseen⟩
    · obtain ⟨G, seen, hG, hseen, hpass⟩ := commitReplay_ok hob hreplay
      cases hpass with
      | reuseDetection => exact ⟨G, cti, hG, hcti, congrArg Prod.fst hseen⟩

/-- **Complete mediation**, but for altitudes and for the empty lists that are skipped.

What is said of an authorized request is said claim by claim, in terms of what the claim restricts
and not of the guard that looks at it, so that a claim without a guard is noticed. The altitude is
such a claim; and the guards for networks and places return from an empty list before they compare
anything. -/
theorem authorizeCall_mediated (h : (v.authorizeCall guard env token ctx st).1 = .ok r) :
    Mediated v guard env token ctx st r ↔ token.claims.cat.AllJudged := by
  obtain ⟨pre, hpre, hcommit⟩ := MoqtValidator.authorizeCall_ok h
  obtain ⟨hrestrictions, hcatpor, hob⟩ := MoqtValidator.authorizePrecommit_ok hpre
  obtain ⟨hreplay, -, hdpop⟩ := MoqtValidator.obligations_ok hob
  have hjudged := MoqtValidator.checkRestrictions_ok hrestrictions
  constructor
  · intro hmediated
    exact hjudged.iff_allJudged.mp hmediated.restrictions
  · intro hall
    exact {
      restrictions := hjudged.iff_allJudged.mpr hall
      catpor := MoqtValidator.checkCatpor_ok hcatpor
      catreplay := commit_catreplay hreplay hcommit
      cnf := fun cnf hcnf =>
        let ⟨validator, proof, haccepted, _⟩ := MoqtValidator.dpopCommit_ok hcnf hdpop
        ⟨validator, proof, haccepted⟩ }

end

/-! ### Calls that are authorized -/

/-- A guard that lists what it has seen. -/
def ReplayGuard.ofList : ReplayGuard (List Bytes) :=
  ⟨fun cti seen => (.ok (seen.contains cti), cti :: seen)⟩

/-- A validator that accepts any issuer, and privacy claims in a signed token. -/
def sampleTokenValidator : CatTokenValidator :=
  CatTokenValidator.dangerouslyAnyIssuer.allowUnencryptedPrivacyClaims

/-- A token for the client setup of a relay, with some restriction claims. -/
def setupToken (cat : CatClaims) (cti : Option Bytes) : CatToken :=
  { CatToken.new with
    core := { aud := some ["relay"], cti }
    cat
    moqt := { moqt := some [⟨[.clientSetup], [], none⟩] } }

def sampleValidated (token : CatToken)
    (h : sampleTokenValidator.validate 0 token = .ok ()) : ValidatedToken :=
  ⟨token, ⟨algEs256, none⟩, .signed, [], sampleTokenValidator, 0, h⟩

def setupContext : RelayRequestContext .reference where
  relayEndpoint := "relay"
  action := .clientSetup
  namespaces := []
  track := []
  peerAsn := some 64512
  requestMethod := some "GET"

def sampleAmbient : Ambient := ⟨0, 0, none⟩

def sampleStores : RelayStores Unit (List Bytes) := ⟨(), [], none⟩

/-- Network, method and a `cti` that may be used once. -/
def restrictedToken : ValidatedToken :=
  sampleValidated (setupToken
    { catreplay := some .prohibited, catnip := some [.asn 1, .asn 64512], catm := some ["GET"] }
    (some [7])) (by decide +kernel)

/-- An altitude between -10 and 10 metres. -/
def altitudeToken : ValidatedToken :=
  sampleValidated (setupToken { catgeoalt := some ⟨F64.ofInt 0, F64.ofInt 10⟩ } none)
    (by decide +kernel)

theorem authorizeCall_mediated_restrictedToken :
    Mediated (σ := Unit) {} (some .ofList) sampleAmbient restrictedToken setupContext sampleStores
      { matchedScopeIndex := 0 } :=
  (authorizeCall_mediated (by decide +kernel)).mpr
    ⟨rfl, by decide +kernel, by decide +kernel, by decide +kernel, by decide +kernel⟩

theorem authorizeCall_not_mediated :
    ¬∀ (H : Host) (σ γ : Type) (v : MoqtValidator σ) (guard : Option (ReplayGuard γ))
      (env : Ambient) (token : ValidatedToken) (ctx : RelayRequestContext H)
      (st : RelayStores σ γ) (r : AuthorizedRequest),
      (v.authorizeCall guard env token ctx st).1 = .ok r → Mediated v guard env token ctx st r := by
  intro h
  have hcall : ((({} : MoqtValidator Unit).authorizeCall (none : Option (ReplayGuard (List Bytes)))
      sampleAmbient altitudeToken setupContext sampleStores).1) = .ok { matchedScopeIndex := 0 } := by
    decide +kernel
  have hmediated := h .reference Unit (List Bytes) {} none sampleAmbient altitudeToken setupContext
    sampleStores _ hcall
  exact absurd hmediated.restrictions.catgeoalt (by decide +kernel)

end Cat
