import Cat.Moqt.Request

/-!
# Authorizing a request

`MoqtValidator` decides whether a validated token permits a request. The decision comes in two
phases. `authorizePrecommit` judges everything that needs no replay store and returns what is
still owed to the stores; `commit` pays it, the proof's identifier first and the token's `cti`
second, so that a proof that is refused costs the token nothing.

The source's one long function is cut here along its own section comments. Each section is a
definition that takes what it reads: the claims it judges, the part of the request it compares
them with, the settings it depends on. Sections that read the clock or the random draw take the
ambient readings, and the block list goes in and comes out where `catpor` writes to it, since
what is written there stays though a later section refuses.

What is owed is a value (`PreCommit`): a key for the store if the proof is tracked, and an
obligation for the guard if the token has one. Whoever interleaves calls has the decision on one
side of it and two atomic operations on the other.
-/

set_option autoImplicit false

namespace Cat

open Cbor

/-! ## Outcomes -/

/-- What `catreplay` asks of the replay guard. -/
inductive CatReplayObligation where
  /-- A `cti` seen before fails the request. -/
  | prohibited (cti : Bytes)
  /-- A `cti` seen before is reported. -/
  | reuseDetection (cti : Bytes)
  deriving DecidableEq

def CatReplayObligation.cti : CatReplayObligation → Bytes
  | .prohibited cti | .reuseDetection cti => cti

structure PreCommit where
  scopeIndex : Nat
  renewal : Option CatRenewal
  revalidation : Option F64
  /-- Store key and time of issue of the proof. -/
  jtiCommit : Option (String × Int64)
  replay : Option CatReplayObligation
  deriving DecidableEq

structure AuthorizedRequest where
  matchedScopeIndex : Nat
  requiresRevalidation : Bool := false
  revalidationInterval : Option F64 := none
  renewal : Option CatRenewal := none
  reuseDetected : Bool := false
  deriving DecidableEq

def PreCommit.finalize (pre : PreCommit) (reuseDetected : Bool) : AuthorizedRequest :=
  let interval := pre.revalidation.filter fun interval => F64.lt (F64.ofInt 0) interval
  { matchedScopeIndex := pre.scopeIndex
    requiresRevalidation := interval.isSome
    revalidationInterval := interval
    renewal := pre.renewal
    reuseDetected }

/-- The store behind `catreplay`: whether a `cti` was seen before, recording it. -/
structure ReplayGuard (γ : Type) where
  checkAndRecord : Bytes → γ → Except CatError Bool × γ

/-- The settings of a relay. The stores are not among them: they outlive a call, and a call is given
    them as it finds them. -/
structure MoqtValidator (σ : Type) where
  minRevalidationInterval : Option F64 := none
  supportsRevalidation : Bool := true
  dpopValidator : Option (DpopValidator σ) := none
  expectedResource : Option String := none
  requireAudienceBinding : Bool := true
  requireDpop : Bool := false
  requireCattpk : Bool := false
  requireDpopReplayTracking : Bool := false

namespace MoqtValidator

variable {H : Host} {σ γ : Type} (v : MoqtValidator σ)

/-! ## Claims against the request -/

/-- The source compares numbers. What has been decoded is always in range. -/
def checkActions (scope : MoqtScope) : Except CatError Unit :=
  match scope.actions.find? fun a => !(0 ≤ a.toI32.toInt && a.toI32.toInt ≤ 8) with
  | some a => .error (.invalidClaimValue s!"Invalid MOQT action: {a.debug}")
  | none => .ok ()

/-- Only an interval above zero can be too short. -/
def checkRevalidation (token : CatToken) : Except CatError Unit :=
  match token.moqt.moqtReval with
  | none => .ok ()
  | some reval =>
    if !v.supportsRevalidation then .error .revalidationRequired
    else if v.minRevalidationInterval.any fun minInterval =>
        F64.lt (F64.ofInt 0) reval && F64.lt reval minInterval then
      .error .revalidationIntervalTooShort
    else .ok ()

def validateMoqtClaims (token : CatToken) : Except CatError Unit := do
  v.checkRevalidation token
  (token.moqt.moqt.getD []).forM checkActions

/-- A token with audiences has to name the relay. One without is refused by default. -/
def checkAudience (token : CatToken) (ctx : RelayRequestContext H) : Except CatError Unit :=
  match token.core.aud with
  | some audiences =>
    if audiences.contains ctx.relayEndpoint then .ok () else .error .invalidAudience
  | none =>
    if v.requireAudienceBinding then .error (.missingRequiredClaim "aud") else .ok ()

/-- The peer's protocol has to be known and listed. -/
def enforceCatalpn (token : CatToken) (peerTlsAlpn : Option Bytes) : Except CatError Unit :=
  match token.cat.catalpn with
  | none => .ok ()
  | some tokenAlpns =>
    match peerTlsAlpn with
    | none => .error (.missingRelayContext "catalpn" "peer_tls_alpn")
    | some peerAlpn =>
      if tokenAlpns.contains peerAlpn then .ok ()
      else .error (.invalidClaimValue "peer TLS ALPN does not match token catalpn")

/-- `catu`, which needs a URI to judge. -/
def requireCatu (token : CatToken) (ctx : RelayRequestContext H) : Except CatError Unit :=
  if token.cat.catu.isSome then
    match ctx.requestUri with
    | none => .error (.missingRelayContext "catu" "request_uri")
    | some uri => enforceCatu H token uri
  else .ok ()

def requireCatm (token : CatToken) (ctx : RelayRequestContext H) : Except CatError Unit :=
  if token.cat.catm.isSome then
    match ctx.requestMethod with
    | none => .error (.missingRelayContext "catm" "request_method")
    | some method => validateMethod token method
  else .ok ()

/-- Sections 1 to 8b: everything before `catpor`. -/
def checkRestrictions (token : CatToken) (ctx : RelayRequestContext H) :
    Except CatError Unit := do
  v.validateMoqtClaims token
  if (token.cat.catv.getD 0).toNat > 1 then
    throw (.invalidClaimValue s!"catv: unsupported token version {(token.cat.catv.getD 0).toNat}")
  v.checkAudience token ctx
  if v.requireDpop && token.dpop.cnf.isNone then throw (.missingRequiredClaim "cnf")
  if v.requireCattpk && token.cat.cattpk.isNone then throw (.missingRequiredClaim "cattpk")
  enforceCatalpn token ctx.peerTlsAlpn
  requireCatu token ctx
  requireCatm token ctx
  validateAllHeaders H token ctx.requestHeaders
  enforceCatnip token ctx.peerIp ctx.peerAsn
  enforceGeo H token ctx.peerLocation

/-- Section 9. The block list, if there is one, records a rejection. -/
def checkCatpor (env : Ambient) (token : CatToken) (blockList : Option CatPorBlockList) :
    Except CatError Unit × Option CatPorBlockList :=
  if token.cat.catpor.isSome then
    match blockList with
    | none => (.error (.missingRelayContext "catpor" "catpor_block_list"), none)
    | some list => (enforceCatpor env token list).map id some
  else (.ok (), blockList)

/-! ## What is owed to the replay guard -/

/-- The guard comes first: without one it does not matter whether there is a `cti`. -/
def requireCti (token : CatToken) (replayGuardConfigured : Bool) (missing : String) :
    Except CatError Bytes :=
  if !replayGuardConfigured then .error (.missingRelayContext "catreplay" "replay_guard")
  else
    match token.core.cti with
    | some cti => .ok cti
    | none => .error (.missingRequiredClaim missing)

/-- Section 10. -/
def replayObligation (token : CatToken) (replayGuardConfigured : Bool) :
    Except CatError (Option CatReplayObligation) :=
  match token.cat.catreplay with
  | some .prohibited =>
    (requireCti token replayGuardConfigured "cti required when catreplay=Prohibited").map
      fun cti => some (.prohibited cti)
  | some .reuseDetection =>
    (requireCti token replayGuardConfigured "cti required when catreplay=ReuseDetection").map
      fun cti => some (.reuseDetection cti)
  | some .permitted | none => .ok none

/-! ## Scopes -/

/-- Matches and elements go by position. A match may be for the absence of an element, and elements
    behind the last match are free. -/
def namespacesMatch (namespaces : List Bytes) : Nat → List NamespaceMatch → Bool
  | _, [] => true
  | i, m :: ms => m.matches_ namespaces[i]? && namespacesMatch namespaces (i + 1) ms

/-- A scope without a track match covers every track. -/
def scopeMatches (scope : MoqtScope) (ctx : RelayRequestContext H) : Bool :=
  scope.actions.contains ctx.action && namespacesMatch ctx.namespaces 0 scope.namespaceMatches &&
    scope.trackMatch.all fun m => m.matches_ ctx.track

/-- Section 11. -/
def matchScopeIndex (token : CatToken) (ctx : RelayRequestContext H) : Option Nat :=
  token.moqt.moqt.bind fun scopes => scopes.findIdx? fun scope => scopeMatches scope ctx

/-! ## Proof of possession -/

/-- The proof is about this namespace and track. A setup action has neither. -/
def checkActxTarget (proof : DpopProof H) (ctx : RelayRequestContext H) : Except CatError Unit :=
  match ctx.action.resourceShape with
  | .endpoint => .ok ()
  | .namespaceTuple | .track =>
    if proof.payload.actx.tns ≠ ctx.namespaces then
      .error (.dpopValidationFailed "DPoP proof namespace does not match request")
    else if proof.payload.actx.tn ≠ ctx.track then
      .error (.dpopValidationFailed "DPoP proof track does not match request")
    else .ok ()

/-- A relay that expects a resource refuses a proof that names none. -/
def checkExpectedResource (proof : DpopProof H) : Except CatError Unit :=
  match v.expectedResource with
  | none => .ok ()
  | some expected =>
    match proof.payload.actx.resource with
    | some resource =>
      if resource ≠ expected then .error (.dpopValidationFailed
        s!"DPoP proof resource '{resource}' does not match expected '{expected}'")
      else .ok ()
    | none => .error (.dpopValidationFailed "DPoP proof missing required resource binding")

/-- A resource URI, if the proof has one, names this relay and agrees with the rest of the
    proof. -/
def checkResourceUri (proof : DpopProof H) (ctx : RelayRequestContext H) :
    Except CatError Unit := do
  match proof.payload.actx.resource with
  | none => return
  | some resource =>
    let parsed ← parseMoqtResourceUri H resource
    if parsed.endpoint ≠ ctx.relayEndpoint then
      throw (.dpopValidationFailed
        s!"DPoP proof resource endpoint '{parsed.endpoint}' does not match relay '{ctx.relayEndpoint}'")
    if parsed.namespaces.any fun ns => proof.payload.actx.tns ≠ ns then
      throw (.dpopValidationFailed
        "DPoP proof resource namespace tuple disagrees with actx.tns")
    if parsed.track.any fun tn => proof.payload.actx.tn ≠ tn then
      throw (.dpopValidationFailed "DPoP proof resource track disagrees with actx.tn")
    enforceResourceShape ctx.action parsed

/-- The nonce is asked for by the relay. A proof may have one that nobody asked for. -/
def checkNonce (proof : DpopProof H) (ctx : RelayRequestContext H) : Except CatError Unit :=
  match ctx.expectedDpopNonce with
  | none => .ok ()
  | some expected =>
    match proof.payload.nonce with
    | some actual =>
      if actual = expected then .ok ()
      else .error (.dpopValidationFailed "DPoP proof nonce does not match server challenge")
    | none => .error (.dpopValidationFailed "DPoP proof missing required server nonce")

/-- The store key of an accepted proof, unless neither token nor relay asks for one. -/
def commitKeyOf (validator : DpopValidator σ) (proof : DpopProof H) (cnf : ConfirmationClaim)
    (issuer : Option String) : Option (String × Int64) :=
  if v.requireDpopReplayTracking then
    DpopValidator.dpopCommitKeyForced proof cnf.jkt issuer
  else validator.dpopCommitKey proof cnf.jkt issuer

/-- Section 12, for a token that is bound to a key. -/
def checkProof (env : Ambient) (token : ValidatedToken) (ctx : RelayRequestContext H)
    (cnf : ConfirmationClaim) : Except CatError (Option (String × Int64)) := do
  match ctx.dpopProof with
  | none => throw (.dpopValidationFailed "Token requires DPoP proof but none provided")
  | some proof =>
    match v.dpopValidator with
    | none => throw (.dpopValidationFailed "DPoP validation not configured")
    | some validator =>
      let proofJkt ← proof.jwkThumbprint
      if !confirmationMatchesThumbprint cnf proofJkt then throw .invalidDpopBinding
      validator.validateWithoutJtiCommit env.now proof ctx.action cnf.jkt
        (some (computeAccessTokenHash H token.serialized))
      checkActxTarget proof ctx
      v.checkExpectedResource proof
      checkResourceUri proof ctx
      enforceActxShape ctx.action proof.payload.actx
      checkNonce proof ctx
      return v.commitKeyOf validator proof cnf token.claims.core.iss

/-- Section 12. -/
def dpopCommit (env : Ambient) (token : ValidatedToken) (ctx : RelayRequestContext H) :
    Except CatError (Option (String × Int64)) :=
  match token.claims.dpop.cnf with
  | none => .ok none
  | some cnf => v.checkProof env token ctx cnf

/-! ## The two phases -/

/-- Sections 10 to 12: what is owed. -/
def obligations (env : Ambient) (token : ValidatedToken) (ctx : RelayRequestContext H)
    (replayGuardConfigured : Bool) : Except CatError PreCommit := do
  let replay ← replayObligation token.claims replayGuardConfigured
  match matchScopeIndex token.claims ctx with
  | none => throw (.moqtActionNotAuthorized s!"no MOQT scope matches action {ctx.action.debug}")
  | some scopeIndex =>
    let jtiCommit ← v.dpopCommit env token ctx
    return { scopeIndex, renewal := token.claims.request.catr,
             revalidation := token.claims.moqt.moqtReval, jtiCommit, replay }

/-- All that is decided before the two stores are asked. Of what is shared between calls only the
    block list has a part in it. -/
def authorizePrecommit (env : Ambient) (token : ValidatedToken) (ctx : RelayRequestContext H)
    (replayGuardConfigured : Bool) (blockList : Option CatPorBlockList) :
    Except CatError PreCommit × Option CatPorBlockList :=
  match v.checkRestrictions token.claims ctx with
  | .error e => (.error e, blockList)
  | .ok () =>
    match checkCatpor env token.claims blockList with
    | (.error e, blockList) => (.error e, blockList)
    | (.ok (), blockList) => (v.obligations env token ctx replayGuardConfigured, blockList)

/-- The first half of `commit`: the proof's identifier enters the store. -/
def commitJti (env : Ambient) (pre : PreCommit) (s : σ) : Except CatError Unit × σ :=
  match pre.jtiCommit with
  | none => (.ok (), s)
  | some (key, iat) =>
    match v.dpopValidator with
    | none => (.error (.dpopValidationFailed
        "DPoP JTI commit requested but validator not configured"), s)
    | some validator => validator.jtiStore.checkAndInsert env.now key iat s

/-- Judge what a guard that is there says of a `cti`: `true` is a reuse that is reported. -/
def judgeReuse (obligation : CatReplayObligation) (seen : Except CatError Bool) :
    Except CatError Bool :=
  match obligation with
  | .prohibited _ => seen.bind fun seen => if seen then .error .replayAttackDetected else .ok false
  | .reuseDetection _ => seen

/-- The second half of `commit`: the token's `cti` is recorded. -/
def commitReplay (guard : Option (ReplayGuard γ)) (pre : PreCommit) (g : γ) :
    Except CatError Bool × γ :=
  match pre.replay with
  | none => (.ok false, g)
  | some obligation =>
    match guard with
    | none => (.error (.missingRelayContext "catreplay" "replay_guard"), g)
    | some guard =>
      let (seen, g) := guard.checkAndRecord obligation.cti g
      (judgeReuse obligation seen, g)

end MoqtValidator

/-- The commit phase over given operations of the two stores: the proof's identifier first,
    the `cti` second, and nothing after a failure. -/
def PreCommit.commitWith {σ γ : Type} (pre : PreCommit) (jtiStep : σ → Except CatError Unit × σ)
    (replayStep : γ → Except CatError Bool × γ) (s : σ) (g : γ) :
    Except CatError AuthorizedRequest × σ × γ :=
  match jtiStep s with
  | (.error e, s) => (.error e, s, g)
  | (.ok (), s) =>
    match replayStep g with
    | (.error e, g) => (.error e, s, g)
    | (.ok reuseDetected, g) => (.ok (pre.finalize reuseDetected), s, g)

/-- The stores a relay shares between its calls. -/
structure RelayStores (σ γ : Type) where
  jti : σ
  guard : γ
  blockList : Option CatPorBlockList

namespace MoqtValidator

variable {H : Host} {σ γ : Type} (v : MoqtValidator σ)

/-- The stores may have changed since the decision; that a key or a `cti` is new is found out here.
    -/
def commit (env : Ambient) (pre : PreCommit) (guard : Option (ReplayGuard γ)) (s : σ) (g : γ) :
    Except CatError AuthorizedRequest × σ × γ :=
  pre.commitWith (v.commitJti env pre) (commitReplay guard pre) s g

/-- Without a replay guard, and without a block list. -/
def authorize (env : Ambient) (token : ValidatedToken) (ctx : RelayRequestContext H)
    (st : RelayStores σ γ) : Except CatError AuthorizedRequest × RelayStores σ γ :=
  match (v.authorizePrecommit env token ctx false none).1 with
  | .error e => (.error e, st)
  | .ok pre =>
    let (r, s, g) := v.commit env pre (none : Option (ReplayGuard γ)) st.jti st.guard
    (r, { st with jti := s, guard := g })

/-- The block list is kept as it was left, also when the request is refused further on. -/
def authorizeWithReplay (env : Ambient) (token : ValidatedToken) (ctx : RelayRequestContext H)
    (guard : ReplayGuard γ) (st : RelayStores σ γ) :
    Except CatError AuthorizedRequest × RelayStores σ γ :=
  match v.authorizePrecommit env token ctx true st.blockList with
  | (.error e, blockList) => (.error e, { st with blockList })
  | (.ok pre, blockList) =>
    let (r, s, g) := v.commit env pre (some guard) st.jti st.guard
    (r, ⟨s, g, blockList⟩)

end MoqtValidator
end Cat
