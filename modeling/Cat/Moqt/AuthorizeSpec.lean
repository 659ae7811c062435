import Cat.Moqt.Authorize
import Cat.Token.EnforceSpec

/-!
# What an authorized request has passed

What the steps of `authorize` mean, each step by itself. The pipeline is a sequence of checks
that throw, and the statements that use it are about calls that returned: from `.ok` one has to
get at what every check saw. Each lemma here does that for one function, as an equivalence where
the function decides something and as an implication where it computes, and names the result:
`ProofAccepted` for the proof of possession, `RestrictionsMet` for the claims on the request,
`Passes` for the answer of the guard.

The claims on the request are not all judged. `catgeoalt` is read by no guard, and a list that
is empty is skipped as if it were absent. `CatClaims.judged` is the claims as the guards see
them, and `RestrictionsMet.iff_allJudged` says exactly what that leaves open.

`authorizeCall` is the two entry points in one: with a guard it is the one that takes a replay
context. `authorizeCall_ok` takes a call that returned apart into the decision and the two
halves of the commit, and is where most proofs about whole calls begin.
-/

set_option autoImplicit false

namespace Cat

open Cbor

/-! ## Shapes

Whether an action addresses a namespace and a track, and what a URI or an authorization context
has to name for it.
-/

/-- A context that names what the action addresses, and nothing more. -/
def MoqtResourceShape.Addresses (shape : MoqtResourceShape) (namespaces : List Bytes)
    (track : Bytes) : Prop :=
  match shape with
  | .endpoint => namespaces = [] ∧ track = []
  | .namespaceTuple => namespaces ≠ [] ∧ track = []
  | .track => namespaces ≠ [] ∧ track ≠ []

theorem enforceActxShape_ok {action : MoqtAction} {actx : AuthorizationContext} {u : Unit} :
    enforceActxShape action actx = .ok u ↔ action.resourceShape.Addresses actx.tns actx.tn := by
  unfold enforceActxShape MoqtResourceShape.Addresses
  cases action.resourceShape with
  | endpoint =>
    dsimp only
    rw [Except.guard_eq_ok, Except.check_eq_ok]
    simp
  | namespaceTuple =>
    dsimp only
    rw [Except.guard_eq_ok, Except.check_eq_ok]
    simp
  | track =>
    dsimp only
    rw [Except.check_eq_ok]
    simp

/-- A resource URI of the right shape. -/
def MoqtResourceUri.HasShape (shape : MoqtResourceShape) (uri : MoqtResourceUri) : Prop :=
  match shape with
  | .endpoint => uri.namespaces = none ∧ uri.track = none
  | .namespaceTuple => uri.namespaces.isSome = true ∧ uri.track = none
  | .track => uri.namespaces.isSome = true ∧ uri.track.isSome = true

theorem enforceResourceShape_ok {action : MoqtAction} {uri : MoqtResourceUri} {u : Unit} :
    enforceResourceShape action uri = .ok u ↔ uri.HasShape action.resourceShape := by
  unfold enforceResourceShape MoqtResourceUri.HasShape
  cases action.resourceShape with
  | endpoint =>
    dsimp only
    rw [Except.check_eq_ok]
    cases uri.namespaces <;> cases uri.track <;> simp
  | namespaceTuple =>
    dsimp only
    rw [Except.guard_eq_ok, Except.check_eq_ok]
    cases uri.namespaces <;> cases uri.track <;> simp
  | track =>
    dsimp only
    rw [Except.check_eq_ok]
    cases uri.namespaces <;> cases uri.track <;> simp

namespace MoqtValidator

variable {H : Host} {σ γ : Type} (v : MoqtValidator σ)

/-! ## Proof of possession

Everything that the pipeline has made sure of when it is through with the proof, in one
structure, whichever function has checked it.
-/

/-- Everything that is established about the proof of an authorized request. -/
structure ProofAccepted (env : Ambient) (token : ValidatedToken) (ctx : RelayRequestContext H)
    (cnf : ConfirmationClaim) (validator : DpopValidator σ) (proof : DpopProof H) : Prop where
  presented : ctx.dpopProof = some proof
  configured : v.dpopValidator = some validator
  accepts : validator.Accepts env.now proof ctx.action cnf.jkt
    (some (computeAccessTokenHash H token.serialized))
  target : ctx.action.resourceShape ≠ .endpoint →
    proof.payload.actx.tns = ctx.namespaces ∧ proof.payload.actx.tn = ctx.track
  expected : ∀ r ∈ v.expectedResource, proof.payload.actx.resource = some r
  resource : ∀ r ∈ proof.payload.actx.resource, ∃ uri, parseMoqtResourceUri H r = .ok uri ∧
    uri.endpoint = ctx.relayEndpoint ∧ (∀ ns ∈ uri.namespaces, proof.payload.actx.tns = ns) ∧
      (∀ tn ∈ uri.track, proof.payload.actx.tn = tn) ∧ uri.HasShape ctx.action.resourceShape
  shape : ctx.action.resourceShape.Addresses proof.payload.actx.tns proof.payload.actx.tn
  nonce : ∀ n ∈ ctx.expectedDpopNonce, proof.payload.nonce = some n

section
variable {v} {env : Ambient} {ctx : RelayRequestContext H} {proof : DpopProof H} {u : Unit}

theorem checkActxTarget_ok : checkActxTarget proof ctx = .ok u ↔
    (ctx.action.resourceShape ≠ .endpoint →
      proof.payload.actx.tns = ctx.namespaces ∧ proof.payload.actx.tn = ctx.track) := by
  unfold checkActxTarget
  cases ctx.action.resourceShape with
  | endpoint => simp
  | namespaceTuple =>
    by_cases hns : proof.payload.actx.tns = ctx.namespaces
    · by_cases htn : proof.payload.actx.tn = ctx.track
      · simp [hns, htn]
      · simp [hns, htn]
    · simp [hns]
  | track =>
    by_cases hns : proof.payload.actx.tns = ctx.namespaces
    · by_cases htn : proof.payload.actx.tn = ctx.track
      · simp [hns, htn]
      · simp [hns, htn]
    · simp [hns]

theorem checkExpectedResource_ok : v.checkExpectedResource proof = .ok u ↔
    ∀ r ∈ v.expectedResource, proof.payload.actx.resource = some r := by
  unfold checkExpectedResource
  cases v.expectedResource with
  | none => simp
  | some expected =>
    cases proof.payload.actx.resource with
    | none => simp
    | some resource =>
      by_cases h : resource = expected
      · simp [h]
      · simp [h]

theorem checkResourceUri_ok : checkResourceUri proof ctx = .ok u ↔
    ∀ r ∈ proof.payload.actx.resource, ∃ uri, parseMoqtResourceUri H r = .ok uri ∧
      uri.endpoint = ctx.relayEndpoint ∧ (∀ ns ∈ uri.namespaces, proof.payload.actx.tns = ns) ∧
        (∀ tn ∈ uri.track, proof.payload.actx.tn = tn) ∧
        uri.HasShape ctx.action.resourceShape := by
  unfold checkResourceUri
  cases proof.payload.actx.resource with
  | none => simp
  | some resource =>
    simp only [Except.bind_eq_ok, Except.guard_eq_ok, enforceResourceShape_ok, Option.any_eq_true,
      Option.mem_def, Option.some.injEq, forall_eq', decide_eq_true_eq, not_exists, not_and,
      not_not]

theorem checkNonce_ok : checkNonce proof ctx = .ok u ↔
    ∀ n ∈ ctx.expectedDpopNonce, proof.payload.nonce = some n := by
  unfold checkNonce
  cases ctx.expectedDpopNonce with
  | none => simp
  | some expected =>
    cases proof.payload.nonce with
    | none => simp
    | some actual =>
      by_cases h : actual = expected
      · simp [h]
      · simp [h]

/-- **The proof of a request that passed**, and the store key it leaves. -/
theorem checkProof_ok {token : ValidatedToken} {cnf : ConfirmationClaim}
    {c : Option (String × Int64)} :
    v.checkProof env token ctx cnf = .ok c ↔ ∃ validator proof,
      v.ProofAccepted env token ctx cnf validator proof ∧
        c = v.commitKeyOf validator proof cnf token.claims.core.iss := by
  unfold checkProof
  cases hp : ctx.dpopProof with
  | none =>
    constructor
    · intro h
      exact absurd h (by simp)
    · rintro ⟨_, _, h, _⟩
      exact absurd (hp.symm.trans h.presented) (by simp)
  | some proof =>
    cases hv : v.dpopValidator with
    | none =>
      constructor
      · intro h
        exact absurd h (by simp)
      · rintro ⟨_, _, h, _⟩
        exact absurd (hv.symm.trans h.configured) (by simp)
    | some validator =>
      simp only [Except.bind_eq_ok, Except.guard_eq_ok, DpopProof.jwkThumbprint_eq,
        checkActxTarget_ok, checkExpectedResource_ok, checkResourceUri_ok, enforceActxShape_ok,
        checkNonce_ok, Except.pure_eq_ok, DpopValidator.validateWithoutJtiCommit_ok]
      constructor
      · rintro ⟨t, ht, hmatch, _, hacc, _, htarget, _, hexp, _, hres, _, hshape, _, hnonce, hc⟩
        exact ⟨validator, proof, ⟨hp, hv, hacc, htarget, hexp, hres, hshape, hnonce⟩, hc.symm⟩
      · rintro ⟨validator', proof', h, hc⟩
        obtain rfl := Option.some.inj (hp.symm.trans h.presented)
        obtain rfl := Option.some.inj (hv.symm.trans h.configured)
        refine ⟨cnf.jkt, h.accepts.thumbprint_eq, ?_, (), h.accepts, (), h.target, (), h.expected,
          (), h.resource, (), h.shape, (), h.nonce, hc.symm⟩
        simp [confirmationMatchesThumbprint, constantTimeEq_iff]

end

/-! ## Before the commit

The obligations that go with the decision. A mode of `catreplay` other than permission to replay
needs a guard, and the decision has already looked whether there is one.
-/

section
variable {v} {env : Ambient} {token : ValidatedToken} {ctx : RelayRequestContext H}
  {configured : Bool} {blockList : Option CatPorBlockList} {pre : PreCommit}

theorem authorizePrecommit_ok
    (h : (v.authorizePrecommit env token ctx configured blockList).1 = .ok pre) :
    v.checkRestrictions token.claims ctx = .ok () ∧
      (checkCatpor env token.claims blockList).1 = .ok () ∧
      v.obligations env token ctx configured = .ok pre := by
  unfold authorizePrecommit at h
  split at h
  · exact absurd h (by simp)
  · rename_i hrestrictions
    split at h
    · exact absurd h (by simp)
    · rename_i hcatpor
      exact ⟨hrestrictions, by rw [hcatpor], h⟩

theorem obligations_ok (h : v.obligations env token ctx configured = .ok pre) :
    replayObligation token.claims configured = .ok pre.replay ∧
      matchScopeIndex token.claims ctx = some pre.scopeIndex ∧
      v.dpopCommit env token ctx = .ok pre.jtiCommit := by
  unfold obligations at h
  obtain ⟨replay, hreplay, h⟩ := Except.bind_eq_ok.mp h
  split at h
  · exact absurd h (by simp)
  · rename_i hscope
    obtain ⟨c, hc, hpre⟩ := Except.bind_eq_ok.mp h
    obtain rfl := Except.pure_eq_ok.mp hpre
    exact ⟨hreplay, hscope, hc⟩

/-- A guard is configured, and the token has the identifier that it is to record. -/
theorem requireCti_ok {t : CatToken} {configured : Bool} {missing : String} {cti : Bytes} :
    requireCti t configured missing = .ok cti ↔
      configured = true ∧ t.core.cti = some cti := by
  unfold requireCti
  cases configured with
  | false => simp
  | true =>
    cases t.core.cti with
    | none => simp
    | some c => simp

/-- A mode that asks for a guard is owed to it. -/
theorem replayObligation_some {t : CatToken} {mode : ReplayProtection}
    {obligation : Option CatReplayObligation} (hmode : t.cat.catreplay = some mode)
    (h : replayObligation t configured = .ok obligation) :
    mode = .permitted ∨ ∃ cti, t.core.cti = some cti ∧
      (mode = .prohibited ∧ obligation = some (.prohibited cti) ∨
        mode = .reuseDetection ∧ obligation = some (.reuseDetection cti)) := by
  unfold replayObligation at h
  rw [hmode] at h
  cases mode with
  | permitted => exact .inl rfl
  | prohibited =>
    obtain ⟨cti, hcti, rfl⟩ := Except.map_eq_ok.mp h
    exact .inr ⟨cti, (requireCti_ok.mp hcti).2, .inl ⟨rfl, rfl⟩⟩
  | reuseDetection =>
    obtain ⟨cti, hcti, rfl⟩ := Except.map_eq_ok.mp h
    exact .inr ⟨cti, (requireCti_ok.mp hcti).2, .inr ⟨rfl, rfl⟩⟩

/-- For a token that is bound to a key, the commit is the key of a proof that passed every check. -/
theorem dpopCommit_ok {c : Option (String × Int64)} {cnf : ConfirmationClaim}
    (hcnf : token.claims.dpop.cnf = some cnf) (h : v.dpopCommit env token ctx = .ok c) :
    ∃ validator proof, v.ProofAccepted env token ctx cnf validator proof ∧
      c = v.commitKeyOf validator proof cnf token.claims.core.iss := by
  rw [dpopCommit, hcnf] at h
  exact checkProof_ok.mp h

theorem enforceCatalpn_ok {t : CatToken} {alpn : Option Bytes} {u : Unit} :
    enforceCatalpn t alpn = .ok u ↔ AnyOf (alpn = some ·) t.cat.catalpn := by
  unfold enforceCatalpn AnyOf
  cases t.cat.catalpn with
  | none => simp
  | some alpns =>
    cases alpn with
    | none => simp
    | some peer =>
      simp only [Option.mem_def, Option.some.injEq, forall_eq']
      by_cases h : peer ∈ alpns
      · simp [h]
      · simp [h]

theorem requireCatu_ok {t : CatToken} {u : Unit} : requireCatu t ctx = .ok u ↔
    ∀ rules ∈ t.cat.catu, CatuMet H rules ctx.requestUri := by
  unfold requireCatu
  cases hc : t.cat.catu with
  | none => simp
  | some rules =>
    cases ctx.requestUri with
    | none => simp [CatuMet]
    | some uri =>
      rw [Option.isSome_some, if_pos rfl]
      exact enforceCatu_ok.trans (by rw [hc])

theorem requireCatm_ok {t : CatToken} {u : Unit} : requireCatm t ctx = .ok u ↔
    AnyOf (ctx.requestMethod = some ·) t.cat.catm := by
  unfold requireCatm
  cases hc : t.cat.catm with
  | none => simp [AnyOf]
  | some methods =>
    cases ctx.requestMethod with
    | none => simp [AnyOf]
    | some method =>
      rw [Option.isSome_some, if_pos rfl]
      exact validateMethod_ok.trans (by rw [hc])

theorem checkCatpor_ok {t : CatToken} {u : Unit} (h : (checkCatpor env t blockList).1 = .ok u) :
    ∀ catpor ∈ t.cat.catpor, CatporMet env catpor blockList := by
  intro catpor hcatpor
  unfold checkCatpor at h
  rw [if_pos (by rw [show t.cat.catpor = some catpor from hcatpor]; rfl)] at h
  cases blockList with
  | none => exact absurd h (by simp)
  | some list => exact enforceCatpor_ok h catpor hcatpor

end
end MoqtValidator

/-! ## The restrictions on a request

The guards in a row, from a result back to the conditions. Lists that a guard skips when they
are empty are the difference between the claims of the token and `judged`.
-/

section
variable {H : Host}

/-- The request meets every claim that restricts it. -/
structure RestrictionsMet (cat : CatClaims) (ctx : RelayRequestContext H) : Prop where
  catalpn : AnyOf (ctx.peerTlsAlpn = some ·) cat.catalpn
  catu : ∀ rules ∈ cat.catu, CatuMet H rules ctx.requestUri
  catm : AnyOf (ctx.requestMethod = some ·) cat.catm
  cath : ∀ rules ∈ cat.cath, CathMet H rules ctx.requestHeaders
  catnip : AnyOf (·.matchesPeer ctx.peerIp ctx.peerAsn = true) cat.catnip
  catgeoiso3166 : AnyOf (InCountry ctx.peerLocation) cat.catgeoiso3166
  catgeocoord : AnyOf (InZone H ctx.peerLocation) cat.catgeocoord
  geohash : AnyOf (InGeohash ctx.peerLocation) cat.geohash
  /-- Nothing in a request is an altitude. -/
  catgeoalt : cat.catgeoalt = none

/-- The claims that a guard judges: no altitude, and the lists that are skipped when they
    are empty only if they are not. -/
def CatClaims.judged (cat : CatClaims) : CatClaims :=
  { cat with
    catnip := nonempty? cat.catnip
    catgeoiso3166 := nonempty? cat.catgeoiso3166
    catgeocoord := nonempty? cat.catgeocoord
    geohash := nonempty? cat.geohash
    catgeoalt := none }

/-- Every restriction among the claims is judged. -/
structure CatClaims.AllJudged (cat : CatClaims) : Prop where
  catgeoalt : cat.catgeoalt = none
  catnip : ListsSome cat.catnip
  catgeoiso3166 : ListsSome cat.catgeoiso3166
  catgeocoord : ListsSome cat.catgeocoord
  geohash : ListsSome cat.geohash

/-- What the guards leave open. -/
theorem RestrictionsMet.iff_allJudged {cat : CatClaims} {ctx : RelayRequestContext H}
    (h : RestrictionsMet cat.judged ctx) : RestrictionsMet cat ctx ↔ cat.AllJudged := by
  constructor
  · intro hmet
    exact ⟨hmet.catgeoalt, hmet.catnip.listsSome, hmet.catgeoiso3166.listsSome,
      hmet.catgeocoord.listsSome, hmet.geohash.listsSome⟩
  · intro hall
    exact {
      catalpn := h.catalpn
      catu := h.catu
      catm := h.catm
      cath := h.cath
      catnip := (AnyOf.iff_listsSome h.catnip.of_nonempty?).mpr hall.catnip
      catgeoiso3166 :=
        (AnyOf.iff_listsSome h.catgeoiso3166.of_nonempty?).mpr hall.catgeoiso3166
      catgeocoord := (AnyOf.iff_listsSome h.catgeocoord.of_nonempty?).mpr hall.catgeocoord
      geohash := (AnyOf.iff_listsSome h.geohash.of_nonempty?).mpr hall.geohash
      catgeoalt := hall.catgeoalt }

/-- **The guards judge every other claim.** -/
theorem MoqtValidator.checkRestrictions_ok {σ : Type} {v : MoqtValidator σ} {t : CatToken}
    {ctx : RelayRequestContext H} {u : Unit} (h : v.checkRestrictions t ctx = .ok u) :
    RestrictionsMet t.cat.judged ctx := by
  unfold checkRestrictions at h
  simp only [Except.bind_eq_ok, Except.guard_eq_ok] at h
  obtain ⟨_, -, -, _, -, -, -, _, halpn, _, hcatu, _, hcatm, _, hcath, _, hnip, hgeo⟩ := h
  obtain ⟨hiso, hcoord, hhash⟩ := enforceGeo_ok hgeo
  refine ⟨enforceCatalpn_ok.mp halpn, requireCatu_ok.mp hcatu, requireCatm_ok.mp hcatm,
    validateAllHeaders_ok.mp hcath, ?_, hiso, hcoord, hhash, rfl⟩
  intro list hlist
  obtain ⟨hsome, hne⟩ := nonempty?_eq_some.mp hlist
  cases enforceCatnip_ok hnip with
  | inl hempty => exact absurd (Option.some.inj (hsome.symm.trans hempty)) hne
  | inr hany => exact hany list hsome

end

/-! ## The commit, and a whole call

A call that returned has decided, entered the key and come to the guard, with the states of the
stores in between.
-/

section
variable {σ γ : Type} {pre : PreCommit} {s s' : σ} {g g' : γ} {r : AuthorizedRequest}

/-- A commit that returned has done both halves, in order. -/
theorem PreCommit.commitWith_ok {jtiStep : σ → Except CatError Unit × σ}
    {replayStep : γ → Except CatError Bool × γ}
    (h : pre.commitWith jtiStep replayStep s g = (.ok r, s', g')) :
    ∃ reused, jtiStep s = (.ok (), s') ∧ replayStep g = (.ok reused, g') ∧
      r = pre.finalize reused := by
  unfold commitWith at h
  split at h
  · exact absurd (Prod.mk.inj h).1 (by simp)
  · rename_i hjti
    split at h
    · exact absurd (Prod.mk.inj h).1 (by simp)
    · rename_i hreplay
      obtain ⟨hr, hst⟩ := Prod.mk.inj h
      obtain ⟨rfl, rfl⟩ := Prod.mk.inj hst
      exact ⟨_, hjti, hreplay, (Except.ok.inj hr).symm⟩

/-- The guard's answers that pass, and what is reported of them. -/
inductive CatReplayObligation.Passes : CatReplayObligation → Bool → Bool → Prop where
  | prohibited (cti : Bytes) : Passes (.prohibited cti) false false
  | reuseDetection (cti : Bytes) (seen : Bool) : Passes (.reuseDetection cti) seen seen

theorem judgeReuse_ok {obligation : CatReplayObligation} {seen : Except CatError Bool}
    {reused : Bool} :
    MoqtValidator.judgeReuse obligation seen = .ok reused ↔
      ∃ b, seen = .ok b ∧ obligation.Passes b reused := by
  unfold MoqtValidator.judgeReuse
  cases obligation with
  | prohibited cti =>
    cases seen with
    | error e => simp [Except.bind]
    | ok b =>
      cases b with
      | false =>
        constructor
        · intro h
          obtain rfl := Except.ok.inj h
          exact ⟨false, rfl, .prohibited cti⟩
        · intro ⟨b, hb, hpass⟩
          cases hpass with
          | prohibited => rfl
      | true =>
        constructor
        · intro h
          exact absurd h (by simp [Except.bind])
        · intro ⟨b, hb, hpass⟩
          cases hpass with
          | prohibited => exact absurd (Except.ok.inj hb) (by simp)
  | reuseDetection cti =>
    constructor
    · intro h
      exact ⟨reused, h, .reuseDetection cti reused⟩
    · intro ⟨b, hb, hpass⟩
      cases hpass with
      | reuseDetection => exact hb

/-- Where something is owed there is a guard, and its answer passed. -/
theorem commitReplay_ok {guard : Option (ReplayGuard γ)} {obligation : CatReplayObligation}
    {reused : Bool} (hob : pre.replay = some obligation)
    (h : MoqtValidator.commitReplay guard pre g = (.ok reused, g')) :
    ∃ G seen, guard = some G ∧ G.checkAndRecord obligation.cti g = (.ok seen, g') ∧
      obligation.Passes seen reused := by
  unfold MoqtValidator.commitReplay at h
  rw [hob] at h
  cases guard with
  | none => exact absurd (Prod.mk.inj h).1 (by simp)
  | some G =>
    dsimp only at h
    obtain ⟨hjudge, hg⟩ := Prod.mk.inj h
    obtain ⟨seen, hseen, hpass⟩ := judgeReuse_ok.mp hjudge
    exact ⟨G, seen, rfl, Prod.ext hseen hg, hpass⟩

/-- The block list is part of the replay context. -/
def RelayStores.blockListFor (st : RelayStores σ γ) (guard : Option (ReplayGuard γ)) :
    Option CatPorBlockList := guard.bind fun _ => st.blockList

end

namespace MoqtValidator

variable {H : Host} {σ γ : Type} (v : MoqtValidator σ)

/-- `authorize`, or `authorize_with_replay` where there is a replay context. -/
def authorizeCall (guard : Option (ReplayGuard γ)) (env : Ambient) (token : ValidatedToken)
    (ctx : RelayRequestContext H) (st : RelayStores σ γ) :
    Except CatError AuthorizedRequest × RelayStores σ γ :=
  match guard with
  | none => v.authorize env token ctx st
  | some guard => v.authorizeWithReplay env token ctx guard st

/-- **A call that returned has decided and committed.** -/
theorem authorizeCall_ok {v : MoqtValidator σ} {guard : Option (ReplayGuard γ)} {env : Ambient}
    {token : ValidatedToken} {ctx : RelayRequestContext H} {st : RelayStores σ γ}
    {r : AuthorizedRequest} (h : (v.authorizeCall guard env token ctx st).1 = .ok r) :
    ∃ pre, (v.authorizePrecommit env token ctx guard.isSome (st.blockListFor guard)).1 = .ok pre ∧
      (v.commit env pre guard st.jti st.guard).1 = .ok r := by
  cases guard with
  | none =>
    unfold authorizeCall authorize at h
    dsimp only at h
    split at h
    · exact absurd h (by simp)
    · rename_i pre hpre
      exact ⟨pre, hpre, h⟩
  | some G =>
    unfold authorizeCall authorizeWithReplay at h
    dsimp only at h
    split at h
    · exact absurd h (by simp)
    · rename_i pre blockList hpre
      refine ⟨pre, ?_, h⟩
      show (v.authorizePrecommit env token ctx true st.blockList).1 = _
      rw [hpre]

end MoqtValidator
end Cat
