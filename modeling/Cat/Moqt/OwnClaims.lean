import Cat.Moqt.Knowledge
import Cat.Moqt.RelaySettings

/-!
# What authorization comes to

The results so far say what an authorized request has passed, one guard at a time. Here the guards
are put together and the converse is added: `authorized_iff` is the decision of `authorize`
and of `authorize_with_replay`, exactly. It is stated in terms of the claims of the token, of the
request and of the stores as they are found, so that whoever argues about all requests that a token
admits has one condition to quantify over, and no pipeline.

What stands out is what the condition does not mention. The composites of the token are not in it:
they were judged once, by the claim validator, before there was a request. Neither is the altitude,
and an empty list of networks or places is left out as well (`CatClaims.judged`).
-/

set_option autoImplicit false

namespace Cat

open Cbor

/-- What the pre-commit phase returns under a scope. -/
def CatToken.owing (t : CatToken) (scopeIndex : Nat) (replay : Option CatReplayObligation)
    (jtiCommit : Option (String × Int64)) : PreCommit :=
  { scopeIndex, renewal := t.request.catr, revalidation := t.moqt.moqtReval, jtiCommit, replay }

namespace MoqtValidator

variable {H : Host} {σ γ : Type}

/-- The token's own claims admit the request, on a relay with these demands and stores. -/
structure OwnClaimsAdmit (v : MoqtValidator σ) (guard : Option (ReplayGuard γ)) (env : Ambient)
    (token : ValidatedToken) (st : RelayStores σ γ) (ctx : RelayRequestContext H) : Prop where
  demands : v.DemandsMet token.claims ctx
  version : (token.claims.cat.catv.getD 0).toNat ≤ 1
  restrictions : RestrictionsMet token.claims.cat.judged ctx
  /-- A list that names addresses asks for an address, whatever else it names; so for systems. -/
  networks : ∀ nips ∈ nonempty? token.claims.cat.catnip,
    (nips.any (·.isIpBased) = true → ctx.peerIp.isSome) ∧
      (nips.any (·.isAsnBased) = true → ctx.peerAsn.isSome)
  catpor : ∀ catpor ∈ token.claims.cat.catpor, CatporMet env catpor (st.blockListFor guard)
  catreplay : ∃ reused, ∀ mode ∈ token.claims.cat.catreplay,
    CatreplayMet token.claims guard st.guard reused mode
  scope : ∃ scopes ∈ token.claims.moqt.moqt, ∃ scope ∈ scopes, scopeMatches scope ctx = true
  proof : ∀ cnf ∈ token.claims.dpop.cnf, ∃ validator proof,
    v.ProofAccepted env token ctx cnf validator proof ∧
      ∀ key iat, v.commitKeyOf validator proof cnf token.claims.core.iss = some (key, iat) →
        (validator.jtiStore.checkAndInsert env.now key iat st.jti).1 = .ok ()

variable {v : MoqtValidator σ} {guard : Option (ReplayGuard γ)} {env : Ambient}
  {token : ValidatedToken} {st : RelayStores σ γ} {ctx : RelayRequestContext H}

/-! ## The guards, both ways

Each guard as an equivalence. Those of `EnforceSpec` say what a request has passed, which is
what safety needs; here it also matters that a guard refuses nothing else.
-/

/-- Every action has a number in range. -/
theorem checkActions_ok (scope : MoqtScope) : checkActions scope = .ok () := by
  have hnone : scope.actions.find? (fun a => !(0 ≤ a.toI32.toInt && a.toI32.toInt ≤ 8)) = none := by
    refine List.find?_eq_none.mpr fun a _ => ?_
    cases a <;> decide
  unfold checkActions
  rw [hnone]

theorem checkRestrictions_iff {t : CatToken} {u : Unit} :
    v.checkRestrictions t ctx = .ok u ↔
      v.DemandsMet t ctx ∧ (t.cat.catv.getD 0).toNat ≤ 1 ∧ RestrictionsMet t.cat.judged ctx ∧
        ∀ nips ∈ nonempty? t.cat.catnip,
          (nips.any (·.isIpBased) = true → ctx.peerIp.isSome) ∧
            (nips.any (·.isAsnBased) = true → ctx.peerAsn.isSome) := by
  constructor
  · intro h
    refine ⟨demandsMet_of_checkRestrictions h, ?_, checkRestrictions_ok h, ?_⟩
    · unfold checkRestrictions at h
      simp only [Except.bind_eq_ok, Except.guard_eq_ok] at h
      obtain ⟨_, -, hcatv, -⟩ := h
      exact not_lt.mp hcatv
    · unfold checkRestrictions at h
      simp only [Except.bind_eq_ok, Except.guard_eq_ok] at h
      obtain ⟨_, -, -, _, -, -, -, _, -, _, -, _, -, _, -, _, hnip, -⟩ := h
      intro nips hnips
      obtain ⟨hips, hasns, -⟩ := enforceCatnip_iff.mp hnip nips hnips
      exact ⟨hips, hasns⟩
  · rintro ⟨hdemands, hcatv, hmet, hnets⟩
    unfold checkRestrictions validateMoqtClaims
    simp only [Except.bind_eq_ok, Except.guard_eq_ok]
    refine ⟨(), ⟨(), hdemands.revalidation, ?_⟩, not_lt.mpr hcatv, (), hdemands.audience, ?_, ?_,
      (), enforceCatalpn_ok.mpr hmet.catalpn, (), requireCatu_ok.mpr hmet.catu,
      (), requireCatm_ok.mpr hmet.catm, (), validateAllHeaders_ok.mpr hmet.cath, (), ?_, ?_⟩
    · exact Except.forM_eq_ok.mpr fun scope _ => checkActions_ok scope
    · rw [Bool.and_eq_true, not_and, Bool.not_eq_true, Option.isNone_eq_false_iff]
      exact hdemands.dpop
    · rw [Bool.and_eq_true, not_and, Bool.not_eq_true, Option.isNone_eq_false_iff]
      exact hdemands.cattpk
    · refine enforceCatnip_iff.mpr fun nips hnips => ?_
      exact ⟨(hnets nips hnips).1, (hnets nips hnips).2,
        List.any_eq_true.mpr (hmet.catnip nips hnips)⟩
    · exact enforceGeo_iff.mpr ⟨hmet.catgeoiso3166, hmet.catgeocoord, hmet.geohash⟩

theorem checkCatpor_iff {t : CatToken} {blockList : Option CatPorBlockList} {u : Unit} :
    (checkCatpor env t blockList).1 = .ok u ↔
      ∀ catpor ∈ t.cat.catpor, CatporMet env catpor blockList := by
  refine ⟨checkCatpor_ok, fun h => ?_⟩
  unfold checkCatpor
  cases hclaim : t.cat.catpor with
  | none => rfl
  | some catpor =>
    obtain ⟨list, draw, rfl, hopen, hdraw, hdrawn⟩ := h catpor hclaim
    rw [Option.isSome_some, if_pos rfl]
    show (enforceCatpor env t list).1 = .ok u
    unfold enforceCatpor
    rw [hclaim]
    dsimp only
    rcases hblocked : list.isBlocked env.utcNow catpor.id with ⟨blocked, list'⟩
    rw [hblocked] at hopen
    obtain rfl : blocked = false := hopen
    rw [hdraw]
    dsimp only
    rw [hdrawn]
    rfl

theorem matchScopeIndex_isSome {t : CatToken} :
    (∃ i, matchScopeIndex t ctx = some i) ↔
      ∃ scopes ∈ t.moqt.moqt, ∃ scope ∈ scopes, scopeMatches scope ctx = true := by
  unfold matchScopeIndex
  cases t.moqt.moqt with
  | none => simp
  | some scopes =>
    rw [Option.bind_some, ← Option.isSome_iff_exists, List.findIdx?_isSome, List.any_eq_true]
    simp

/-! ## The obligations and the stores

Whether the stores take what is owed depends on what they hold, so the condition is on the
stores as the call finds them. A call for which nothing is owed does not look at them.
-/

/-- Nothing is owed without a mode that asks for a guard. -/
theorem replayObligation_none {t : CatToken} {configured : Bool}
    (h : ∀ mode ∈ t.cat.catreplay, mode = .permitted) :
    replayObligation t configured = .ok none := by
  unfold replayObligation
  cases hmode : t.cat.catreplay with
  | none => rfl
  | some mode =>
    obtain rfl := h mode hmode
    rfl

/-- What `catreplay` asks for is owed and paid exactly where its mode is met. -/
theorem catreplay_iff (pre : PreCommit) :
    (∃ obligation, replayObligation token.claims guard.isSome = .ok obligation ∧
        ∃ reused, (commitReplay guard { pre with replay := obligation } st.guard).1 = .ok reused) ↔
      ∃ reused, ∀ mode ∈ token.claims.cat.catreplay,
        CatreplayMet token.claims guard st.guard reused mode := by
  constructor
  · rintro ⟨obligation, hob, reused, hpaid⟩
    refine ⟨reused, fun mode hmode => ?_⟩
    rcases replayObligation_some hmode hob with rfl | ⟨cti, hcti, ⟨rfl, rfl⟩ | ⟨rfl, rfl⟩⟩
    · exact trivial
    · obtain ⟨G, seen, hG, hseen, hpass⟩ := commitReplay_ok rfl (Prod.ext hpaid rfl)
      cases hpass with
      | prohibited => exact ⟨G, cti, hG, hcti, congrArg Prod.fst hseen⟩
    · obtain ⟨G, seen, hG, hseen, hpass⟩ := commitReplay_ok rfl (Prod.ext hpaid rfl)
      cases hpass with
      | reuseDetection => exact ⟨G, cti, hG, hcti, congrArg Prod.fst hseen⟩
  · rintro ⟨reused, hmet⟩
    cases hmode : token.claims.cat.catreplay with
    | none =>
      exact ⟨none, replayObligation_none (by simp [hmode]), false, rfl⟩
    | some mode =>
      have hmode' := hmet mode hmode
      cases mode with
      | permitted =>
        exact ⟨none, replayObligation_none (by simp [hmode]), false, rfl⟩
      | prohibited =>
        obtain ⟨G, cti, rfl, hcti, hseen⟩ := hmode'
        refine ⟨some (.prohibited cti), ?_, false, ?_⟩
        · unfold replayObligation
          rw [hmode]
          exact Except.map_eq_ok.mpr ⟨cti, requireCti_ok.mpr ⟨rfl, hcti⟩, rfl⟩
        · show judgeReuse (.prohibited cti) (G.checkAndRecord cti st.guard).1 = .ok false
          rw [hseen]
          rfl
      | reuseDetection =>
        obtain ⟨G, cti, rfl, hcti, hseen⟩ := hmode'
        refine ⟨some (.reuseDetection cti), ?_, reused, ?_⟩
        · unfold replayObligation
          rw [hmode]
          exact Except.map_eq_ok.mpr ⟨cti, requireCti_ok.mpr ⟨rfl, hcti⟩, rfl⟩
        · exact hseen

/-- A proof is owed and its identifier taken exactly where it is accepted and fresh. -/
theorem dpopCommit_iff (pre : PreCommit) :
    (∃ c, v.dpopCommit env token ctx = .ok c ∧
        (v.commitJti env { pre with jtiCommit := c } st.jti).1 = .ok ()) ↔
      ∀ cnf ∈ token.claims.dpop.cnf, ∃ validator proof,
        v.ProofAccepted env token ctx cnf validator proof ∧
          ∀ key iat, v.commitKeyOf validator proof cnf token.claims.core.iss = some (key, iat) →
            (validator.jtiStore.checkAndInsert env.now key iat st.jti).1 = .ok () := by
  unfold dpopCommit
  cases hcnf : token.claims.dpop.cnf with
  | none => simp [commitJti]
  | some cnf =>
    simp only [Option.mem_def, Option.some.injEq, forall_eq']
    -- the key that is owed is the key of the proof, and it is there the store is asked for it
    have hstore : ∀ {validator : DpopValidator σ} {c : Option (String × Int64)},
        v.dpopValidator = some validator →
          ((v.commitJti env { pre with jtiCommit := c } st.jti).1 = .ok () ↔
            ∀ key iat, c = some (key, iat) →
              (validator.jtiStore.checkAndInsert env.now key iat st.jti).1 = .ok ()) := by
      intro validator c hconfigured
      unfold commitJti
      rw [hconfigured]
      cases c with
      | none => simp
      | some entry =>
        obtain ⟨key, iat⟩ := entry
        simp only [Option.some.injEq, Prod.mk.injEq]
        exact ⟨fun h key' iat' heq => heq.1 ▸ heq.2 ▸ h, fun h => h key iat ⟨rfl, rfl⟩⟩
    constructor
    · rintro ⟨c, hc, hpaid⟩
      obtain ⟨validator, proof, haccepted, rfl⟩ := checkProof_ok.mp hc
      exact ⟨validator, proof, haccepted, (hstore haccepted.configured).mp hpaid⟩
    · rintro ⟨validator, proof, haccepted, hfresh⟩
      exact ⟨_, checkProof_ok.mpr ⟨validator, proof, haccepted, rfl⟩,
        (hstore haccepted.configured).mpr hfresh⟩

theorem commitWith_iff {pre : PreCommit} {jtiStep : σ → Except CatError Unit × σ}
    {replayStep : γ → Except CatError Bool × γ} {s : σ} {g : γ} :
    (∃ r, (pre.commitWith jtiStep replayStep s g).1 = .ok r) ↔
      (jtiStep s).1 = .ok () ∧ ∃ reused, (replayStep g).1 = .ok reused := by
  unfold PreCommit.commitWith
  rcases jtiStep s with ⟨entered, s'⟩
  cases entered with
  | error e => simp
  | ok =>
    rcases replayStep g with ⟨recorded, g'⟩
    cases recorded with
    | error e => simp
    | ok reused => simp

/-- A call is decided, and then paid for. -/
theorem authorizeCall_iff :
    (∃ r, (v.authorizeCall guard env token ctx st).1 = .ok r) ↔
      ∃ pre, (v.authorizePrecommit env token ctx guard.isSome (st.blockListFor guard)).1 = .ok pre ∧
        ∃ r, (v.commit env pre guard st.jti st.guard).1 = .ok r := by
  constructor
  · rintro ⟨r, h⟩
    obtain ⟨pre, hpre, hcommit⟩ := authorizeCall_ok h
    exact ⟨pre, hpre, r, hcommit⟩
  · rintro ⟨pre, hpre, r, hcommit⟩
    refine ⟨r, ?_⟩
    cases guard with
    | none =>
      unfold authorizeCall authorize
      dsimp only
      rw [show (v.authorizePrecommit env token ctx false none).1 = .ok pre from hpre]
      exact hcommit
    | some G =>
      unfold authorizeCall authorizeWithReplay
      dsimp only
      rcases hout : v.authorizePrecommit env token ctx true st.blockList with ⟨out, blockList⟩
      have hpre' : out = .ok pre := by
        rw [← hpre]
        exact (congrArg Prod.fst hout).symm
      rw [hpre']
      exact hcommit

/-- **When a request is authorized**: exactly if the token's own claims admit it. -/
theorem authorized_iff :
    (∃ r, (v.authorizeCall guard env token ctx st).1 = .ok r) ↔
      v.OwnClaimsAdmit guard env token st ctx := by
  rw [authorizeCall_iff]
  constructor
  · rintro ⟨pre, hpre, r, hcommit⟩
    obtain ⟨hrestrictions, hcatpor, hob⟩ := authorizePrecommit_ok hpre
    obtain ⟨hreplay, hscope, hdpop⟩ := obligations_ok hob
    obtain ⟨hjti, hreplayed⟩ := commitWith_iff.mp ⟨r, hcommit⟩
    obtain ⟨hdemands, hversion, hmet, hnets⟩ := checkRestrictions_iff.mp hrestrictions
    exact {
      demands := hdemands
      version := hversion
      restrictions := hmet
      networks := hnets
      catpor := checkCatpor_iff.mp hcatpor
      catreplay := (catreplay_iff pre).mp ⟨pre.replay, hreplay, hreplayed⟩
      scope := matchScopeIndex_isSome.mp ⟨pre.scopeIndex, hscope⟩
      proof := (dpopCommit_iff pre).mp ⟨pre.jtiCommit, hdpop, hjti⟩ }
  · intro h
    obtain ⟨i, hscope⟩ := matchScopeIndex_isSome.mpr h.scope
    obtain ⟨obligation, hob, hreplayed⟩ :=
      (catreplay_iff (token.claims.owing i none none)).mpr h.catreplay
    obtain ⟨c, hc, hentered⟩ :=
      (dpopCommit_iff (token.claims.owing i obligation none)).mpr h.proof
    refine ⟨token.claims.owing i obligation c, ?_, commitWith_iff.mpr ⟨hentered, hreplayed⟩⟩
    have hrestrictions : v.checkRestrictions token.claims ctx = .ok () :=
      checkRestrictions_iff.mpr ⟨h.demands, h.version, h.restrictions, h.networks⟩
    have hcatpor : (checkCatpor env token.claims (st.blockListFor guard)).1 = .ok () :=
      checkCatpor_iff.mpr h.catpor
    have hobligations : v.obligations env token ctx guard.isSome =
        .ok (token.claims.owing i obligation c) := by
      unfold obligations
      refine Except.bind_eq_ok.mpr ⟨obligation, hob, ?_⟩
      rw [hscope]
      exact Except.bind_eq_ok.mpr ⟨c, hc, rfl⟩
    unfold authorizePrecommit
    rw [hrestrictions]
    dsimp only
    rcases hdrawn : checkCatpor env token.claims (st.blockListFor guard) with ⟨verdict, blockList⟩
    rw [hdrawn] at hcatpor
    obtain rfl : verdict = .ok () := hcatpor
    exact hobligations

/-! ## Other requests that are admitted

From one request that the claims admit there are others: the part of it that the claims are about,
and the same request from a peer that speaks another of the protocols or asks with another of the
methods that the claims list.
-/

theorem OwnClaimsAdmit.relevantTo (h : v.OwnClaimsAdmit guard env token st ctx) :
    v.OwnClaimsAdmit guard env token st (ctx.relevantTo token.claims) := by
  rw [← authorized_iff, authorizeCall_relevantTo]
  exact authorized_iff.mpr h

/-- Nothing in a proof is about the protocol or the method. -/
theorem ProofAccepted.withPeer {cnf : ConfirmationClaim} {validator : DpopValidator σ}
    {proof : DpopProof H} (h : v.ProofAccepted env token ctx cnf validator proof)
    (alpn : Option Bytes) (method : Option String) :
    v.ProofAccepted env token { ctx with peerTlsAlpn := alpn, requestMethod := method } cnf
      validator proof :=
  ⟨h.presented, h.configured, h.accepts, h.target, h.expected, h.resource, h.shape, h.nonce⟩

theorem OwnClaimsAdmit.withPeer (h : v.OwnClaimsAdmit guard env token st ctx)
    {alpn : Option Bytes} {method : Option String}
    (halpn : AnyOf (alpn = some ·) token.claims.cat.catalpn)
    (hmethod : AnyOf (method = some ·) token.claims.cat.catm) :
    v.OwnClaimsAdmit guard env token st
      { ctx with peerTlsAlpn := alpn, requestMethod := method } where
  demands := ⟨h.demands.revalidation, h.demands.audience, h.demands.dpop, h.demands.cattpk⟩
  version := h.version
  restrictions := ⟨halpn, h.restrictions.catu, hmethod, h.restrictions.cath,
    h.restrictions.catnip, h.restrictions.catgeoiso3166, h.restrictions.catgeocoord,
    h.restrictions.geohash, h.restrictions.catgeoalt⟩
  networks := h.networks
  catpor := h.catpor
  catreplay := h.catreplay
  scope := h.scope
  proof := by
    intro cnf hcnf
    obtain ⟨validator, proof, haccepted, hentered⟩ := h.proof cnf hcnf
    exact ⟨validator, proof, haccepted.withPeer alpn method, hentered⟩

end MoqtValidator
end Cat
