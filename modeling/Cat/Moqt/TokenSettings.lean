import Cat.Moqt.ProofBinding

/-!
# The settings a token carries

A token can carry DPoP settings of its own, `catdpop`: a window, whether proofs are to be
checked for reuse, and keys that must be understood. `authorize` goes by the settings that the
relay was configured with and does not read the token's (`authorizeCall_catdpop`). The token's
settings hold where the relay's are at least as strict, and the reuse check and the critical
keys nowhere else (`catdpop_honoured`).

That something is not read is shown by changing it: two tokens that differ in `catdpop` alone
fare alike, at every relay and with every request. From there it is a matter of comparing two
records of settings. A relay that wants tokens to be able to tighten its rules would have to
read them, and the theorem says what it can rely on until then.
-/

set_option autoImplicit false

namespace Cat

open Cbor

/-- The keys of `catdpop` that there is an implementation of. -/
def catdpopUnderstood : List Int64 := [catdpopCrit, catdpopWindow, catdpopHonorJti]

def CatDpopSettings.CritUnderstood (s : CatDpopSettings) : Prop :=
  ∀ keys ∈ s.crit, ∀ key ∈ keys, key ∈ catdpopUnderstood

section
variable {H : Host} {σ γ : Type}

/-- The settings hold of a request that was authorized: its proof is no older than the
    window, its identifier was checked if that is asked for, and nothing critical was
    passed over. -/
structure CatDpopSettings.Honoured (s : CatDpopSettings) (v : MoqtValidator σ)
    (guard : Option (ReplayGuard γ)) (env : Ambient) (token : ValidatedToken)
    (ctx : RelayRequestContext H) (st : RelayStores σ γ) : Prop where
  window : ∀ w ∈ s.window, ∀ proof ∈ ctx.dpopProof,
    env.now.toInt - proof.payload.iat.toInt ≤ w.toInt
  jti : s.shouldHonorJti = true → ∃ pre key iat,
    (v.authorizePrecommit env token ctx guard.isSome (st.blockListFor guard)).1 = .ok pre ∧
      pre.jtiCommit = some (key, iat) ∧ (v.commitJti env pre st.jti).1 = .ok ()
  crit : s.CritUnderstood

/-- The relay enters the identifiers of all proofs into its store. -/
def MoqtValidator.TracksReuse (v : MoqtValidator σ) : Prop :=
  v.requireDpopReplayTracking = true ∨ ∀ d ∈ v.dpopValidator, d.settings.shouldHonorJti = true

/-- What the relay enforces anyway is at least what the token asks for. -/
structure MoqtValidator.AtLeastAsStrict (v : MoqtValidator σ) (s : CatDpopSettings) : Prop where
  window : ∀ w ∈ s.window, ∀ d ∈ v.dpopValidator, d.settings.effectiveWindow.toInt ≤ w.toInt
  jti : s.shouldHonorJti = true → v.TracksReuse
  crit : s.CritUnderstood

variable {v : MoqtValidator σ} {guard : Option (ReplayGuard γ)} {env : Ambient}
  {token : ValidatedToken} {ctx : RelayRequestContext H} {st : RelayStores σ γ}
  {r : AuthorizedRequest}

/-- **The token's settings are not read**: tokens that differ in them alone fare alike. -/
theorem authorizeCall_catdpop {token' : ValidatedToken} {c : Option CatDpopSettings}
    (hclaims : token'.claims =
      { token.claims with dpop := { token.claims.dpop with catdpop := c } })
    (hserialized : token'.serialized = token.serialized) :
    v.authorizeCall guard env token' ctx st = v.authorizeCall guard env token ctx st := by
  obtain ⟨t, header, p, serialized, hv⟩ := token
  obtain ⟨t', header', p', serialized', hv'⟩ := token'
  obtain rfl : t' = { t with dpop := { t.dpop with catdpop := c } } := hclaims
  obtain rfl : serialized' = serialized := hserialized
  cases guard with
  | none => rfl
  | some G => rfl

/-- An accepted proof leaves a store key exactly if the relay tracks reuse. -/
theorem commitKeyOf_isSome {validator : DpopValidator σ} {proof : DpopProof H}
    {cnf : ConfirmationClaim} (haccepted : v.ProofAccepted env token ctx cnf validator proof)
    {issuer : Option String} :
    (v.commitKeyOf validator proof cnf issuer).isSome ↔ v.TracksReuse := by
  obtain ⟨cti, hcti⟩ := Option.isSome_iff_exists.mp haccepted.accepts.cti
  have hforced : DpopValidator.dpopCommitKeyForced proof cnf.jkt issuer =
      some (DpopValidator.commitKey issuer cnf.jkt cti, proof.payload.iat) := by
    rw [DpopValidator.dpopCommitKeyForced, hcti]
    rfl
  unfold MoqtValidator.commitKeyOf MoqtValidator.TracksReuse DpopValidator.dpopCommitKey
  rw [hforced, haccepted.configured]
  cases v.requireDpopReplayTracking with
  | true => simp
  | false =>
    cases hhonor : validator.settings.shouldHonorJti with
    | true => simp [hhonor]
    | false => simp [hhonor]

/-- **The token's settings hold where the relay's are as strict**, and only where it tracks
    what is asked to be tracked and nothing critical is unknown.

    The request pipeline never reads the settings in the token: freshness, tracking of identifiers
    and critical extensions go by the relay's own. A strict relay honours them all the same, without
    knowing it. The second half says that tracking and criticals are honoured in no other way; the
    window has no such converse, since a proof may happen to be young enough. -/
theorem catdpop_honoured {cnf : ConfirmationClaim} {s : CatDpopSettings}
    (hcnf : token.claims.dpop.cnf = some cnf) (_hs : token.claims.dpop.catdpop = some s)
    (h : (v.authorizeCall guard env token ctx st).1 = .ok r) :
    (v.AtLeastAsStrict s → s.Honoured v guard env token ctx st) ∧
      (s.Honoured v guard env token ctx st →
        (s.shouldHonorJti = true → v.TracksReuse) ∧ s.CritUnderstood) := by
  obtain ⟨pre, hpre, hcommit⟩ := MoqtValidator.authorizeCall_ok h
  have hdpop := (MoqtValidator.obligations_ok (MoqtValidator.authorizePrecommit_ok hpre).2.2).2.2
  obtain ⟨validator, proof, haccepted, hkey⟩ := MoqtValidator.dpopCommit_ok hcnf hdpop
  have htracks : pre.jtiCommit.isSome ↔ v.TracksReuse := by
    rw [hkey]
    exact commitKeyOf_isSome haccepted
  constructor
  · intro hstrict
    constructor
    · intro w hw proof' hproof'
      obtain rfl := Option.some.inj (haccepted.presented.symm.trans hproof')
      have hfresh := (DpopPayload.isFresh_iff.mp haccepted.accepts.fresh).2.2.1
      exact Int.le_trans hfresh (hstrict.window w hw validator haccepted.configured)
    · intro hasks
      obtain ⟨⟨key, iat⟩, hsome⟩ := Option.isSome_iff_exists.mp (htracks.mpr (hstrict.jti hasks))
      obtain ⟨_, hjti, -⟩ := PreCommit.commitWith_ok (Prod.ext hcommit rfl)
      exact ⟨pre, key, iat, hpre, hsome, congrArg Prod.fst hjti⟩
    · exact hstrict.crit
  · intro hhonoured
    refine ⟨fun hasks => ?_, hhonoured.crit⟩
    obtain ⟨pre', key, iat, hpre', hsome, -⟩ := hhonoured.jti hasks
    obtain rfl := Except.ok.inj (hpre.symm.trans hpre')
    exact htracks.mp (by rw [hsome]; rfl)

end

/-! ### A subscription with settings -/

/-- The subscription's token with a window. -/
def windowToken (w : Int64) (h : 1 ≤ w.toInt ∧ w.toInt ≤ catdpopMaxWindowSecs.toInt) : CatToken :=
  { subscribeToken with
    dpop := { subscribeToken.dpop with catdpop := some (CatDpopSettings.new.setWindowFromDecode w h) } }

def tenMinutes : ValidatedToken := sampleValidated (windowToken 600 (by decide)) (by decide +kernel)
def tenSeconds : ValidatedToken := sampleValidated (windowToken 10 (by decide)) (by decide +kernel)

/-- The subscription a minute after the proof was made, whatever settings the token has. -/
theorem subscribeAt1060_settings {token' : ValidatedToken} {c : Option CatDpopSettings}
    (hclaims : token'.claims =
      { subscribeToken with dpop := { subscribeToken.dpop with catdpop := c } })
    (hserialized : token'.serialized = []) :
    (subscribeValidator.authorizeCall (none : Option (ReplayGuard (List Bytes))) ⟨1060, 1060, none⟩
      token' subscribeContext subscribeStores).1 = .ok { matchedScopeIndex := 0 } := by
  have hsame := @authorizeCall_catdpop _ _ _ subscribeValidator none ⟨1060, 1060, none⟩
    subscribeValidated subscribeContext subscribeStores token' c hclaims hserialized
  exact (congrArg Prod.fst hsame).trans subscribeAt1060.authorized

theorem catdpop_honoured_tenMinutes :
    (CatDpopSettings.new.setWindowFromDecode 600 (by decide)).Honoured subscribeValidator
      (none : Option (ReplayGuard (List Bytes))) ⟨1060, 1060, none⟩ tenMinutes subscribeContext
      subscribeStores := by
  have hcall : (subscribeValidator.authorizeCall none _ tenMinutes _ _).1 = _ :=
    subscribeAt1060_settings rfl rfl
  refine (catdpop_honoured rfl rfl hcall).1 ⟨?_, ?_, ?_⟩
  · intro w hw d hd
    obtain rfl := Option.some.inj hw
    obtain rfl := Option.some.inj hd
    decide
  · intro _
    refine .inr fun d hd => ?_
    obtain rfl := Option.some.inj hd
    rfl
  · intro keys hkeys
    exact absurd hkeys (by simp [CatDpopSettings.setWindowFromDecode, CatDpopSettings.new])

theorem catdpop_not_honoured :
    ¬∀ (H : Host) (σ γ : Type) (v : MoqtValidator σ) (guard : Option (ReplayGuard γ))
      (env : Ambient) (token : ValidatedToken) (ctx : RelayRequestContext H)
      (st : RelayStores σ γ) (r : AuthorizedRequest) (cnf : ConfirmationClaim)
      (s : CatDpopSettings), token.claims.dpop.cnf = some cnf →
      token.claims.dpop.catdpop = some s → (v.authorizeCall guard env token ctx st).1 = .ok r →
      s.Honoured v guard env token ctx st := by
  intro h
  have hcall : (subscribeValidator.authorizeCall none _ tenSeconds _ _).1 = _ :=
    subscribeAt1060_settings rfl rfl
  have hhonoured := h subscriberHost _ _ subscribeValidator none ⟨1060, 1060, none⟩ tenSeconds
    subscribeContext subscribeStores _ _ _ rfl rfl hcall
  exact absurd (hhonoured.window 10 rfl subscribeProof rfl) (by decide +kernel)

end Cat
