import Cat.Moqt.Admission
import Cat.Moqt.ProofBinding

/-!
# Setting up a relay

A `MoqtValidator` is made by a chain of builder calls. Of the switches that demand something
none can be taken back by a later call, or by a token: whatever the chain, a request that is
authorized has what was demanded (`relaySettings_enforced`). And demands only refuse: what a
relay with more of them authorizes, it authorizes without them, with the same answer
(`relaySettings_hardened`).

A setting is a constructor with its arguments and a chain is a list of settings, so that both
statements are about every chain, of any length and in any order, and the inductions are over
the list. What a setting demands of a request is stated without the validator, in terms of the
token and the request. A demand survives the settings that come after it because each of them
changes another field or, for a switch, sets it again.

The second statement compares two relays. It holds section by section of the pipeline: each
section of the one that demands more accepts no more than the other's, and where it does accept
it returns the same. The two runs have a proof and a store, and a chain of several calls, one of
which sets again what was set before.
-/

set_option autoImplicit false

namespace Cat

open Cbor

/-- The validator of `DpopValidator::new`, around the evicting store that it makes. -/
def DpopValidator.new {σ : Type} (settings : CatDpopSettings) (lru : JtiStore σ) :
    DpopValidator σ :=
  { withJtiStore settings lru with cacheCapacity := 100000 }

/-- A call of a builder. -/
inductive RelaySetting (σ : Type) where
  | withMinRevalidationInterval (seconds : F64)
  | disableRevalidationSupport
  | dpopBestEffort (settings : CatDpopSettings) (lru : JtiStore σ)
  | dpopStrict (settings : CatDpopSettings) (store : JtiStore σ)
  | withExpectedResource (resource : String)
  | dangerouslyAllowMissingAudience
  | requireDpop
  | requireCattpk
  | requireDpopReplayTracking

namespace RelaySetting

variable {σ : Type}

def apply (v : MoqtValidator σ) : RelaySetting σ → Except CatError (MoqtValidator σ)
  | withMinRevalidationInterval seconds => .ok { v with minRevalidationInterval := some seconds }
  | disableRevalidationSupport => .ok { v with supportsRevalidation := false }
  | dpopBestEffort settings lru => .ok { v with dpopValidator := some (.new settings lru) }
  | dpopStrict settings store => do
    let validator ← DpopValidator.withJtiStoreStrict settings store
    return { v with dpopValidator := some validator }
  | withExpectedResource resource => .ok { v with expectedResource := some resource }
  | dangerouslyAllowMissingAudience => .ok { v with requireAudienceBinding := false }
  | requireDpop => .ok { v with requireDpop := true }
  | requireCattpk => .ok { v with requireCattpk := true }
  | requireDpopReplayTracking => .ok { v with requireDpopReplayTracking := true }

/-- The chain, from `MoqtValidator::new` on. -/
def build (settings : List (RelaySetting σ)) : Except CatError (MoqtValidator σ) :=
  settings.foldlM apply {}

def minRevalidationInterval? : RelaySetting σ → Option F64
  | withMinRevalidationInterval seconds => some seconds
  | _ => none

def dpopValidator? : RelaySetting σ → Option (DpopValidator σ)
  | dpopBestEffort settings lru => some (.new settings lru)
  | dpopStrict settings store => some (.withJtiStore settings store)
  | _ => none

def expectedResource? : RelaySetting σ → Option String
  | withExpectedResource resource => some resource
  | _ => none

/-- What was set last. -/
def lastSet {α : Type} (field? : RelaySetting σ → Option α) (settings : List (RelaySetting σ)) :
    Option α := (settings.filterMap field?).getLast?

/-- What a chain has made of each field. -/
structure Makes (settings : List (RelaySetting σ)) (v : MoqtValidator σ) : Prop where
  minRevalidationInterval : v.minRevalidationInterval = lastSet minRevalidationInterval? settings
  supportsRevalidation : v.supportsRevalidation = true ↔ disableRevalidationSupport ∉ settings
  dpopValidator : v.dpopValidator = lastSet dpopValidator? settings
  expectedResource : v.expectedResource = lastSet expectedResource? settings
  requireAudienceBinding :
    v.requireAudienceBinding = true ↔ dangerouslyAllowMissingAudience ∉ settings
  requireDpop : v.requireDpop = true ↔ RelaySetting.requireDpop ∈ settings
  requireCattpk : v.requireCattpk = true ↔ RelaySetting.requireCattpk ∈ settings
  requireDpopReplayTracking :
    v.requireDpopReplayTracking = true ↔ RelaySetting.requireDpopReplayTracking ∈ settings

variable {settings : List (RelaySetting σ)} {v v' : MoqtValidator σ}

theorem lastSet_concat {α : Type} (field? : RelaySetting σ → Option α)
    (settings : List (RelaySetting σ)) (s : RelaySetting σ) :
    lastSet field? (settings ++ [s]) = (field? s).or (lastSet field? settings) :=
  List.lastSome_concat field? settings s

theorem lastSet_append {α : Type} (field? : RelaySetting σ → Option α)
    (settings more : List (RelaySetting σ)) :
    lastSet field? (settings ++ more) = (lastSet field? more).or (lastSet field? settings) :=
  List.lastSome_append field? settings more

/-- A call that can only make the relay refuse more: a demand, or a value where none was set. -/
def OnlyRefuses (settings : List (RelaySetting σ)) : RelaySetting σ → Prop
  | disableRevalidationSupport | requireDpop | requireCattpk | requireDpopReplayTracking => True
  | withMinRevalidationInterval _ => lastSet minRevalidationInterval? settings = none
  | withExpectedResource _ => lastSet expectedResource? settings = none
  | dpopBestEffort _ _ | dpopStrict _ _ | dangerouslyAllowMissingAudience => False

theorem Makes.start : Makes [] ({} : MoqtValidator σ) := by
  constructor <;> simp [lastSet]

theorem Makes.apply {s : RelaySetting σ} (h : Makes settings v) (hv' : s.apply v = .ok v') :
    Makes (settings ++ [s]) v' := by
  cases s with
  | dpopStrict dpop store =>
    obtain ⟨validator, hvalidator, hv'⟩ := Except.bind_eq_ok.mp hv'
    obtain rfl := Except.pure_eq_ok.mp hv'
    unfold DpopValidator.withJtiStoreStrict at hvalidator
    split at hvalidator
    · cases hvalidator
    · obtain rfl := Except.ok.inj hvalidator
      constructor <;> simp [lastSet_concat, minRevalidationInterval?, dpopValidator?,
        expectedResource?, h.minRevalidationInterval, h.supportsRevalidation, h.expectedResource,
        h.requireAudienceBinding, h.requireDpop, h.requireCattpk, h.requireDpopReplayTracking]
  | _ =>
    obtain rfl := Except.ok.inj hv'
    constructor <;> simp [lastSet_concat, minRevalidationInterval?, dpopValidator?,
      expectedResource?, h.minRevalidationInterval, h.supportsRevalidation, h.dpopValidator,
      h.expectedResource, h.requireAudienceBinding, h.requireDpop, h.requireCattpk,
      h.requireDpopReplayTracking]

theorem makes_of_build (h : build settings = .ok v) : Makes settings v :=
  Except.foldlM_invariant h Makes.start fun _ _ _ _ => Makes.apply

end RelaySetting

/-! ## What a relay demands

First, what a chain has made of each field of the validator (`Makes`): the switches are on if
some call turned them on, the others are what was set last. Then what an authorized request has
passed, with the fields replaced by what the chain says of them.
-/

namespace MoqtValidator

variable {H : Host} {σ γ : Type} {v v' : MoqtValidator σ} {env : Ambient} {token : ValidatedToken}
  {t : CatToken} {ctx : RelayRequestContext H} {u : Unit}

theorem checkRevalidation_ok : v.checkRevalidation t = .ok u ↔ ∀ reval ∈ t.moqt.moqtReval,
    v.supportsRevalidation = true ∧ ∀ m ∈ v.minRevalidationInterval,
      ¬(F64.lt (F64.ofInt 0) reval = true ∧ F64.lt reval m = true) := by
  unfold checkRevalidation
  cases t.moqt.moqtReval with
  | none => simp
  | some reval =>
    cases v.supportsRevalidation <;> cases v.minRevalidationInterval <;> simp

theorem checkAudience_ok : v.checkAudience t ctx = .ok u ↔
    (∀ audiences ∈ t.core.aud, ctx.relayEndpoint ∈ audiences) ∧
      (v.requireAudienceBinding = true → t.core.aud.isSome) := by
  unfold checkAudience
  cases t.core.aud with
  | none => cases v.requireAudienceBinding <;> simp
  | some audiences =>
    by_cases h : ctx.relayEndpoint ∈ audiences
    · simp [h]
    · simp [h]

/-- The demands among the restrictions. -/
structure DemandsMet (v : MoqtValidator σ) (t : CatToken) (ctx : RelayRequestContext H) : Prop where
  revalidation : v.checkRevalidation t = .ok ()
  audience : v.checkAudience t ctx = .ok ()
  dpop : v.requireDpop = true → t.dpop.cnf.isSome
  cattpk : v.requireCattpk = true → t.cat.cattpk.isSome

theorem demandsMet_of_checkRestrictions (h : v.checkRestrictions t ctx = .ok u) :
    v.DemandsMet t ctx := by
  unfold checkRestrictions validateMoqtClaims at h
  simp only [Except.bind_eq_ok, Except.guard_eq_ok] at h
  obtain ⟨_, ⟨_, hreval, -⟩, -, _, haud, hdpop, hcattpk, -⟩ := h
  refine ⟨hreval, haud, fun hreq => ?_, fun hreq => ?_⟩
  · rw [hreq, Bool.true_and, Bool.not_eq_true, Option.isNone_eq_false_iff] at hdpop
    exact hdpop
  · rw [hreq, Bool.true_and, Bool.not_eq_true, Option.isNone_eq_false_iff] at hcattpk
    exact hcattpk

/-- With other demands the rest of the restrictions is the same. -/
theorem checkRestrictions_of_demandsMet (h : v'.checkRestrictions t ctx = .ok u)
    (hmet : v.DemandsMet t ctx) : v.checkRestrictions t ctx = .ok u := by
  unfold checkRestrictions validateMoqtClaims at h ⊢
  simp only [Except.bind_eq_ok, Except.guard_eq_ok] at h ⊢
  obtain ⟨_, ⟨_, -, hactions⟩, hcatv, _, -, -, -, hrest⟩ := h
  refine ⟨_, ⟨_, hmet.revalidation, hactions⟩, hcatv, _, hmet.audience, ?_, ?_, hrest⟩
  · rw [Bool.and_eq_true, not_and, Bool.not_eq_true, Option.isNone_eq_false_iff]
    exact hmet.dpop
  · rw [Bool.and_eq_true, not_and, Bool.not_eq_true, Option.isNone_eq_false_iff]
    exact hmet.cattpk

variable {guard : Option (ReplayGuard γ)} {st : RelayStores σ γ} {r : AuthorizedRequest}
  {settings more : List (RelaySetting σ)}

/-- What holds of an authorized request by the settings of the relay. -/
structure SettingsEnforced (settings : List (RelaySetting σ)) (env : Ambient)
    (token : ValidatedToken) (ctx : RelayRequestContext H) (s : σ) : Prop where
  interval : ∀ m ∈ RelaySetting.lastSet RelaySetting.minRevalidationInterval? settings,
    ∀ reval ∈ token.claims.moqt.moqtReval,
      ¬(F64.lt (F64.ofInt 0) reval = true ∧ F64.lt reval m = true)
  revalidation : .disableRevalidationSupport ∈ settings → token.claims.moqt.moqtReval = none
  audience : .dangerouslyAllowMissingAudience ∉ settings →
    ∃ audiences ∈ token.claims.core.aud, ctx.relayEndpoint ∈ audiences
  dpop : .requireDpop ∈ settings → token.claims.dpop.cnf.isSome
  cattpk : .requireCattpk ∈ settings → token.claims.cat.cattpk.isSome
  /-- A token with a key was presented with a proof that the validator set last accepts, for the
      resource set last; and the store has taken its identifier, if all are to be tracked. -/
  proof : ∀ cnf ∈ token.claims.dpop.cnf,
    ∃ d ∈ RelaySetting.lastSet RelaySetting.dpopValidator? settings, ∃ proof ∈ ctx.dpopProof,
      d.Accepts env.now proof ctx.action cnf.jkt
        (some (computeAccessTokenHash H token.serialized)) ∧
      (∀ resource ∈ RelaySetting.lastSet RelaySetting.expectedResource? settings,
        proof.payload.actx.resource = some resource) ∧
      (.requireDpopReplayTracking ∈ settings → ∃ key iat,
        DpopValidator.dpopCommitKeyForced proof cnf.jkt token.claims.core.iss = some (key, iat) ∧
          (d.jtiStore.checkAndInsert env.now key iat s).1 = .ok ())

/-- A relay with a strict store, and then all that it can be asked to demand of a subscriber with
    a key. The interval is set twice. -/
def strictRelay : List (RelaySetting InMemoryStrictJtiStore) :=
  [.withMinRevalidationInterval (F64.ofInt 900), .dpopStrict .new InMemoryStrictJtiStore.store]

def subscriberDemands : List (RelaySetting InMemoryStrictJtiStore) :=
  [.requireDpop, .requireDpopReplayTracking, .withExpectedResource "moqt://relay?tns=YQ&tn=dA"]

def relaxedInterval : RelaySetting InMemoryStrictJtiStore :=
  .withMinRevalidationInterval (F64.ofInt 300)

/-- The subscriber's token, to be revalidated every ten minutes. -/
def revalidatedToken : CatToken :=
  { subscribeToken with moqt := { subscribeToken.moqt with moqtReval := some (F64.ofInt 600) } }

def revalidated : ValidatedToken := sampleValidated revalidatedToken (by decide +kernel)

def demandingValidator : MoqtValidator InMemoryStrictJtiStore where
  minRevalidationInterval := some (F64.ofInt 300)
  dpopValidator := some (.withJtiStore .new InMemoryStrictJtiStore.store)
  expectedResource := some "moqt://relay?tns=YQ&tn=dA"
  requireDpop := true
  requireDpopReplayTracking := true

def revalidatedOutcome : AuthorizedRequest :=
  { matchedScopeIndex := 0, requiresRevalidation := true
    revalidationInterval := some (F64.ofInt 600) }

/-- A minute after the proof was made, at a relay without a guard. -/
def subscribeAmbient : Ambient := ⟨1060, 1060, none⟩

def noGuard : Option (ReplayGuard (List Bytes)) := none

/-- The stores with the proof's identifier. -/
def enteredStores : RelayStores InMemoryStrictJtiStore (List Bytes) :=
  (demandingValidator.authorizeCall noGuard subscribeAmbient revalidated subscribeContext
    subscribeStores).2

theorem demandingValidator_authorizes :
    (demandingValidator.authorizeCall noGuard subscribeAmbient revalidated subscribeContext
      subscribeStores).1 = .ok revalidatedOutcome := by
  decide +kernel

/-- The first relay demands all that the second one does, and has the same validator of proofs. -/
structure Hardens (v' v : MoqtValidator σ) : Prop where
  minRevalidationInterval : ∀ m ∈ v.minRevalidationInterval, v'.minRevalidationInterval = some m
  supportsRevalidation : v'.supportsRevalidation = true → v.supportsRevalidation = true
  dpopValidator : v'.dpopValidator = v.dpopValidator
  expectedResource : ∀ r ∈ v.expectedResource, v'.expectedResource = some r
  requireAudienceBinding : v.requireAudienceBinding = true → v'.requireAudienceBinding = true
  requireDpop : v.requireDpop = true → v'.requireDpop = true
  requireCattpk : v.requireCattpk = true → v'.requireCattpk = true
  requireDpopReplayTracking :
    v.requireDpopReplayTracking = true → v'.requireDpopReplayTracking = true

theorem DemandsMet.of_hardens (hle : v'.Hardens v) (h : v'.DemandsMet t ctx) :
    v.DemandsMet t ctx where
  revalidation := by
    refine checkRevalidation_ok.mpr fun reval hr => ?_
    obtain ⟨hsupports, hmin⟩ := checkRevalidation_ok.mp h.revalidation reval hr
    exact ⟨hle.supportsRevalidation hsupports,
      fun m hm => hmin m (hle.minRevalidationInterval m hm)⟩
  audience := checkAudience_ok.mpr ((checkAudience_ok.mp h.audience).imp_right
    fun hreq hb => hreq (hle.requireAudienceBinding hb))
  dpop hreq := h.dpop (hle.requireDpop hreq)
  cattpk hreq := h.cattpk (hle.requireCattpk hreq)

/-- The same key is owed to the store, or none. -/
theorem commitKeyOf_of_hardens (hle : v'.Hardens v) (d : DpopValidator σ) (proof : DpopProof H)
    (cnf : ConfirmationClaim) (issuer : Option String) :
    v.commitKeyOf d proof cnf issuer = v'.commitKeyOf d proof cnf issuer ∨
      v.commitKeyOf d proof cnf issuer = none := by
  unfold commitKeyOf DpopValidator.dpopCommitKey
  by_cases htrack : v.requireDpopReplayTracking = true
  · rw [if_pos htrack, if_pos (hle.requireDpopReplayTracking htrack)]
    exact .inl rfl
  · rw [if_neg htrack]
    by_cases hhonor : (!d.settings.shouldHonorJti) = true
    · exact .inr (if_pos hhonor)
    · rw [if_neg hhonor, ite_self]
      exact .inl rfl

theorem dpopCommit_of_hardens (hle : v'.Hardens v) {c' : Option (String × Int64)}
    (h : v'.dpopCommit env token ctx = .ok c') :
    ∃ c, v.dpopCommit env token ctx = .ok c ∧ (c = c' ∨ c = none) := by
  cases hcnf : token.claims.dpop.cnf with
  | none =>
    rw [dpopCommit, hcnf] at h
    exact ⟨none, by rw [dpopCommit, hcnf], .inr rfl⟩
  | some cnf =>
    obtain ⟨d, proof, haccepted, rfl⟩ := dpopCommit_ok hcnf h
    refine ⟨_, ?_, commitKeyOf_of_hardens hle d proof cnf token.claims.core.iss⟩
    rw [dpopCommit, hcnf]
    exact checkProof_ok.mpr ⟨d, proof,
      { haccepted with
        configured := hle.dpopValidator ▸ haccepted.configured
        expected := fun r hr => haccepted.expected r (hle.expectedResource r hr) }, rfl⟩

theorem obligations_of_hardens (hle : v'.Hardens v) {configured : Bool} {pre : PreCommit}
    (h : v'.obligations env token ctx configured = .ok pre) :
    ∃ c, v.obligations env token ctx configured = .ok { pre with jtiCommit := c } ∧
      (c = pre.jtiCommit ∨ c = none) := by
  unfold obligations at h ⊢
  obtain ⟨replay, hreplay, h⟩ := Except.bind_eq_ok.mp h
  rw [hreplay]
  split at h
  · exact absurd h (by simp)
  · obtain ⟨c', hc', hpre⟩ := Except.bind_eq_ok.mp h
    obtain rfl := Except.pure_eq_ok.mp hpre
    obtain ⟨c, hc, hor⟩ := dpopCommit_of_hardens hle hc'
    refine ⟨c, ?_, hor⟩
    show (v.dpopCommit env token ctx >>= _) = _
    rw [hc]
    rfl

theorem authorizePrecommit_of_hardens (hle : v'.Hardens v) {configured : Bool}
    {blockList blockList' : Option CatPorBlockList} {pre : PreCommit}
    (h : v'.authorizePrecommit env token ctx configured blockList = (.ok pre, blockList')) :
    ∃ c, v.authorizePrecommit env token ctx configured blockList =
        (.ok { pre with jtiCommit := c }, blockList') ∧
      (c = pre.jtiCommit ∨ c = none) := by
  obtain ⟨hrestrictions, -, hob⟩ := authorizePrecommit_ok (congrArg Prod.fst h)
  obtain ⟨c, hc, hor⟩ := obligations_of_hardens hle hob
  refine ⟨c, ?_, hor⟩
  have hmet := (demandsMet_of_checkRestrictions hrestrictions).of_hardens hle
  unfold authorizePrecommit at h ⊢
  rw [hrestrictions] at h
  rw [checkRestrictions_of_demandsMet hrestrictions hmet]
  dsimp only at h ⊢
  split at h
  · exact absurd (Prod.mk.inj h).1 (by simp)
  · rw [hc, (Prod.mk.inj h).2]

/-- A call that authorizes has decided, entered the key and recorded the `cti`. -/
theorem run_sync_eq_ok {guard : Option (ReplayGuard γ)} {st' : RelayStores σ γ} :
    v.authorizeCall guard env token ctx st = (.ok r, st') ↔ ∃ pre reused,
      RelayCall.precommit env st.blockList (.sync v guard token ctx : RelayCall H σ σ γ) =
          (.ok pre, st'.blockList) ∧
        v.commitJti env pre st.jti = (.ok (), st'.jti) ∧
        commitReplay guard pre st.guard = (.ok reused, st'.guard) ∧ r = pre.finalize reused := by
  have hrun : v.authorizeCall guard env token ctx st =
      RelayCall.run env st (.sync v guard token ctx : RelayCall H σ σ γ) := by
    cases guard <;> rfl
  rw [hrun, RelayCall.run_eq]
  constructor
  · intro h
    rcases hpre : RelayCall.precommit env st.blockList
        (.sync v guard token ctx : RelayCall H σ σ γ) with ⟨e | pre, blockList⟩
    · rw [hpre] at h
      cases h
    · rw [hpre] at h
      have hcommit : (fun out : Except CatError AuthorizedRequest × σ × γ =>
          (out.1, (⟨out.2.1, out.2.2, blockList⟩ : RelayStores σ γ)))
          (pre.commitWith (v.commitJti env pre) (commitReplay guard pre) st.jti st.guard) =
            (.ok r, st') := h
      rcases hout : pre.commitWith (v.commitJti env pre) (commitReplay guard pre) st.jti st.guard
        with ⟨out, s, g⟩
      rw [hout] at hcommit
      obtain ⟨rfl, rfl⟩ := Prod.mk.inj hcommit
      obtain ⟨reused, hjti, hreplay, rfl⟩ := PreCommit.commitWith_ok hout
      exact ⟨pre, reused, rfl, hjti, hreplay, rfl⟩
  · rintro ⟨pre, reused, hpre, hjti, hreplay, rfl⟩
    rw [hpre]
    have hcommit : pre.commitWith (v.commitJti env pre) (commitReplay guard pre) st.jti st.guard =
        (.ok (pre.finalize reused), st'.jti, st'.guard) := by
      unfold PreCommit.commitWith
      rw [hjti]
      dsimp only
      rw [hreplay]
    exact congrArg
      (fun out => (out.1, (⟨out.2.1, out.2.2, st'.blockList⟩ : RelayStores σ γ))) hcommit

/-- One is as authorized without the demands as with them; the store of identifiers was given the
    same key, or none. -/
theorem authorizeCall_of_hardens (hle : v'.Hardens v) {st' : RelayStores σ γ}
    (h : v'.authorizeCall guard env token ctx st = (.ok r, st')) :
    ∃ s, v.authorizeCall guard env token ctx st = (.ok r, { st' with jti := s }) ∧
      (s = st'.jti ∨ s = st.jti) := by
  obtain ⟨pre, reused, hpre, hjti, hreplay, rfl⟩ := run_sync_eq_ok.mp h
  have hmine : ∃ c, RelayCall.precommit env st.blockList
      (.sync v guard token ctx : RelayCall H σ σ γ) =
        (.ok { pre with jtiCommit := c }, st'.blockList) ∧ (c = pre.jtiCommit ∨ c = none) := by
    cases guard with
    | none =>
      obtain ⟨hok, hlist⟩ := Prod.mk.inj hpre
      obtain ⟨c, hc, hor⟩ := authorizePrecommit_of_hardens hle
        (Prod.ext hok rfl : v'.authorizePrecommit env token ctx false none = (.ok pre, _))
      have hfst : (v.authorizePrecommit env token ctx false none).1 =
          .ok { pre with jtiCommit := c } := congrArg Prod.fst hc
      exact ⟨c, Prod.ext hfst hlist, hor⟩
    | some guard => exact authorizePrecommit_of_hardens hle hpre
  obtain ⟨c, hc, rfl | rfl⟩ := hmine
  · have hsame : v.commitJti env pre st.jti = v'.commitJti env pre st.jti := by
      unfold commitJti
      rw [hle.dpopValidator]
    exact ⟨st'.jti, run_sync_eq_ok.mpr ⟨pre, reused, hc, hsame.trans hjti, hreplay, rfl⟩, .inl rfl⟩
  · exact ⟨st.jti, run_sync_eq_ok.mpr ⟨_, reused, hc, rfl, hreplay, rfl⟩, .inr rfl⟩

theorem hardens_of_onlyRefuses (hbuild : RelaySetting.build settings = .ok v)
    (hmore : RelaySetting.build (settings ++ more) = .ok v')
    (hrefuse : ∀ s ∈ more, s.OnlyRefuses settings) : v'.Hardens v := by
  have hm := RelaySetting.makes_of_build hbuild
  have hm' := RelaySetting.makes_of_build hmore
  -- A field that the later calls do not set keeps its value.
  have hlast {α : Type} {field? : RelaySetting σ → Option α} {a : α}
      (h : RelaySetting.lastSet field? settings = some a)
      (hnone : ∀ s : RelaySetting σ, s.OnlyRefuses settings → field? s = none) :
      RelaySetting.lastSet field? (settings ++ more) = some a := by
    have hmore : more.filterMap field? = [] :=
      List.filterMap_eq_nil_iff.mpr fun s hs => hnone s (hrefuse s hs)
    rw [RelaySetting.lastSet_append, RelaySetting.lastSet, hmore]
    exact h
  have hkept {s : RelaySetting σ} (hnot : ¬s.OnlyRefuses settings) :
      s ∉ settings → s ∉ settings ++ more := fun hs hmem =>
    (List.mem_append.mp hmem).elim hs fun hmem => hnot (hrefuse s hmem)
  constructor
  · intro m hmin
    rw [hm.minRevalidationInterval] at hmin
    rw [hm'.minRevalidationInterval]
    refine hlast hmin fun s hs => ?_
    cases s with
    | withMinRevalidationInterval => exact absurd (hmin.symm.trans hs) (by simp)
    | _ => rfl
  · exact fun h => hm.supportsRevalidation.mpr fun hmem =>
      hm'.supportsRevalidation.mp h (List.mem_append_left _ hmem)
  · have hmore : more.filterMap RelaySetting.dpopValidator? = [] := by
      refine List.filterMap_eq_nil_iff.mpr fun s hs => ?_
      have hs := hrefuse s hs
      cases s with
      | dpopBestEffort | dpopStrict => exact hs.elim
      | _ => rfl
    rw [hm.dpopValidator, hm'.dpopValidator, RelaySetting.lastSet_append, RelaySetting.lastSet,
      hmore]
    rfl
  · intro resource hres
    rw [hm.expectedResource] at hres
    rw [hm'.expectedResource]
    refine hlast hres fun s hs => ?_
    cases s with
    | withExpectedResource => exact absurd (hres.symm.trans hs) (by simp)
    | _ => rfl
  · exact fun h => hm'.requireAudienceBinding.mpr
      (hkept id (hm.requireAudienceBinding.mp h))
  · exact fun h => hm'.requireDpop.mpr (List.mem_append_left _ (hm.requireDpop.mp h))
  · exact fun h => hm'.requireCattpk.mpr (List.mem_append_left _ (hm.requireCattpk.mp h))
  · exact fun h => hm'.requireDpopReplayTracking.mpr
      (List.mem_append_left _ (hm.requireDpopReplayTracking.mp h))

/-- **Demands only refuse**: what a relay authorizes whose chain of settings goes on with calls
    that only refuse more, the relay without them authorizes, with the same answer and the same
    effect on the guard and the block list; to the store of identifiers it gives the same key, or
    none. -/
theorem relaySettings_hardened (hbuild : RelaySetting.build settings = .ok v)
    (hmore : RelaySetting.build (settings ++ more) = .ok v')
    (hrefuse : ∀ s ∈ more, s.OnlyRefuses settings) {st' : RelayStores σ γ}
    (h : v'.authorizeCall guard env token ctx st = (.ok r, st')) :
    ∃ s, v.authorizeCall guard env token ctx st = (.ok r, { st' with jti := s }) ∧
      (s = st'.jti ∨ s = st.jti) :=
  authorizeCall_of_hardens (hardens_of_onlyRefuses hbuild hmore hrefuse) h

/-- A relay of which nothing more is asked than its store. -/
def undemandingValidator : MoqtValidator InMemoryStrictJtiStore where
  minRevalidationInterval := some (F64.ofInt 300)
  dpopValidator := some (.withJtiStore .new InMemoryStrictJtiStore.store)

/-- The subscription that the demanding relay authorizes, at the relay before the demands. -/
theorem relaySettings_hardened_subscribe : ∃ s,
    undemandingValidator.authorizeCall noGuard subscribeAmbient revalidated subscribeContext
        subscribeStores = (.ok revalidatedOutcome, { enteredStores with jti := s }) ∧
      (s = enteredStores.jti ∨ s = subscribeStores.jti) := by
  have hbuild : RelaySetting.build (strictRelay ++ [relaxedInterval]) =
      .ok undemandingValidator := rfl
  have hmore : RelaySetting.build (strictRelay ++ [relaxedInterval] ++ subscriberDemands) =
      .ok demandingValidator := rfl
  have hauthorized : demandingValidator.authorizeCall noGuard subscribeAmbient revalidated
      subscribeContext subscribeStores = (.ok revalidatedOutcome, enteredStores) := by
    rw [enteredStores, ← demandingValidator_authorizes]
  have hrefuse : ∀ s ∈ subscriberDemands, s.OnlyRefuses (strictRelay ++ [relaxedInterval]) := by
    intro s hs
    simp only [subscriberDemands, List.mem_cons, List.not_mem_nil, or_false] at hs
    rcases hs with rfl | rfl | rfl
    · trivial
    · trivial
    · show RelaySetting.lastSet RelaySetting.expectedResource? (strictRelay ++ [relaxedInterval]) =
        none
      rfl
  exact relaySettings_hardened hbuild hmore hrefuse hauthorized

end MoqtValidator

end Cat
