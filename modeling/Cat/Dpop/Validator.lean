import Cat.Dpop.JtiStore
import Cat.Dpop.Wire
import Cat.Lib.Outcome

/-!
# Validating a proof of possession

`DpopValidator` judges a proof against what the request makes of it — action, thumbprint, hash
of the token — checks its signature with the key it carries, and enters its identifier in the
store. `validateWithoutJtiCommit_ok` says what an accepted proof is; the store comes into it
only with `validate`, and in the request pipeline only with the commit.

That the two are apart is the point of `validateWithoutJtiCommit`: it is a function of the
proof, the request and the clock, and a proof that fails later for another reason has used up
nothing. What it establishes is a structure, `Accepts`, with one field for each check, so that a
result that needs one of them names it.

The checks that need no cryptography come first. The order shows in which error is returned and
in nothing else, and it is kept as it is in the source.
-/

set_option autoImplicit false

namespace Cat

open Cbor

def MoqtAction.debug : MoqtAction → String
  | .clientSetup => "ClientSetup"
  | .serverSetup => "ServerSetup"
  | .publishNamespace => "PublishNamespace"
  | .subscribeNamespace => "SubscribeNamespace"
  | .subscribe => "Subscribe"
  | .requestUpdate => "RequestUpdate"
  | .publish => "Publish"
  | .fetch => "Fetch"
  | .trackStatus => "TrackStatus"

/-- The settings and the store. The store's state is not in here: it is passed along by whoever
    calls, since several validators may share one. -/
structure DpopValidator (σ : Type) where
  settings : CatDpopSettings
  jtiStore : JtiStore σ
  jtiExpirySeconds : Int64
  cacheCapacity : Nat
  /-- Every constructor sets the expiry to twice the window. -/
  expiry_eq : jtiExpirySeconds = (settings.effectiveWindow.checkedMul 2).getD .maxValue

namespace DpopValidator

variable {σ : Type}

/-- Entries are kept for twice the window, or for ever if that overflows. -/
def withJtiStore (settings : CatDpopSettings) (store : JtiStore σ) : DpopValidator σ :=
  ⟨settings, store, (settings.effectiveWindow.checkedMul 2).getD .maxValue, 0, rfl⟩

/-- The store says of itself whether it is strict. -/
def withJtiStoreStrict (settings : CatDpopSettings) (store : JtiStore σ) :
    Except CatError (DpopValidator σ) :=
  if !store.isStrict then .error (.configurationRefused
    "JtiStore::is_strict() returned false; strict CDN deployments require a distributed TTL-backed store")
  else .ok (withJtiStore settings store)

/-- The expiry is twice the window: no window is large enough for the product to overflow. -/
theorem jtiExpirySeconds_toInt (v : DpopValidator σ) :
    v.jtiExpirySeconds.toInt = 2 * v.settings.effectiveWindow.toInt := by
  obtain ⟨h₁, h₂⟩ := v.settings.effectiveWindow_range
  have htwo : (2 : Int64).toInt = 2 := by decide
  rw [v.expiry_eq, Int64.checkedMul, Int64.ofInt?, htwo, if_pos ⟨by omega, by omega⟩,
    Option.getD_some, Int64.toInt_ofInt_of_le (by omega) (by omega)]
  omega

section
variable {H : Host} (v : DpopValidator σ) (now : Int64) (proof : DpopProof H)

/-- The hash of the token, where the caller asks for it. -/
def checkAccessTokenHash (accessTokenHash : Option Bytes) : Except CatError Unit :=
  match accessTokenHash with
  | none => .ok ()
  | some expectedAth =>
    match proof.payload.ath with
    | some ath =>
      if constantTimeEq ath expectedAth then .ok ()
      else .error (.dpopValidationFailed "Access token hash mismatch")
    | none => .error (.dpopValidationFailed "Missing access token hash (ath) in proof")

/-- All that is checked before the signature, in this order. The error tells which check it was. -/
def validateClaimsPreSig (expectedAction : MoqtAction) (expectedThumbprint : Bytes)
    (accessTokenHash : Option Bytes) : Except CatError Unit := do
  if !proof.header.isValid then throw (.dpopValidationFailed "Invalid header")
  if !proof.payload.isValid then throw (.dpopValidationFailed "Invalid payload")
  if proof.payload.cti.isNone then
    throw (.dpopValidationFailed "DPoP proof missing required cti claim")
  if !proof.payload.isFresh now v.settings.effectiveWindow then
    throw (.dpopValidationFailed "Proof expired")
  if proof.payload.actx.action ≠ expectedAction then
    throw (.dpopValidationFailed s!"Action mismatch: expected {expectedAction.debug}")
  let jwkThumbprint ← proof.jwkThumbprint
  if !constantTimeEq jwkThumbprint expectedThumbprint then throw .invalidDpopBinding
  checkAccessTokenHash proof accessTokenHash

/-- The key comes from the proof itself. What it is worth is settled by its thumbprint. -/
def verifyWithEmbeddedKey : Except CatError Unit := do
  let signingInput ← proof.signingInput
  if proof.header.alg = algEs256 then
    let verify ← proof.header.jwk.toVerifyingKey H
    verify signingInput proof.signature
  else if proof.header.alg = algPs256 then
    let verify ← proof.header.jwk.toRsaPublicKey H
    verify signingInput proof.signature
  else throw (.dpopAlgorithmNotSupported (toString proof.header.alg.toInt))

/-- All that can be said of a proof without the store. -/
def validateWithoutJtiCommit (expectedAction : MoqtAction) (expectedThumbprint : Bytes)
    (accessTokenHash : Option Bytes) : Except CatError Unit := do
  v.validateClaimsPreSig now proof expectedAction expectedThumbprint accessTokenHash
  if !proof.header.isSupportedAlgorithm then
    throw (.dpopAlgorithmNotSupported (toString proof.header.alg.toInt))
  let computedThumbprint ← proof.jwkThumbprint
  if !constantTimeEq computedThumbprint expectedThumbprint then throw .dpopKeyMismatch
  verifyWithEmbeddedKey proof

/-! ## The store key -/

/-- Issuer, thumbprint and identifier, joined. -/
def commitKey (issuer : Option String) (thumbprint cti : Bytes) : String :=
  issuer.getD "_" ++ ":" ++ String.ofList (Hex.encode thumbprint) ++ ":" ++
    String.ofList (Hex.encode cti)

/-- Without an identifier there is no key. -/
def dpopCommitKeyForced (thumbprint : Bytes) (issuer : Option String) :
    Option (String × Int64) :=
  proof.payload.cti.map fun cti => (commitKey issuer thumbprint cti, proof.payload.iat)

def dpopCommitKey (thumbprint : Bytes) (issuer : Option String) : Option (String × Int64) :=
  if !v.settings.shouldHonorJti then none else dpopCommitKeyForced proof thumbprint issuer

/-- A validator that does not track identifiers accepts without asking the store. -/
def insertJti (thumbprint : Bytes) (issuer : Option String) (s : σ) : Except CatError Unit × σ :=
  match v.dpopCommitKey proof thumbprint issuer with
  | some (compositeKey, iat) => v.jtiStore.checkAndInsert now compositeKey iat s
  | none => (.ok (), s)

/-- The proof and its identifier, which is entered only where the rest holds. -/
def validate (expectedAction : MoqtAction) (expectedThumbprint : Bytes)
    (accessTokenHash : Option Bytes) (issuer : Option String) (s : σ) :
    Except CatError Unit × σ :=
  match v.validateWithoutJtiCommit now proof expectedAction expectedThumbprint accessTokenHash with
  | .error e => (.error e, s)
  | .ok () => v.insertJti now proof expectedThumbprint issuer s

def cleanupExpiredJtis (s : σ) : σ := v.jtiStore.cleanup now v.jtiExpirySeconds s

/-- What the validator establishes about a proof. -/
structure Accepts (action : MoqtAction) (thumbprint : Bytes) (ath : Option Bytes) : Prop where
  header_valid : proof.header.isValid = true
  payload_valid : proof.payload.isValid = true
  cti : proof.payload.cti.isSome = true
  fresh : proof.payload.isFresh now v.settings.effectiveWindow = true
  action_eq : proof.payload.actx.action = action
  thumbprint_eq : proof.header.jwk.thumbprint H = .ok thumbprint
  ath_eq : ∀ h ∈ ath, proof.payload.ath = some h
  verified : verifyWithEmbeddedKey proof = .ok ()

theorem checkAccessTokenHash_ok {ath : Option Bytes} {u : Unit} :
    checkAccessTokenHash proof ath = .ok u ↔ ∀ h ∈ ath, proof.payload.ath = some h := by
  unfold checkAccessTokenHash
  cases ath with
  | none => simp
  | some h =>
    cases hp : proof.payload.ath with
    | none => simp
    | some a => simp [constantTimeEq_iff]

/-- **What an accepted proof is.** -/
theorem validateWithoutJtiCommit_ok {action : MoqtAction} {thumbprint : Bytes}
    {ath : Option Bytes} {u : Unit} :
    v.validateWithoutJtiCommit now proof action thumbprint ath = .ok u ↔
      v.Accepts now proof action thumbprint ath := by
  unfold validateWithoutJtiCommit validateClaimsPreSig
  simp only [DpopProof.jwkThumbprint_eq, Except.bind_eq_ok, Except.guard_eq_ok,
    checkAccessTokenHash_ok]
  constructor
  · rintro ⟨-, ⟨h₁, h₂, h₃, h₄, h₅, t, ht, h₆, h₇⟩, -, t', ht', -, hv⟩
    obtain rfl := constantTimeEq_iff.mp (by simpa using h₆)
    exact ⟨by simpa using h₁, by simpa using h₂, by simpa [Option.isSome_iff_ne_none] using h₃,
      by simpa using h₄, by simpa using h₅, ht, h₇, hv⟩
  · intro h
    have halg : proof.header.isSupportedAlgorithm = true := by
      have := h.header_valid
      rw [DpopHeader.isValid, Bool.and_eq_true] at this
      exact this.2
    have hct : ¬(!constantTimeEq thumbprint thumbprint) = true := by
      simp [constantTimeEq_iff]
    exact ⟨(), ⟨by simp [h.header_valid], by simp [h.payload_valid],
      by simpa [Option.isSome_iff_ne_none] using h.cti, by simp [h.fresh], by simp [h.action_eq],
      thumbprint, h.thumbprint_eq, hct, h.ath_eq⟩, by simp [halg],
      thumbprint, h.thumbprint_eq, hct, h.verified⟩

end
end DpopValidator
end Cat
