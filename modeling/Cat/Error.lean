import Mathlib.Data.List.Basic

/-!
# Errors

One variant per failure the crate can report. What a failure is about — the claim, the
request field, the detail text — is part of the value, as it is in the source: a claim about
the text of an error is one about this value.

`CatError` is compared here and never rendered. How a value reads, `Display` and the text that
goes to a log or to an operator, is in `ErrorText`, because nothing that the crate *decides*
depends on it: every branch on an error is a branch on its variant.

`Failure` is the other way a call can end. Most of the crate returns `Result` and nothing else,
and is modelled in `Except CatError`; writing the claims of a token can also slice an address
past its end, which panics, and is modelled in `Except Failure`, so that "returns an error" and
"panics" stay two outcomes.
-/

set_option autoImplicit false

namespace Cat

inductive CatError where
  | invalidTokenFormat
  | invalidCbor (detail : String)
  | invalidBase64 (detail : String)
  | signatureVerificationFailed
  | tokenExpired
  | tokenNotYetValid
  | invalidAudience
  | invalidIssuer
  | missingRequiredClaim (claim : String)
  | invalidClaimValue (detail : String)
  | malformedClaim (claim : String) (detail : String)
  | claimEnforcementFailed (claim : String) (detail : String)
  | missingRelayContext (claim : String) (field : String)
  | unsupportedAlgorithm (detail : String)
  | algorithmMismatch (expected found : Int64)
  | algorithmNotAllowed (found : Int64) (allowed : List Int64)
  | kidNotAllowed (found : Option (List UInt8)) (allowed : List (List UInt8))
  | keyOperationFailed (detail : String)
  | backendUnavailable (detail : String)
  | configurationRefused (detail : String)
  | geographicValidationFailed (detail : String)
  | replayAttackDetected
  | moqtActionNotAuthorized (detail : String)
  | dpopValidationFailed (detail : String)
  | invalidDpopBinding
  | revalidationRequired
  | revalidationIntervalTooShort
  | rejectedByProbability
  | certificateValidationFailed (detail : String)
  | dpopAlgorithmNotSupported (detail : String)
  | dpopKeyMismatch
  | unencryptedPrivacyClaim (claim : String)
  deriving DecidableEq

/-- An input that does not parse or does not respect the profile. -/
def CatError.malformed (claim detail : String) : CatError := .malformedClaim claim detail

/-- How a call can end without a value: with an error, or with a panic. -/
inductive Failure where
  | error (e : CatError)
  | panicked
  deriving DecidableEq

/-- A fallible step inside a computation that may also panic. -/
instance : MonadLift (Except CatError) (Except Failure) where
  monadLift x := x.mapError .error

theorem Failure.lift_eq_ok {α : Type} {x : Except CatError α} {a : α} :
    (liftM x : Except Failure α) = .ok a ↔ x = .ok a := by
  show x.mapError Failure.error = _ ↔ _
  cases x <;> simp [Except.mapError]

end Cat
