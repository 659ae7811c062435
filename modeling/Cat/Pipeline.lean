import Cat.Claims

/-!
# Stages of a token

A token arrives as bytes, becomes a `VerifiedToken` when its signature has been checked, and is
then validated. `VerifiedToken` keeps the bytes it was decoded from, which a proof of possession
binds to. `AdmissionPolicy` is what a relay may refuse before any of it.

The stages are types in the source, so that a token that was not verified cannot be validated
and one that was not validated cannot be used to authorize. In the model the types are kept
apart in the same way, and what a stage has checked is a field of its type where a later stage
relies on it.
-/

set_option autoImplicit false

namespace Cat

open Cbor (Bytes)

/-- How a token's authenticity was established. -/
inductive TokenProvenance where
  | signed
  | encrypted
  deriving DecidableEq

structure TokenHeader where
  algorithmId : Int64
  kid : Option Bytes
  deriving DecidableEq

structure VerifiedToken where
  token : CatToken
  header : TokenHeader
  provenance : TokenProvenance
  serialized : Bytes

def VerifiedToken.claims (v : VerifiedToken) : CatToken := v.token

/-- The allow-lists are sets; here they are lists, listed in errors sorted and once each. -/
structure AdmissionPolicy where
  maxTokenSize : Nat
  allowedAlgorithms : Option (List Int64)
  allowedKids : Option (List Bytes)

namespace AdmissionPolicy

def default : AdmissionPolicy := ⟨16 * 1024, none, none⟩

def check (p : AdmissionPolicy) (rawBytes : Bytes) (header : TokenHeader) :
    Except CatError Unit := do
  if rawBytes.length > p.maxTokenSize then throw .invalidTokenFormat
  match p.allowedAlgorithms with
  | none => pure ()
  | some allowed =>
    if !allowed.contains header.algorithmId then
      throw (.algorithmNotAllowed header.algorithmId
        (allowed.dedup.mergeSort fun a b => a.toInt ≤ b.toInt))
  match p.allowedKids with
  | none => pure ()
  | some allowed =>
    let listed := match header.kid with
      | some kid => allowed.contains kid
      | none => false
    if !listed then
      throw (.kidNotAllowed header.kid (allowed.dedup.mergeSort fun a b => decide (a ≤ b)))

end AdmissionPolicy
end Cat
