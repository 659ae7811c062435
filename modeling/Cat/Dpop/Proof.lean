import Cat.Jwk
import Cat.Lib.CheckedInt

/-!
# Proofs of possession

A `DpopProof` is what a key holder signs for one request: the key in the header, and in the
payload the request (`actx`), the hash of the token (`ath`), a time and an identifier. It has no
wire format of its own; `Dpop.Wire` serializes it.

The thumbprint of the key is computed once and kept. `DpopProof` carries that what is kept is
the thumbprint of the header's key. In the source this holds because the header is private and
whoever changes it clears the cache; a proof of the model that had another thumbprint beside its
key could not be built. The same is not so for the signed bytes, which may be anything after
decoding, and what they say has a module of its own (`SignedBytes`).
-/

set_option autoImplicit false

namespace Cat

open Cbor

def dpopTyp : String := "dpop-proof+cwt"
def dpopTypJwt : String := "dpop-proof+jwt"

inductive DpopWireFormat where
  | cwt
  | jwt
  deriving DecidableEq

def supportedDpopCoseAlgorithms : List Int64 := [algEs256, algPs256]

structure DpopHeader where
  alg : Int64
  typ : String
  jwk : Jwk
  deriving DecidableEq

def DpopHeader.isSupportedAlgorithm (h : DpopHeader) : Bool :=
  supportedDpopCoseAlgorithms.contains h.alg

def DpopHeader.isValid (h : DpopHeader) : Bool :=
  (h.typ == dpopTyp || h.typ == dpopTypJwt) && h.isSupportedAlgorithm

/-- The request a proof is for. An empty track name is no track. -/
structure AuthorizationContext where
  ctxType : String
  action : MoqtAction
  tns : List Bytes
  tn : Bytes
  resource : Option String
  deriving DecidableEq

def AuthorizationContext.newMoqt (action : MoqtAction) (namespaces : List Bytes) (track : Bytes) :
    AuthorizationContext := ⟨"moqt", action, namespaces, track, none⟩

def AuthorizationContext.isValid (a : AuthorizationContext) : Bool :=
  a.ctxType == "moqt" &&
    match a.action.resourceShape with
    | .endpoint => true
    | .namespaceTuple | .track => !a.tns.isEmpty

structure DpopPayload where
  cti : Option Bytes
  iat : Int64
  actx : AuthorizationContext
  ath : Option Bytes
  nonce : Option String
  deriving DecidableEq

namespace DpopPayload

def isValid (p : DpopPayload) : Bool := p.actx.isValid && p.iat > 0

def isFreshWithFutureTolerance (p : DpopPayload) (now windowSeconds futureTolerance : Int64) :
    Bool :=
  match now.checkedSub p.iat with
  | none => false
  | some age => !(age > windowSeconds) && !(age < -futureTolerance)

def isFresh (p : DpopPayload) (now windowSeconds : Int64) : Bool :=
  p.isFreshWithFutureTolerance now windowSeconds 5

/-- The accepted ages: at most the window, and at most five seconds in the future. -/
theorem isFresh_iff {p : DpopPayload} {now w : Int64} :
    p.isFresh now w = true ↔
      -2 ^ 63 ≤ now.toInt - p.iat.toInt ∧ now.toInt - p.iat.toInt < 2 ^ 63 ∧
        now.toInt - p.iat.toInt ≤ w.toInt ∧ -5 ≤ now.toInt - p.iat.toInt := by
  have hfive : (-(5 : Int64)).toInt = -5 := by decide
  unfold isFresh isFreshWithFutureTolerance
  cases hd : now.checkedSub p.iat with
  | none =>
    have hout : ¬(-2 ^ 63 ≤ now.toInt - p.iat.toInt ∧ now.toInt - p.iat.toInt < 2 ^ 63) := by
      intro hin
      rw [Int64.checkedSub, Int64.ofInt?, if_pos hin] at hd
      exact absurd hd (by simp)
    simp only [Bool.false_eq_true, false_iff]
    intro h
    exact hout ⟨h.1, h.2.1⟩
  | some age =>
    have hage := Int64.checkedSub_eq_some.mp hd
    have hlo := age.le_toInt
    have hhi := age.toInt_lt
    simp only [Bool.and_eq_true, Bool.not_eq_true', decide_eq_false_iff_not, gt_iff_lt,
      Int64.lt_iff_toInt_lt, hfive]
    omega

end DpopPayload

/-- The two parts a signature covers, as they were on the wire. -/
structure SignedInput where
  headerCbor : Bytes
  payloadCbor : Bytes
  deriving DecidableEq

def SignedInput.default : SignedInput := ⟨[], []⟩
def SignedInput.isEmpty (s : SignedInput) : Bool := s.headerCbor.isEmpty && s.payloadCbor.isEmpty

/-- An empty cache agrees with any header. -/
theorem DpopHeader.empty_cache {H : Host} {header : DpopHeader} :
    ∀ v ∈ (none : Option Bytes), header.jwk.thumbprint H = .ok v :=
  fun v h => absurd h (Option.not_mem_none v)

structure DpopProof (H : Host) where
  header : DpopHeader
  payload : DpopPayload
  signature : Bytes
  signedBytes : SignedInput
  wireFormat : DpopWireFormat
  jktCache : Option Bytes
  /-- The cache is filled from the header's key, and nothing changes the key afterwards. -/
  jktCache_eq : ∀ v ∈ jktCache, header.jwk.thumbprint H = .ok v

namespace DpopProof

variable {H : Host}

def new (header : DpopHeader) (payload : DpopPayload) (signature : Bytes) : DpopProof H :=
  ⟨header, payload, signature, .default, .cwt, none, DpopHeader.empty_cache⟩

def jwkThumbprint (p : DpopProof H) : Except CatError Bytes :=
  match p.jktCache with
  | some v => .ok v
  | none => p.header.jwk.thumbprint H

theorem jwkThumbprint_eq (p : DpopProof H) :
    p.jwkThumbprint = p.header.jwk.thumbprint H := by
  unfold jwkThumbprint
  cases hc : p.jktCache with
  | none => rfl
  | some v => exact (p.jktCache_eq v hc).symm

end DpopProof

/-! ## Confirmation -/

def confirmationMatchesThumbprint (cnf : ConfirmationClaim) (jkt : Bytes) : Bool :=
  constantTimeEq cnf.jkt jkt

def computeAccessTokenHash (H : Host) (accessToken : Bytes) : Bytes := H.sha256 accessToken

end Cat
