import Cat.Dpop.JwtDecode

/-!
# Making a proof

What a client does: build a proof for a request, sign it, encode it. Every builder forgets the
signed bytes, so a proof is encoded as it was last signed or, unsigned, as its fields stand.

The header names the algorithm, and signing compares it with the one of the key before anything
is signed. The wire form is a setting of the proof, and changing it changes the `typ` of the
header with it. Time and randomness are arguments: the identifier of a proof is drawn by the
caller, and the clock is read there.
-/

set_option autoImplicit false

namespace Cat

open Cbor

/-- The `typ` of a format. -/
def DpopWireFormat.typ : DpopWireFormat → String
  | .cwt => dpopTyp
  | .jwt => dpopTypJwt

def DpopHeader.new (wireFormat : DpopWireFormat) (alg : Int64) (jwk : Jwk) : DpopHeader :=
  ⟨alg, wireFormat.typ, jwk⟩

/-- A payload made now. -/
def DpopPayload.new (now : Int64) (actx : AuthorizationContext) : DpopPayload :=
  ⟨none, now, actx, none, none⟩

namespace DpopProof

variable {H : Host}

def createForMoqt (H : Host) (now : Int64) (action : MoqtAction) (namespaces : List Bytes)
    (track : Bytes) (alg : Int64) (jwk : Jwk) : DpopProof H where
  header := .new .cwt alg jwk
  payload := .new now (.newMoqt action namespaces track)
  signature := []
  signedBytes := .default
  wireFormat := .cwt
  jktCache := none
  jktCache_eq := by simp

def withWireFormat (p : DpopProof H) (format : DpopWireFormat) : DpopProof H :=
  { p with
    wireFormat := format
    header := { p.header with typ := format.typ }
    signedBytes := .default }

def withReplayId (p : DpopProof H) (id : Bytes) : DpopProof H :=
  { p with
    payload := { p.payload with cti := some id }
    signedBytes := .default }

def withAccessTokenHash (p : DpopProof H) (ath : Bytes) : DpopProof H :=
  { p with
    payload := { p.payload with ath := some ath }
    signedBytes := .default }

def withResource (p : DpopProof H) (resource : String) : DpopProof H :=
  { p with
    payload := { p.payload with actx := { p.payload.actx with resource := some resource } }
    signedBytes := .default }

/-- A hash that is not base64url is taken as it stands. -/
def withAccessTokenHashB64 (p : DpopProof H) (athB64 : String) : DpopProof H :=
  let bytes := match H.base64Decode athB64 with
    | .ok bytes => bytes
    | .error _ => utf8 athB64
  { p with
    payload := { p.payload with ath := some bytes }
    signedBytes := .default }

def withNonce (p : DpopProof H) (nonce : String) : DpopProof H :=
  { p with
    payload := { p.payload with nonce := some nonce }
    signedBytes := .default }

/-- What a signature over these bytes covers. -/
def signingInputOf (H : Host) (format : DpopWireFormat) (bytes : SignedInput) (alg : Int64) :
    Except CatError Bytes :=
  match format with
  | .cwt => createSigningInput H bytes.headerCbor bytes.payloadCbor alg
  | .jwt => .ok (jwsSigningInput H bytes)

def sign (p : DpopProof H) (algorithm : CryptographicAlgorithm) :
    Except CatError (DpopProof H) := do
  if algorithm.algorithmId ≠ p.header.alg then
    throw (.algorithmMismatch p.header.alg algorithm.algorithmId)
  let bytes ← encodeHeaderAndPayload H p.wireFormat p.header p.payload
  let sigInput ← signingInputOf H p.wireFormat bytes p.header.alg
  let signature ← algorithm.sign sigInput
  return { p with signature := signature, signedBytes := bytes }

/-- The wire form over the bytes of header and payload. -/
def wire (H : Host) (format : DpopWireFormat) (bytes : SignedInput) (signature : Bytes) :
    Except CatError Bytes :=
  match format with
  | .cwt => writeDpopCbor H (.tag dpopTagSign1 (.array
      [.bytes bytes.headerCbor, .map [], .bytes bytes.payloadCbor, .bytes signature]))
  | .jwt => .ok (jwsSigningInput H bytes ++ 0x2e :: utf8 (H.base64Encode signature))

/-- `DpopProof::encode`. -/
def encode (p : DpopProof H) : Except CatError Bytes := do
  let bytes ← p.coveredBytes
  wire H p.wireFormat bytes p.signature

end DpopProof
end Cat
