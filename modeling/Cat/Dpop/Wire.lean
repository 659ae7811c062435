import Cat.Dpop.Proof
import Cat.Lib.Hex

/-!
# What a proof's signature covers

The input of the signature check. A proof that was decoded or signed keeps the bytes of its
header and payload, and those are what is checked; for any other proof header and payload are
serialized, as CBOR or as JSON.

The bytes are kept because the two libraries need not write what they read: members of an object
may come in another order, a number in another width. A verifier that serialized again what it
had decoded would check a signature over bytes that nobody signed. The model keeps the
distinction, though a codec of the development reads its own output back.

The labels are those of COSE and of the CWT registry, under the names of the source. Names of
namespaces and tracks are bytes and go out as text, in an alphabet of letters, digits, the
underscore and a dot for escapes; tuples are joined with dashes. Only in JSON is the identifier
text, so an identifier that is no UTF-8 has no JSON form.
-/

set_option autoImplicit false

namespace Cat

open Cbor

def coseHdrAlg : Int64 := 1
def coseHdrCoseKey : Int64 := 4
def coseHdrTyp : Int64 := 16

def cwtClaimIat : Int64 := 6
def cwtClaimCti : Int64 := 7
def cwtClaimActx : Int64 := 400
def cwtClaimNonce : Int64 := 401
def cwtClaimAth : Int64 := 402

def actxType : Int64 := 0
def actxAction : Int64 := 1
def actxTns : Int64 := 2
def actxTn : Int64 := 3
def actxParameters : Int64 := 4

def coseKeyKty : Int64 := 1
def coseKeyAlg : Int64 := 3
def coseKeyCrv : Int64 := -1
def coseKeyX : Int64 := -2
def coseKeyY : Int64 := -3
def coseKeyN : Int64 := -1
def coseKeyE : Int64 := -2

def coseKtyEc2 : Int64 := 2
def coseKtyRsa : Int64 := 3
def coseCrvP256 : Int64 := 1

def coseToJoseAlgorithm (coseAlg : Int64) : Option String :=
  if coseAlg = algHmac256_256 then some "HS256"
  else if coseAlg = algEs256 then some "ES256"
  else if coseAlg = algPs256 then some "PS256"
  else none

/-- Both setup actions have one name. -/
def moqtActionWireName : MoqtAction → String
  | .clientSetup | .serverSetup => "SETUP"
  | .publishNamespace => "PUB_NS"
  | .subscribeNamespace => "SUB_NS"
  | .subscribe => "SUBSCRIBE"
  | .requestUpdate => "REQ_UPDATE"
  | .publish => "PUBLISH"
  | .fetch => "FETCH"
  | .trackStatus => "TRK_STATUS"

/-! ## Names as text -/

def isSafe (b : UInt8) : Bool := (Char.ofNat b.toNat).isAlphanum || b == 0x5f

/-- A byte that is not safe is written as a dot and two hex digits. -/
def moqCanonicalElement (bytes : Bytes) : List Char :=
  bytes.flatMap fun b => if isSafe b then [Char.ofNat b.toNat] else '.' :: Hex.byte b

def moqCanonicalTns (tns : List Bytes) : List Char :=
  ['-'].intercalate (tns.map moqCanonicalElement)

section
variable (H : Host)

def writeDpopCbor (v : Value) : Except CatError Bytes :=
  match H.cbor.write v with
  | .ok b => .ok b
  | .error e => .error (.invalidCbor e)

/-! ## As CBOR -/

/-- The members of a key as a COSE key: those of its type, decoded from base64url. -/
def jwkToCoseKey (jwk : Jwk) : Except CatError Value := do
  if jwk.kty = "EC" then
    if jwk.crv ≠ some "P-256" then
      let crv := match jwk.crv with
        | some s => s!"Some({H.debugStr s})"
        | none => "None"
      throw (.unsupportedAlgorithm s!"unsupported EC curve {crv}")
    let x ← Jwk.decodeMember H (jwk.x.getD "")
    let y ← Jwk.decodeMember H (jwk.y.getD "")
    return .map [(i64Value coseKeyKty, i64Value coseKtyEc2),
      (i64Value coseKeyAlg, i64Value algEs256), (i64Value coseKeyCrv, i64Value coseCrvP256),
      (i64Value coseKeyX, .bytes x), (i64Value coseKeyY, .bytes y)]
  else if jwk.kty = "RSA" then
    let n ← Jwk.decodeMember H (jwk.n.getD "")
    let e ← Jwk.decodeMember H (jwk.e.getD "")
    return .map [(i64Value coseKeyKty, i64Value coseKtyRsa),
      (i64Value coseKeyAlg, i64Value algPs256), (i64Value coseKeyN, .bytes n),
      (i64Value coseKeyE, .bytes e)]
  else throw (.unsupportedAlgorithm s!"COSE_Key encoding not implemented for kty={jwk.kty}")

/-- The request, label by label. An absent resource is an absent entry. -/
def actxToCbor (actx : AuthorizationContext) : Value :=
  .map ([(i64Value actxType, .text actx.ctxType),
      (i64Value actxAction, .text (moqtActionWireName actx.action)),
      (i64Value actxTns, .text (String.ofList (moqCanonicalTns actx.tns)))] ++
    (if actx.tn.isEmpty then []
      else [(i64Value actxTn, .text (String.ofList (moqCanonicalElement actx.tn)))]) ++
    (match actx.resource with
      | some resource =>
        [(i64Value actxParameters, .map [(.text "resource", .text resource)])]
      | none => []))

def encodeDpopHeader (header : DpopHeader) : Except CatError Bytes := do
  let coseKey ← jwkToCoseKey H header.jwk
  writeDpopCbor H (.map [(i64Value coseHdrAlg, i64Value header.alg),
    (i64Value coseHdrCoseKey, coseKey), (i64Value coseHdrTyp, .text header.typ)])

def encodeDpopPayload (payload : DpopPayload) : Except CatError Bytes :=
  writeDpopCbor H (.map ([(i64Value cwtClaimIat, i64Value payload.iat)] ++
    (payload.cti.map fun cti => (i64Value cwtClaimCti, Value.bytes cti)).toList ++
    [(i64Value cwtClaimActx, actxToCbor payload.actx)] ++
    (payload.nonce.map fun nonce => (i64Value cwtClaimNonce, Value.text nonce)).toList ++
    (payload.ath.map fun ath => (i64Value cwtClaimAth, Value.bytes ath)).toList))

/-! ## As JSON -/

def writeDpopJson (what : String) (v : Json) : Except CatError Bytes :=
  match H.json v with
  | .ok b => .ok b
  | .error e => .error (.keyOperationFailed s!"{what} serialize: {e}")

/-- Members that are absent are skipped. -/
def jwkToJson (jwk : Jwk) : Json :=
  .object (("kty", .string jwk.kty) ::
    ([("crv", jwk.crv), ("x", jwk.x), ("y", jwk.y), ("n", jwk.n), ("e", jwk.e)].filterMap
      fun member => member.2.map fun s => (member.1, Json.string s)))

def encodeHeaderJson (header : DpopHeader) : Except CatError Bytes :=
  match coseToJoseAlgorithm header.alg with
  | none => .error (.unsupportedAlgorithm s!"no JOSE mapping for COSE alg {header.alg.toInt}")
  | some alg => writeDpopJson H "header" (.object
      [("alg", .string alg), ("typ", .string header.typ), ("jwk", jwkToJson header.jwk)])

/-- The request, member by member, under the same names as in the structure. -/
def actxToJson (actx : AuthorizationContext) : Json :=
  .object ([("type", .string actx.ctxType), ("action", .string (moqtActionWireName actx.action)),
      ("tns", .string (String.ofList (moqCanonicalTns actx.tns)))] ++
    (if actx.tn.isEmpty then []
      else [("tn", .string (String.ofList (moqCanonicalElement actx.tn)))]) ++
    (actx.resource.map fun resource => ("resource", Json.string resource)).toList)

/-- The identifier goes out as text. -/
def jtiMember (cti : Option Bytes) : Except CatError (List (String × Json)) :=
  match cti with
  | none => .ok []
  | some cti =>
    match ofUtf8? cti with
    | some jti => .ok [("jti", .string jti)]
    | none => .error (.invalidClaimValue
        "JWT encoding requires jti to be UTF-8 text; the in-memory cti bytes are not valid UTF-8. Use text-form jti (e.g. generate_jti()) or the CWT wire format.")

def encodePayloadJson (payload : DpopPayload) : Except CatError Bytes := do
  let jti ← jtiMember payload.cti
  writeDpopJson H "payload" (.object ([("iat", .number payload.iat)] ++ jti ++
    [("actx", actxToJson payload.actx)] ++
    (payload.nonce.map fun nonce => ("nonce", Json.string nonce)).toList ++
    (payload.ath.map fun ath => ("ath", Json.string (H.base64Encode ath))).toList))

/-! ## The signing input -/

/-- The two parts in one of the two forms. -/
def encodeHeaderAndPayload (format : DpopWireFormat) (header : DpopHeader)
    (payload : DpopPayload) : Except CatError SignedInput := do
  match format with
  | .cwt => return ⟨← encodeDpopHeader H header, ← encodeDpopPayload H payload⟩
  | .jwt => return ⟨← encodeHeaderJson H header, ← encodePayloadJson H payload⟩

/-- Header and payload in base64url, with a dot between them. -/
def jwsSigningInput (bytes : SignedInput) : Bytes :=
  utf8 (H.base64Encode bytes.headerCbor) ++ 0x2e :: utf8 (H.base64Encode bytes.payloadCbor)

/-- The stored bytes where there are some. -/
def DpopProof.coveredBytes {H : Host} (p : DpopProof H) : Except CatError SignedInput :=
  if p.signedBytes.isEmpty then encodeHeaderAndPayload H p.wireFormat p.header p.payload
  else .ok p.signedBytes

def DpopProof.signingInput {H : Host} (p : DpopProof H) : Except CatError Bytes := do
  let bytes ← p.coveredBytes
  match p.wireFormat with
  | .cwt => createSigningInput H bytes.headerCbor bytes.payloadCbor p.header.alg
  | .jwt => return jwsSigningInput H bytes

end
end Cat
