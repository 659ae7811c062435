import Cat.Dpop.Validator
import Cat.Token.Enforce
import Cat.Token.Validator

/-!
# Relay requests

What a relay knows about a request when it asks for authorization, and the resource URI a proof
of possession may name. A field of the context that is not set is unknown, not a wildcard.
Header pairs are checked on the way in, so a context cannot hold one that carries a framing
byte.

That the pairs were checked is a field of the context, with the source's own function for the
check. So no section of the pipeline that reads headers has to consider what a line break in a
value would do.

A resource URI has an endpoint and, in its query, the elements of the namespace and the track,
each in base64url. Which of these may be there depends on the action, and the authorization
context of a proof is held to the same shape whether it has a URI or not.
-/

set_option autoImplicit false

namespace Cat

open Cbor

section
variable (H : Host)

/-- What would end a line, or a name, is refused. The value may have other controls. -/
def validateHeaderPair (name value : String) : Except CatError Unit :=
  if name.isEmpty then .error (.invalidClaimValue "request header name must be non-empty")
  else if !isAscii name.toList then .error (.invalidClaimValue
    s!"request header name {H.debugStr name} is not ASCII (RFC 9110 §5.1)")
  else
    match (utf8 name).find? fun b => [0x00, 0x0d, 0x0a, 0x20, 0x09, 0x3a].contains b with
    | some b => .error (.invalidClaimValue
        s!"request header name {H.debugStr name} contains disallowed byte 0x{String.ofList (Hex.byte b)}")
    | none =>
      match (utf8 value).find? fun b => [0x00, 0x0d, 0x0a].contains b with
      | some b => .error (.invalidClaimValue
          s!"request header {H.debugStr name} value contains framing byte 0x{String.ofList (Hex.byte b)}")
      | none => .ok ()

/-- What a relay knows of a request. Fields that are not set are unknown; headers are checked when
    they are added, and the field `headers_ok` says so. -/
structure RelayRequestContext where
  relayEndpoint : String
  action : MoqtAction
  namespaces : List Bytes
  track : Bytes
  peerTlsAlpn : Option Bytes := none
  peerIp : Option IpAddr := none
  peerAsn : Option UInt32 := none
  requestUri : Option String := none
  requestMethod : Option String := none
  requestHeaders : List (String × String) := []
  dpopProof : Option (DpopProof H) := none
  expectedDpopNonce : Option String := none
  peerLocation : Option RequestLocation := none
  headers_ok : ∀ h ∈ requestHeaders, validateHeaderPair H h.1 h.2 = .ok () := by simp

end

/-! ## Resource URIs -/

/-- The parts of `moqt://<endpoint>[?tns=<seg>,<seg>...[&tn=<name>]]`. -/
structure MoqtResourceUri where
  endpoint : String
  namespaces : Option (List Bytes) := none
  track : Option Bytes := none
  deriving DecidableEq

section
variable (H : Host)

def decodeSegment (what : String) (seg : List Char) : Except CatError Bytes :=
  match H.base64Decode (String.ofList seg) with
  | .ok b => .ok b
  | .error e => .error (.dpopValidationFailed s!"DPoP proof resource {what} base64 decode: {e}")

/-- One `key=value` of the query. A key that was seen before is unexpected. -/
def parseResourcePair (uri : MoqtResourceUri) (pair : List Char) :
    Except CatError MoqtResourceUri := do
  match pair.splitOnce '=' with
  | none => throw (.dpopValidationFailed "DPoP proof resource query segment has no '='")
  | some (k, v) =>
    if k = "tns".toList ∧ uri.namespaces.isNone then
      if v.isEmpty then
        throw (.dpopValidationFailed "DPoP proof resource tns value is empty")
      let segments ← (v.splitOn ',').mapM' (decodeSegment H "tns segment")
      return { uri with namespaces := some segments }
    else if k = "tn".toList ∧ uri.track.isNone then
      let decoded ← decodeSegment H "tn" v
      return { uri with track := some decoded }
    else throw (.dpopValidationFailed
      s!"DPoP proof resource has unexpected or repeated query key '{String.ofList k}'")

def parseResourceQuery (uri : MoqtResourceUri) :
    List (List Char) → Except CatError MoqtResourceUri
  | [] => .ok uri
  | pair :: pairs =>
    match parseResourcePair H uri pair with
    | .error e => .error e
    | .ok uri => parseResourceQuery uri pairs

/-- The endpoint up to the first question mark, and then pairs. A track without a tuple is refused.
    -/
def parseMoqtResourceUri (uri : String) : Except CatError MoqtResourceUri := do
  if !"moqt://".toList.isPrefixOf uri.toList then
    throw (.dpopValidationFailed s!"DPoP proof resource must start with moqt://; got '{uri}'")
  let rest := uri.toList.drop 7
  if rest.contains '#' || rest.contains '/' then
    throw (.dpopValidationFailed "DPoP proof resource must not contain '#' or '/'")
  let (endpoint, pairs) := match rest.splitOnce '?' with
    | some (ep, q) => (ep, q.splitOn '&')
    | none => (rest, [])
  if endpoint.isEmpty then
    throw (.dpopValidationFailed "DPoP proof resource endpoint is empty")
  let parsed ← parseResourceQuery H { endpoint := String.ofList endpoint } pairs
  if parsed.track.isSome && parsed.namespaces.isNone then
    throw (.dpopValidationFailed "DPoP proof resource carries tn without tns")
  return parsed

end

/-- A resource URI names what the action addresses, and nothing more. -/
def enforceResourceShape (action : MoqtAction) (parsed : MoqtResourceUri) :
    Except CatError Unit := do
  match action.resourceShape with
  | .endpoint =>
    if parsed.namespaces.isSome || parsed.track.isSome then
      throw (.dpopValidationFailed
        s!"DPoP proof resource carries namespace/track for setup action {action.debug}")
  | .namespaceTuple =>
    if parsed.namespaces.isNone then
      throw (.dpopValidationFailed s!"DPoP proof resource missing namespace for {action.debug}")
    if parsed.track.isSome then
      throw (.dpopValidationFailed
        s!"DPoP proof resource carries track for namespace action {action.debug}")
  | .track =>
    if parsed.namespaces.isNone || parsed.track.isNone then
      throw (.dpopValidationFailed
        s!"DPoP proof resource missing namespace or track for track action {action.debug}")

/-- So does the authorization context, with or without a resource URI. -/
def enforceActxShape (action : MoqtAction) (actx : AuthorizationContext) :
    Except CatError Unit := do
  match action.resourceShape with
  | .endpoint =>
    if !actx.tns.isEmpty then
      throw (.dpopValidationFailed
        s!"DPoP actx carries namespace for setup action {action.debug}")
    if !actx.tn.isEmpty then
      throw (.dpopValidationFailed s!"DPoP actx carries track for setup action {action.debug}")
  | .namespaceTuple =>
    if actx.tns.isEmpty then
      throw (.dpopValidationFailed s!"DPoP actx missing namespace for {action.debug}")
    if !actx.tn.isEmpty then
      throw (.dpopValidationFailed
        s!"DPoP actx carries track for namespace action {action.debug}")
  | .track =>
    if actx.tns.isEmpty || actx.tn.isEmpty then
      throw (.dpopValidationFailed
        s!"DPoP actx missing namespace or track for track action {action.debug}")

example : parseMoqtResourceUri .reference "moqt://relay?tns=YQ,Yg&tn=dA" =
    .ok ⟨"relay", some [[0x61], [0x62]], some [0x74]⟩ := by
  decide +kernel

end Cat
