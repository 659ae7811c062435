import Cat.Dpop.CwtDecode

/-!
# Reading a proof from JSON

`decodeJwtProof` reads the compact form: header, payload and signature in base64url with dots
between them. The JSON library is a parameter of its own, since only this reader reads JSON.
Unlike the CBOR reader this one takes the empty text for the empty tuple of names.

The parameter (`JsonReader`) has a function for each pass the source makes: one parses the text,
and another one lists the keys of the object at the top in the order in which they come, so that
a repeated one can be refused before a map has swallowed it. Only the keys at the top are
listed. What is relied on of them is stated where it is used (`JsonTexts`), with a reader that
has the properties beside it.

`looksLikeJwt` decides between the forms by the bytes: a proof in JSON is ASCII with two dots in
it, and a proof in CBOR starts with a byte that is not ASCII.
-/

set_option autoImplicit false

namespace Cat

open Cbor

/-- The JSON library as the reader meets it. -/
structure JsonReader where
  /-- `serde_json::from_slice`. -/
  parse : Bytes → Except String Json
  /-- The keys of the object the input starts with, as a visitor gets them, and how the
      reading ended. -/
  topLevelKeys : Bytes → List String × Except String Unit
  /-- An error of the visitor, with the place the input was read to. -/
  customError : Bytes → String → String
  /-- `serde_json::from_value` for a `Jwk`. -/
  jwk : Json → Except String Jwk

/-! ## Members -/

def Json.get (members : List (String × Json)) (name : String) : Option Json := members.lookup name

def Json.asStr : Json → Option String
  | .string s => some s
  | _ => none

def Json.asI64 : Json → Option Int64
  | .number n => some n
  | _ => none

def Json.asObject : Json → Option (List (String × Json))
  | .object members => some members
  | _ => none

/-- A member that must be a text. -/
def textMember (members : List (String × Json)) (name claim : String) : Except CatError String :=
  orMissing ((Json.get members name).bind Json.asStr) claim

/-- The first key that has been seen before. -/
def duplicateKey (seen : List String) : List String → Option String
  | [] => none
  | key :: keys => if seen.contains key then some key else duplicateKey (key :: seen) keys

def joseToCoseAlgorithm (joseAlg : String) : Option Int64 :=
  if joseAlg = "HS256" then some algHmac256_256
  else if joseAlg = "ES256" then some algEs256
  else if joseAlg = "PS256" then some algPs256
  else none

section
variable (H : Host) (R : JsonReader)

def rejectDuplicateTopLevelKeys (bytes : Bytes) : Except CatError Unit :=
  match duplicateKey [] (R.topLevelKeys bytes).1 with
  | some key =>
    .error (.invalidClaimValue (R.customError bytes s!"duplicate JSON key: {key}"))
  | none =>
    match (R.topLevelKeys bytes).2 with
    | .error e => .error (.invalidClaimValue e)
    | .ok () => .ok ()

/-- The members of an object with no key twice. -/
def readJsonObject (bytes : Bytes) : Except CatError (List (String × Json)) := do
  rejectDuplicateTopLevelKeys R bytes
  match R.parse bytes with
  | .error e => throw (.invalidCbor e)
  | .ok v =>
    match v.asObject with
    | none => throw .invalidTokenFormat
    | some members => return members

/-! ## Header and payload -/

def decodeHeaderJson (bytes : Bytes) : Except CatError DpopHeader := do
  let obj ← readJsonObject R bytes
  let algStr ← textMember obj "alg" "alg"
  let alg ← match joseToCoseAlgorithm algStr with
    | some alg => pure alg
    | none => throw (.unsupportedAlgorithm algStr)
  let typ ← textMember obj "typ" "typ"
  let jwkVal ← orMissing (Json.get obj "jwk") "jwk"
  match R.jwk jwkVal with
  | .error e => throw (.invalidClaimValue s!"jwk: {e}")
  | .ok jwk => return ⟨alg, typ, jwk⟩

/-- The tuple of names. -/
def tnsFromJson (members : List (String × Json)) : Except CatError (List Bytes) :=
  match Json.get members "tns" with
  | some (.string s) => if s = "" then .ok [] else moqTnsFromCanonical s
  | some _ => .error (.invalidClaimValue
      "actx.tns must be a text string in MOQ canonical form; array forms are not part of draft-nandakumar-moq-generic-dpop-proof-00 §3.2")
  | none => .error (.missingRequiredClaim "actx.tns")

def tnFromJson (members : List (String × Json)) : Except CatError Bytes :=
  match Json.get members "tn" with
  | some (.string s) => if s = "" then .ok [] else moqElementFromCanonical (utf8 s)
  | some _ => .error (.invalidClaimValue "actx.tn must be a text string")
  | none => .ok []

def actxFromJson (v : Json) : Except CatError AuthorizationContext := do
  let obj ← match v.asObject with
    | some members => pure members
    | none => throw (.invalidClaimValue "actx must be a JSON object")
  let ctxType ← textMember obj "type" "actx.type"
  let actionName ← textMember obj "action" "actx.action"
  let action ← moqtActionFromWireName actionName
  let tns ← tnsFromJson obj
  let tn ← tnFromJson obj
  return ⟨ctxType, action, tns, tn, (Json.get obj "resource").bind Json.asStr⟩

def jtiFromJson (members : List (String × Json)) : Except CatError (Option Bytes) :=
  match Json.get members "jti" with
  | some (.string s) => .ok (some (utf8 s))
  | some _ => .error (.invalidClaimValue "jti must be a string")
  | none => .ok none

def athFromJson (members : List (String × Json)) : Except CatError (Option Bytes) :=
  match Json.get members "ath" with
  | some (.string s) => (Jwk.decodeMember H s).map some
  | some _ => .error (.invalidClaimValue "ath must be a base64url string")
  | none => .ok none

def decodePayloadJson (bytes : Bytes) : Except CatError DpopPayload := do
  let obj ← readJsonObject R bytes
  let iat ← orMissing ((Json.get obj "iat").bind Json.asI64) "iat"
  let cti ← jtiFromJson obj
  let actxVal ← orMissing (Json.get obj "actx") "actx"
  let actx ← actxFromJson actxVal
  let ath ← athFromJson H obj
  return ⟨cti, iat, actx, ath, (Json.get obj "nonce").bind Json.asStr⟩

/-! ## The proof -/

/-- Header, payload and signature, still in base64url. -/
def jwtParts (text : String) : Except CatError (String × String × String) :=
  match text.toList.splitOn '.' with
  | [header, payload, signature] =>
    .ok (String.ofList header, String.ofList payload, String.ofList signature)
  | _ => .error .invalidTokenFormat

/-- `jwt::decode`. -/
def decodeJwtProof (bytes : Bytes) : Except CatError (DpopProof H) := do
  if bytes.length > maxDpopWireSize then throw .invalidTokenFormat
  let text ← match ofUtf8? bytes with
    | some text => pure text
    | none => throw .invalidTokenFormat
  let (headerPart, payloadPart, signaturePart) ← jwtParts text
  let headerBytes ← Jwk.decodeMember H headerPart
  let payloadBytes ← Jwk.decodeMember H payloadPart
  let signature ← Jwk.decodeMember H signaturePart
  let header ← decodeHeaderJson R headerBytes
  let payload ← decodePayloadJson H R payloadBytes
  return ⟨header, payload, signature, ⟨headerBytes, payloadBytes⟩, .jwt, none, DpopHeader.empty_cache⟩

/-! ## Either format -/

/-- Nothing but ASCII, and two dots. -/
def looksLikeJwt (bytes : Bytes) : Bool :=
  !bytes.isEmpty && bytes.all (· < 0x80) && bytes.count 0x2e == 2

/-- `DpopProof::decode`. -/
def DpopProof.decode (bytes : Bytes) : Except CatError (DpopProof H) :=
  if looksLikeJwt bytes then decodeJwtProof H R bytes else decodeCwtProof H bytes

/-- `DpopProof::decode_as`. -/
def DpopProof.decodeAs (bytes : Bytes) (format : DpopWireFormat) : Except CatError (DpopProof H) :=
  match format with
  | .cwt => decodeCwtProof H bytes
  | .jwt => decodeJwtProof H R bytes

end

/-! ## What is read -/

section
variable {H : Host} {R : JsonReader}

theorem decodeMember_eq_ok {s : String} {b : Bytes} :
    Jwk.decodeMember H s = .ok b ↔ H.base64Decode s = .ok b := by
  unfold Jwk.decodeMember
  cases H.base64Decode s <;> simp

/-- No key twice, and none that has been seen. -/
theorem duplicateKey_eq_none {keys seen : List String} :
    duplicateKey seen keys = none ↔ keys.Nodup ∧ ∀ key ∈ keys, key ∉ seen := by
  induction keys generalizing seen with
  | nil => simp [duplicateKey]
  | cons key keys ih =>
    rw [duplicateKey, List.nodup_cons, List.forall_mem_cons]
    by_cases hseen : key ∈ seen
    · simp [hseen]
    · rw [if_neg (by simpa using hseen), ih]
      -- no later key is this one: it counts as seen from here on
      have hlater : (∀ k ∈ keys, k ∉ key :: seen) ↔ key ∉ keys ∧ ∀ k ∈ keys, k ∉ seen := by
        simp only [List.mem_cons, not_or, forall_and]
        exact and_congr_left' ⟨fun h hmem => h key hmem rfl, fun h k hk heq => h (heq ▸ hk)⟩
      rw [hlater]
      tauto

theorem rejectDuplicateTopLevelKeys_eq_ok {b : Bytes} :
    rejectDuplicateTopLevelKeys R b = .ok () ↔
      (R.topLevelKeys b).1.Nodup ∧ (R.topLevelKeys b).2 = .ok () := by
  have hnone := @duplicateKey_eq_none (R.topLevelKeys b).1 []
  unfold rejectDuplicateTopLevelKeys
  cases hdup : duplicateKey [] (R.topLevelKeys b).1 with
  | some key =>
    rw [hdup] at hnone
    constructor
    · intro h
      cases h
    · intro h
      exact absurd (hnone.mpr ⟨h.1, fun _ _ => List.not_mem_nil⟩) (by simp)
  | none =>
    cases (R.topLevelKeys b).2 with
    | error e => simp
    | ok u => simp [(hnone.mp hdup).1]

/-- An object that is read: with no key twice, and to its end. -/
theorem readJsonObject_eq_ok {b : Bytes} {ws : List (String × Json)} :
    readJsonObject R b = .ok ws ↔ R.parse b = .ok (.object ws) ∧
      (R.topLevelKeys b).1.Nodup ∧ (R.topLevelKeys b).2 = .ok () := by
  unfold readJsonObject
  rw [Except.bind_eq_ok, ← rejectDuplicateTopLevelKeys_eq_ok, and_comm]
  constructor
  · intro h
    obtain ⟨_, hunique, hread⟩ := h
    refine ⟨hunique, ?_⟩
    cases hparse : R.parse b with
    | error e => simp [hparse] at hread
    | ok v =>
      rw [hparse] at hread
      cases v with
      | object members => rw [Except.pure_eq_ok.mp hread]
      | _ => cases hread
  · intro h
    obtain ⟨hunique, hparse⟩ := h
    refine ⟨(), hunique, ?_⟩
    rw [hparse]
    rfl

/-- **A proof in JSON that is read.** -/
theorem decodeJwtProof_eq_ok {b : Bytes} {p : DpopProof H} :
    decodeJwtProof H R b = .ok p ↔ b.length ≤ maxDpopWireSize ∧
      (∃ text header payload signature, ofUtf8? b = some text ∧
        jwtParts text = .ok (header, payload, signature) ∧
        H.base64Decode header = .ok p.signedBytes.headerCbor ∧
        H.base64Decode payload = .ok p.signedBytes.payloadCbor ∧
        H.base64Decode signature = .ok p.signature) ∧
      decodeHeaderJson R p.signedBytes.headerCbor = .ok p.header ∧
      decodePayloadJson H R p.signedBytes.payloadCbor = .ok p.payload ∧
      p.wireFormat = .jwt ∧ p.jktCache = none := by
  constructor
  · intro h
    obtain ⟨hlen, h₁⟩ := Except.guard_eq_ok.mp h
    split at h₁
    case h_2 => cases h₁
    rename_i text htext
    obtain ⟨_, htext', h₂⟩ := Except.bind_eq_ok.mp h₁
    obtain rfl := Except.pure_eq_ok.mp htext'
    obtain ⟨⟨hpart, ppart, spart⟩, hparts, h₃⟩ := Except.bind_eq_ok.mp h₂
    obtain ⟨hbytes, hhbytes, h₄⟩ := Except.bind_eq_ok.mp h₃
    obtain ⟨pbytes, hpbytes, h₅⟩ := Except.bind_eq_ok.mp h₄
    obtain ⟨signature, hsignature, h₆⟩ := Except.bind_eq_ok.mp h₅
    obtain ⟨header, hheader, h₇⟩ := Except.bind_eq_ok.mp h₆
    obtain ⟨payload, hpayload, h₈⟩ := Except.bind_eq_ok.mp h₇
    obtain rfl := Except.pure_eq_ok.mp h₈
    exact ⟨not_lt.mp hlen, ⟨text, hpart, ppart, spart, htext, hparts, decodeMember_eq_ok.mp hhbytes,
      decodeMember_eq_ok.mp hpbytes, decodeMember_eq_ok.mp hsignature⟩, hheader, hpayload, rfl, rfl⟩
  · intro h
    obtain ⟨header, payload, signature, ⟨hb, pb⟩, wireFormat, cache, hcache⟩ := p
    obtain ⟨hlen, ⟨text, hpart, ppart, spart, htext, hparts, hhbytes, hpbytes, hsignature⟩,
      hheader, hpayload, rfl, rfl⟩ := h
    refine Except.guard_eq_ok.mpr ⟨not_lt.mpr hlen, ?_⟩
    rw [htext]
    refine Except.bind_eq_ok.mpr ⟨text, rfl, ?_⟩
    refine Except.bind_eq_ok.mpr ⟨_, hparts, ?_⟩
    refine Except.bind_eq_ok.mpr ⟨hb, decodeMember_eq_ok.mpr hhbytes, ?_⟩
    refine Except.bind_eq_ok.mpr ⟨pb, decodeMember_eq_ok.mpr hpbytes, ?_⟩
    refine Except.bind_eq_ok.mpr ⟨signature, decodeMember_eq_ok.mpr hsignature, ?_⟩
    refine Except.bind_eq_ok.mpr ⟨header, hheader, ?_⟩
    exact Except.bind_eq_ok.mpr ⟨payload, hpayload, rfl⟩

end
end Cat
