import Cat.Dpop.Honest
import Cat.Dpop.Separation

/-!
# What the stored bytes of a proof say

A proof keeps the bytes its signature covers beside the fields they were read from or written
from, and the thumbprint beside the key. Every builder changes a field, so each of them has to
forget the bytes. Over any sequence of calls they are the current claims: none are stored, or
they are what signing writes for the fields, or they are the parts of an input and are read as
the fields.

It is the invariant behind verification. What is verified are the stored bytes, where there are
any, and what is acted upon are the fields; a builder that kept the bytes would leave a proof
that verifies and says something else. The calls are the builders, signing and decoding, in any
order, and the step lemma goes through them: each either forgets, or writes both, or reads one
from the other.
-/

set_option autoImplicit false

namespace Cat

open Cbor

/-! ## Calls -/

/-- What a caller can do with a proof. -/
inductive DpopProofCall where
  | new (header : DpopHeader) (payload : DpopPayload) (signature : Bytes)
  | createForMoqt (now : Int64) (action : MoqtAction) (namespaces : List Bytes) (track : Bytes)
      (alg : Int64) (jwk : Jwk)
  | decode (wire : Bytes)
  | decodeAs (wire : Bytes) (format : DpopWireFormat)
  | withWireFormat (format : DpopWireFormat)
  | withReplayId (id : Bytes)
  | withResource (resource : String)
  | withAccessTokenHash (ath : Bytes)
  | withAccessTokenHashB64 (athB64 : String)
  | withNonce (nonce : String)
  | sign (algorithm : CryptographicAlgorithm)
  | jwkThumbprint

/-- The input of a call that decodes. -/
def DpopProofCall.wire : DpopProofCall → Option Bytes
  | .decode wire => some wire
  | .decodeAs wire _ => some wire
  | _ => none

namespace DpopProof

section
variable {H : Host} (R : JsonReader)

/-- `jwk_thumbprint` fills the cache the first time it succeeds. -/
def cacheThumbprint (p : DpopProof H) : DpopProof H :=
  match p.jktCache with
  | some _ => p
  | none =>
    match h : p.header.jwk.thumbprint H with
    | .ok computed =>
      { p with
        jktCache := some computed
        jktCache_eq := fun v hv => by rw [h, Option.mem_some.mp hv] }
    | .error _ => p

/-- The proof at hand after a call. A constructor or decoder gives another one; what fails
    leaves it as it was. -/
def call (p : Option (DpopProof H)) : DpopProofCall → Option (DpopProof H)
  | .new header payload signature => some (.new header payload signature)
  | .createForMoqt now action namespaces track alg jwk =>
    some (createForMoqt H now action namespaces track alg jwk)
  | .decode wire => (decode H R wire).toOption.or p
  | .decodeAs wire format => (decodeAs H R wire format).toOption.or p
  | .withWireFormat format => p.map (withWireFormat · format)
  | .withReplayId id => p.map (withReplayId · id)
  | .withResource resource => p.map (withResource · resource)
  | .withAccessTokenHash ath => p.map (withAccessTokenHash · ath)
  | .withAccessTokenHashB64 athB64 => p.map (withAccessTokenHashB64 · athB64)
  | .withNonce nonce => p.map (withNonce · nonce)
  | .sign algorithm => p.map fun p => (p.sign algorithm).toOption.getD p
  | .jwkThumbprint => p.map cacheThumbprint

/-- The proof at hand after these calls. -/
def after (calls : List DpopProofCall) : Option (DpopProof H) := calls.foldl (call R) none

/-! ## The claims in the bytes -/

/-- The bytes are two parts of an input of this format. -/
def PartsOf (H : Host) (wire : Bytes) (bytes : SignedInput) : DpopWireFormat → Prop
  | .cwt => ∃ signature, H.cbor.read cborMaxRecursionDepth wire = .ok (.tag dpopTagSign1 (.array
      [.bytes bytes.headerCbor, .map [], .bytes bytes.payloadCbor, .bytes signature]), [])
  | .jwt => ∃ text header payload signature, ofUtf8? wire = some text ∧
      jwtParts text = .ok (header, payload, signature) ∧
      H.base64Decode header = .ok bytes.headerCbor ∧ H.base64Decode payload = .ok bytes.payloadCbor

/-- The bytes are read as this header and payload. -/
def ReadAs (H : Host) (R : JsonReader) (bytes : SignedInput) (header : DpopHeader)
    (payload : DpopPayload) : DpopWireFormat → Prop
  | .cwt => decodeDpopHeader H bytes.headerCbor = .ok header ∧
      decodeDpopPayload H bytes.payloadCbor = .ok payload
  | .jwt => decodeHeaderJson R bytes.headerCbor = .ok header ∧
      decodePayloadJson H R bytes.payloadCbor = .ok payload

/-- The bytes are those of the proof's header and payload: what signing writes for them, or
    what they were read from in one of the inputs. -/
inductive Describes (wires : List Bytes) (p : DpopProof H) (bytes : SignedInput) : Prop where
  | written (h : encodeHeaderAndPayload H p.wireFormat p.header p.payload = .ok bytes)
  | received (wire : Bytes) (mem : wire ∈ wires) (parts : PartsOf H wire bytes p.wireFormat)
      (read : ReadAs H R bytes p.header p.payload p.wireFormat)

/-- What is stored, if anything is, are the bytes of the current claims. -/
def Current (wires : List Bytes) (p : DpopProof H) : Prop :=
  p.signedBytes = .default ∨ Describes R wires p p.signedBytes

end

variable {H : Host} {R : JsonReader} {wires : List Bytes} {p q : DpopProof H}

theorem isEmpty_iff {bytes : SignedInput} : bytes.isEmpty = true ↔ bytes = .default := by
  obtain ⟨header, payload⟩ := bytes
  simp [SignedInput.isEmpty, SignedInput.default]

theorem decodeCwtProof_describes {wire : Bytes} (h : decodeCwtProof H wire = .ok p)
    (hmem : wire ∈ wires) : Describes R wires p p.signedBytes := by
  obtain ⟨-, hread, hheader, hpayload, hformat, -⟩ := decodeCwtProof_eq_ok.mp h
  apply Describes.received wire hmem
  · rw [hformat]
    exact ⟨p.signature, hread⟩
  · rw [hformat]
    exact ⟨hheader, hpayload⟩

theorem decodeJwtProof_describes {wire : Bytes} (h : decodeJwtProof H R wire = .ok p)
    (hmem : wire ∈ wires) : Describes R wires p p.signedBytes := by
  obtain ⟨-, ⟨text, header, payload, _, htext, hparts, hheaderBytes, hpayloadBytes, -⟩, hheader,
    hpayload, hformat, -⟩ := decodeJwtProof_eq_ok.mp h
  apply Describes.received wire hmem
  · rw [hformat]
    exact ⟨text, header, payload, _, htext, hparts, hheaderBytes, hpayloadBytes⟩
  · rw [hformat]
    exact ⟨hheader, hpayload⟩

theorem decode_describes {wire : Bytes} (h : decode H R wire = .ok p) (hmem : wire ∈ wires) :
    Describes R wires p p.signedBytes := by
  unfold decode at h
  by_cases hlook : looksLikeJwt wire = true
  · rw [if_pos hlook] at h
    exact decodeJwtProof_describes h hmem
  · rw [if_neg hlook] at h
    exact decodeCwtProof_describes h hmem

theorem decodeAs_describes {wire : Bytes} {format : DpopWireFormat}
    (h : decodeAs H R wire format = .ok p) (hmem : wire ∈ wires) :
    Describes R wires p p.signedBytes := by
  cases format with
  | cwt => exact decodeCwtProof_describes h hmem
  | jwt => exact decodeJwtProof_describes h hmem

/-- Signing stores what it wrote for the header and the payload it leaves in place. -/
theorem sign_describes {algorithm : CryptographicAlgorithm} (h : p.sign algorithm = .ok q) :
    Describes R wires q q.signedBytes := by
  obtain ⟨-, h₁⟩ := Except.guard_eq_ok.mp h
  obtain ⟨bytes, hbytes, h₂⟩ := Except.bind_eq_ok.mp h₁
  obtain ⟨input, -, h₃⟩ := Except.bind_eq_ok.mp h₂
  obtain ⟨signature, -, h₄⟩ := Except.bind_eq_ok.mp h₃
  obtain rfl := Except.pure_eq_ok.mp h₄
  exact .written hbytes

/-! ## Runs -/

theorem current_of_empty (h : p.signedBytes = .default) : Current R wires p := .inl h

/-- Filling the cache changes nothing else. -/
theorem cacheThumbprint_eq (p : DpopProof H) :
    (cacheThumbprint p).header = p.header ∧ (cacheThumbprint p).payload = p.payload ∧
      (cacheThumbprint p).wireFormat = p.wireFormat ∧
      (cacheThumbprint p).signedBytes = p.signedBytes := by
  unfold cacheThumbprint
  split
  · exact ⟨rfl, rfl, rfl, rfl⟩
  · split
    · exact ⟨rfl, rfl, rfl, rfl⟩
    · exact ⟨rfl, rfl, rfl, rfl⟩

theorem Describes.congr {bytes : SignedInput} (h : Describes R wires p bytes)
    (hheader : q.header = p.header) (hpayload : q.payload = p.payload)
    (hformat : q.wireFormat = p.wireFormat) : Describes R wires q bytes := by
  cases h with
  | written h =>
    apply Describes.written
    rw [hheader, hpayload, hformat]
    exact h
  | received wire mem parts read =>
    apply Describes.received wire mem
    · rw [hformat]
      exact parts
    · rw [hheader, hpayload, hformat]
      exact read

/-- A decoder gives a proof with the bytes it read, or leaves the proof at hand. -/
theorem current_of_decoded {x : Except CatError (DpopProof H)} {s : Option (DpopProof H)}
    (hx : ∀ p, x = .ok p → Describes R wires p p.signedBytes) (hs : ∀ p ∈ s, Current R wires p) :
    ∀ q ∈ x.toOption.or s, Current R wires q := by
  intro q hq
  cases x with
  | error e => exact hs q hq
  | ok p =>
    obtain rfl := Option.some.inj hq
    exact .inr (hx p rfl)

/-- **No call leaves bytes of other claims.** -/
theorem call_current {c : DpopProofCall} {s : Option (DpopProof H)}
    (hwire : ∀ wire ∈ c.wire, wire ∈ wires) (hs : ∀ p ∈ s, Current R wires p) :
    ∀ q ∈ call R s c, Current R wires q := by
  intro q hq
  -- a builder stores nothing, whatever the proof was
  have hbuilder : ∀ f : DpopProof H → DpopProof H, (∀ p, (f p).signedBytes = .default) →
      q ∈ s.map f → Current R wires q := by
    intro f hf hmem
    obtain ⟨p, -, rfl⟩ := Option.map_eq_some_iff.mp hmem
    exact current_of_empty (hf p)
  cases c with
  | new header payload signature =>
    obtain rfl := Option.some.inj hq
    exact current_of_empty rfl
  | createForMoqt now action namespaces track alg jwk =>
    obtain rfl := Option.some.inj hq
    exact current_of_empty rfl
  | decode wire => exact current_of_decoded (fun _ h => decode_describes h (hwire wire rfl)) hs q hq
  | decodeAs wire format =>
    exact current_of_decoded (fun _ h => decodeAs_describes h (hwire wire rfl)) hs q hq
  | withWireFormat format => exact hbuilder (withWireFormat · format) (fun _ => rfl) hq
  | withReplayId id => exact hbuilder (withReplayId · id) (fun _ => rfl) hq
  | withResource resource => exact hbuilder (withResource · resource) (fun _ => rfl) hq
  | withAccessTokenHash ath => exact hbuilder (withAccessTokenHash · ath) (fun _ => rfl) hq
  | withAccessTokenHashB64 athB64 =>
    exact hbuilder (withAccessTokenHashB64 · athB64) (fun _ => rfl) hq
  | withNonce nonce => exact hbuilder (withNonce · nonce) (fun _ => rfl) hq
  | sign algorithm =>
    obtain ⟨p, hp, rfl⟩ := Option.map_eq_some_iff.mp hq
    cases hsign : p.sign algorithm with
    | error e => exact hs p hp
    | ok signed => exact .inr (sign_describes hsign)
  | jwkThumbprint =>
    obtain ⟨p, hp, rfl⟩ := Option.map_eq_some_iff.mp hq
    obtain ⟨hheader, hpayload, hformat, hbytes⟩ := cacheThumbprint_eq p
    unfold Current
    rw [hbytes]
    exact (hs p hp).imp_right fun h => h.congr hheader hpayload hformat

/-- What a run leaves is current, relative to any inputs that include its own. -/
theorem foldl_current {calls : List DpopProofCall} {s : Option (DpopProof H)}
    (hwires : ∀ c ∈ calls, ∀ wire ∈ c.wire, wire ∈ wires) (hs : ∀ p ∈ s, Current R wires p) :
    ∀ q ∈ calls.foldl (call R) s, Current R wires q := by
  induction calls generalizing s with
  | nil => exact hs
  | cons c calls ih =>
    obtain ⟨hc, hcalls⟩ := List.forall_mem_cons.mp hwires
    exact ih hcalls (call_current hc hs)

/-- A signature covers bytes of the current claims: the stored ones, or what is written. -/
theorem Current.coveredBytes (h : Current R wires p) {bytes : SignedInput}
    (hbytes : p.coveredBytes = .ok bytes) : Describes R wires p bytes := by
  unfold DpopProof.coveredBytes at hbytes
  by_cases hempty : p.signedBytes.isEmpty = true
  -- nothing stored: the bytes are encoded anew
  · rw [if_pos hempty] at hbytes
    exact .written hbytes
  · rw [if_neg hempty] at hbytes
    obtain rfl := Except.ok.inj hbytes
    exact h.resolve_left fun hdefault => hempty (isEmpty_iff.mpr hdefault)

/-- **The bytes a proof is verified over are those of its claims.** After any calls, what a
    proof stores are bytes of its header and payload as they now stand; so are the bytes its
    signature is checked over; and the thumbprint it keeps is that of its key.

    Verification looks at the bytes and everything else at the fields, so this is what ties the two
    together, whichever builders were called in between. -/
theorem signedBytes_after (calls : List DpopProofCall) {p : DpopProof H}
    (h : after R calls = some p) :
    (p.signedBytes = .default ∨
      Describes R (calls.filterMap DpopProofCall.wire) p p.signedBytes) ∧
    (∀ input, p.signingInput = .ok input →
      DpopValidator.verifyWithEmbeddedKey p =
        p.header.jwk.verifies H p.header.alg input p.signature ∧
      ∃ bytes, Describes R (calls.filterMap DpopProofCall.wire) p bytes ∧
        signingInputOf H p.wireFormat bytes p.header.alg = .ok input) ∧
    (∀ v ∈ p.jktCache, p.header.jwk.thumbprint H = .ok v) ∧
    p.jwkThumbprint = p.header.jwk.thumbprint H := by
  have hwires : ∀ c ∈ calls, ∀ wire ∈ c.wire, wire ∈ calls.filterMap DpopProofCall.wire := by
    intro c hc wire hwire
    exact List.mem_filterMap.mpr ⟨c, hc, hwire⟩
  have hnone : ∀ p ∈ (none : Option (DpopProof H)),
      Current R (calls.filterMap DpopProofCall.wire) p := by
    intro p hp
    cases hp
  have hcurrent : Current R (calls.filterMap DpopProofCall.wire) p :=
    foldl_current hwires hnone p h
  refine ⟨hcurrent, fun input hinput => ?_, p.jktCache_eq, p.jwkThumbprint_eq⟩
  obtain ⟨bytes, hbytes, hinput'⟩ := Except.bind_eq_ok.mp hinput
  refine ⟨verifyWithEmbeddedKey_of_signingInput hinput, bytes, hcurrent.coveredBytes hbytes, ?_⟩
  unfold signingInputOf
  cases hformat : p.wireFormat with
  | cwt =>
    rw [hformat] at hinput'
    exact hinput'
  | jwt =>
    rw [hformat] at hinput'
    exact hinput'

theorem signedBytes_after_unsignedProof : ∃ p : DpopProof .reference,
    after setupReader [.decodeAs unsignedProof .cwt, .jwkThumbprint] = some p ∧
    (p.signedBytes = .default ∨ Describes setupReader [unsignedProof] p p.signedBytes) ∧
    p.jwkThumbprint = p.header.jwk.thumbprint .reference := by
  obtain ⟨p, hp, -⟩ := decodeCwtProof_unsignedProof
  have hafter : after setupReader [.decodeAs unsignedProof .cwt, .jwkThumbprint] =
      some (cacheThumbprint p) := by
    show ((decodeCwtProof .reference unsignedProof).toOption.or none).map cacheThumbprint = _
    rw [hp]
    rfl
  obtain ⟨hstored, -, -, hthumbprint⟩ := signedBytes_after _ hafter
  exact ⟨_, hafter, hstored, hthumbprint⟩

end DpopProof
end Cat
