import Cat.Encrypt
import Cat.Token.Decoder

/-!
# Decoding an encrypted token

A decoder with a content key expects an encrypted envelope and decodes the signed token inside.
It caps that token by the limit of a *payload*, so a token whose payload is within the limits
and which is itself above them is decoded when it comes in the clear and refused when it is
wrapped; apart from that, wrapping changes nothing (`decode_encrypted_iff`).

The statement is about any token, issued or not: an envelope made with the content key is
decoded to just what the decoder without the key makes of its content, marked as having come
encrypted. The mark is what the claim validator goes by when it comes to claims that must not
travel in the clear, so that it is set on this path and on no other matters as much as the
decryption.
-/

set_option autoImplicit false

namespace Cat

open Cbor

/-- A decoder that may hold a content key. -/
structure ContentDecoder extends Decoder where
  encryptionKey : Option Bytes

/-- `encryption_key` of the builder. -/
def Decoder.encryptionKey (d : Decoder) (key : Bytes) : ContentDecoder := ⟨d, some key⟩

/-- A decoder for which no content key was given. -/
def Decoder.signedOnly (d : Decoder) : ContentDecoder := ⟨d, none⟩

/-- `Decoder::decode`. -/
def ContentDecoder.decode (H : Host) (G : AesGcm) (d : ContentDecoder) (coseBytes : Bytes) :
    Except CatError VerifiedToken :=
  match d.encryptionKey with
  | some encKey => do
    let maxPlaintext := min maxTokenSize d.limits.maxCborPayloadSize
    let innerBytes ← coseDecrypt0WithMaxPlaintext H G coseBytes encKey maxPlaintext
    let verified ← d.decodeSigned H innerBytes
    -- a proof of possession binds to the bytes that were sent, so these are kept
    return ⟨verified.token, verified.header, .encrypted, coseBytes⟩
  | none => d.decodeSigned H coseBytes

section
variable {H : Host} {G : AesGcm} {d : Decoder} {s contentKey e : Bytes}
  {algorithm : EncryptionAlgorithm} {nonce : Nonce}

theorem decode_signedOnly (d : Decoder) (b : Bytes) :
    d.signedOnly.decode H G b = d.decodeSigned H b := rfl

/-- **Encryption adds nothing but decryption**, for a signed token within the payload's limit: the
    wrapped token is decoded exactly when the token is, to the same claims and header.

    The cap on the plaintext is the tighter of the one for tokens and the one for payloads, by
    intention. A token whose payload is within the limit may exceed it as a whole, and such a token
    is decoded in the clear and refused when it is wrapped. -/
theorem decode_encrypted_iff (hwrap : coseEncrypt0 H G s contentKey algorithm nonce = .ok e)
    (hsize : e.length ≤ maxEncrypt0Size) {v : VerifiedToken} :
    (d.encryptionKey contentKey).decode H G e = .ok v ↔
      s.length ≤ d.limits.maxCborPayloadSize ∧
        ∃ w, d.signedOnly.decode H G s = .ok w ∧ v = ⟨w.token, w.header, .encrypted, e⟩ := by
  -- the envelope's cap is the token's, so of the two only the payload's limit is left
  have hcap : s.length ≤ min maxTokenSize d.limits.maxCborPayloadSize ↔
      s.length ≤ d.limits.maxCborPayloadSize := by
    obtain ⟨header, aad, ciphertext, cipher, henvelope⟩ := encrypt0Envelope_of_ok hwrap
    have hle := length_plaintext_le henvelope
    have hfits : s.length ≤ maxTokenSize :=
      Nat.le_trans (Nat.le_add_right _ _) (Nat.le_trans hle hsize)
    rw [Nat.le_min]
    exact and_iff_right hfits
  rw [decode_signedOnly]
  show (coseDecrypt0WithMaxPlaintext H G e contentKey _ >>= fun _ => _) = _ ↔ _
  rw [Except.bind_eq_ok]
  constructor
  · rintro ⟨m, hm, hv⟩
    obtain ⟨hlen, rfl⟩ := (coseDecrypt0_encrypted hwrap hsize).mp hm
    obtain ⟨w, hw, hv⟩ := Except.bind_eq_ok.mp hv
    exact ⟨hcap.mp hlen, w, hw, (Except.pure_eq_ok.mp hv).symm⟩
  · rintro ⟨hlen, w, hw, rfl⟩
    refine ⟨s, (coseDecrypt0_encrypted hwrap hsize).mpr ⟨hcap.mpr hlen, rfl⟩, ?_⟩
    exact Except.bind_eq_ok.mpr ⟨w, hw, rfl⟩

end

/-! ## A token without claims

Its authentication code and its ciphertext are those of the zero keys and the zero nonce. -/

def emptyTokenMacInput : Bytes :=
  [0x84, 0x64, 0x4d, 0x41, 0x43, 0x30, 0x43, 0xa1, 0x01, 0x05, 0x40, 0x41, 0xa0]

def emptyTokenMac : Bytes :=
  [0x4e, 0xe4, 0x1a, 0xa5, 0x8b, 0x3d, 0x4a, 0x2c, 0xa9, 0xb3, 0x89, 0x1b, 0xb1, 0xd3, 0x6a, 0xfc,
    0x02, 0x6b, 0x1a, 0x3a, 0x9f, 0x0d, 0x0e, 0x01, 0x2d, 0x52, 0x0a, 0x24, 0xd1, 0xe5, 0xa3, 0x4f]

def emptyTokenAad : Bytes :=
  [0x83, 0x68, 0x45, 0x6e, 0x63, 0x72, 0x79, 0x70, 0x74, 0x30, 0x43, 0xa1, 0x01, 0x01, 0x40]

def emptyTokenCiphertext : Bytes :=
  [0xd2, 0x0c, 0x99, 0x6f, 0x61, 0xb3, 0x03, 0xd3, 0x53, 0x70, 0xe2, 0xf7, 0x95, 0xa8, 0x5b, 0xf3,
    0xca, 0xdf, 0x86, 0x02, 0xfa, 0xc2, 0x42, 0x92, 0x24, 0x97, 0x75, 0xfd, 0xff, 0x91, 0xfb, 0x7f,
    0x2d, 0x0c, 0x10, 0x0c, 0x1c, 0x79, 0xb0, 0x0b, 0xc5, 0x2a, 0xf9, 0x77, 0x77, 0x9f, 0x9d, 0x93,
    0x47, 0x84, 0xe6, 0xa0, 0xf4, 0x30, 0x4b, 0xf2, 0x15, 0xda, 0xf7]

/-- The token: header, payload and authentication code. -/
def emptyToken : Bytes :=
  [0xd1, 0x84, 0x43, 0xa1, 0x01, 0x05, 0xa0, 0x41, 0xa0, 0x58, 0x20] ++ emptyTokenMac

def emptyTokenNonce : Nonce := ⟨List.replicate 12 0, rfl⟩

def emptyTokenEnvelope : Bytes :=
  [0xd0, 0x83, 0x43, 0xa1, 0x01, 0x01, 0xa1, 0x05, 0x4c] ++ emptyTokenNonce.bytes ++ [0x58, 0x3b] ++
    emptyTokenCiphertext

/-- The authentication of the zero key, as far as the token needs it. -/
def zeroMac : CryptographicAlgorithm where
  algorithmId := algHmac256_256
  sign input :=
    if input = emptyTokenMacInput then .ok emptyTokenMac else .error (.keyOperationFailed "")
  verify input signature :=
    if input = emptyTokenMacInput ∧ signature = emptyTokenMac then .ok ()
    else .error .signatureVerificationFailed

/-- AES-128-GCM of the zero key, as far as the token needs it. -/
def zeroCipher : GcmCipher where
  encrypt n aad m :=
    if n = emptyTokenNonce ∧ aad = emptyTokenAad ∧ m = emptyToken then .ok emptyTokenCiphertext
    else .error "aead::Error"
  decrypt n aad c :=
    if n = emptyTokenNonce ∧ aad = emptyTokenAad ∧ c = emptyTokenCiphertext then .ok emptyToken
    else .error "aead::Error"
  decrypt_encrypt := by
    intro n aad m c h
    split at h
    · rename_i hargs
      rw [if_pos ⟨hargs.1, hargs.2.1, (Except.ok.inj h).symm⟩, hargs.2.2]
    · cases h
  encrypt_decrypt := by
    intro n aad m c h
    split at h
    · rename_i hargs
      rw [if_pos ⟨hargs.1, hargs.2.1, (Except.ok.inj h).symm⟩, hargs.2.2]
    · cases h
  length_encrypt := by
    intro n aad m c h
    split at h
    · rename_i hargs
      obtain rfl := Except.ok.inj h
      rw [hargs.2.2]
      rfl
    · cases h

def zeroGcm : AesGcm := fun algorithm key =>
  if algorithm = .a128Gcm ∧ key = List.replicate 16 0 then .ok zeroCipher
  else .error "Invalid Length"

theorem decode_encrypted_empty :
    coseEncrypt0 .reference zeroGcm emptyToken (List.replicate 16 0) .a128Gcm emptyTokenNonce =
        .ok emptyTokenEnvelope ∧ emptyTokenEnvelope.length ≤ maxEncrypt0Size ∧
      ∀ v, ((Decoder.withAlgorithm zeroMac).encryptionKey (List.replicate 16 0)).decode .reference
          zeroGcm emptyTokenEnvelope = .ok v ↔
        emptyToken.length ≤ (Decoder.withAlgorithm zeroMac).limits.maxCborPayloadSize ∧
          ∃ w, (Decoder.withAlgorithm zeroMac).signedOnly.decode .reference zeroGcm emptyToken =
            .ok w ∧ v = ⟨w.token, w.header, .encrypted, emptyTokenEnvelope⟩ := by
  have hwrap : coseEncrypt0 .reference zeroGcm emptyToken (List.replicate 16 0) .a128Gcm
      emptyTokenNonce = .ok emptyTokenEnvelope := by decide +kernel
  have hsize : emptyTokenEnvelope.length ≤ maxEncrypt0Size := by decide
  exact ⟨hwrap, hsize, fun _ => decode_encrypted_iff hwrap hsize⟩

/-- The default limits, but for payloads of eight bytes. -/
def eightByteLimits : CwtLimits :=
  { CwtLimits.default with maxCborPayloadSize := 8, payload_ok := by decide }

/-- **With payloads of eight bytes allowed, the token of forty-three bytes is decoded only in the
    clear**, though its payload is a single byte. -/
theorem encrypted_not_decoded :
    ¬∀ (H : Host) (G : AesGcm) (limits : CwtLimits) (key : DecoderKey) (contentKey s e : Bytes)
      (algorithm : EncryptionAlgorithm) (nonce : Nonce),
      coseEncrypt0 H G s contentKey algorithm nonce = .ok e → e.length ≤ maxEncrypt0Size →
      ∀ v, ((Decoder.mk key none limits).encryptionKey contentKey).decode H G e = .ok v ↔
        ∃ w, (Decoder.mk key none limits).signedOnly.decode H G s = .ok w ∧
          v = ⟨w.token, w.header, .encrypted, e⟩ := by
  intro h
  have hwrap : coseEncrypt0 .reference zeroGcm emptyToken (List.replicate 16 0) .a128Gcm
      emptyTokenNonce = .ok emptyTokenEnvelope := by decide +kernel
  have hiff := h .reference zeroGcm eightByteLimits (.algorithm zeroMac) (List.replicate 16 0)
    emptyToken emptyTokenEnvelope .a128Gcm emptyTokenNonce hwrap (by decide)
  have hclear : ((Decoder.mk (.algorithm zeroMac) none eightByteLimits).signedOnly.decode .reference
      zeroGcm emptyToken).isOk = true := by decide +kernel
  have hwrapped : (((Decoder.mk (.algorithm zeroMac) none eightByteLimits).encryptionKey
      (List.replicate 16 0)).decode .reference zeroGcm emptyTokenEnvelope).isOk = false := by
    decide +kernel
  cases hw : (Decoder.mk (.algorithm zeroMac) none eightByteLimits).signedOnly.decode .reference
    zeroGcm emptyToken with
  | error _ =>
    rw [hw] at hclear
    cases hclear
  | ok w =>
    rw [(hiff _).mpr ⟨w, hw, rfl⟩] at hwrapped
    cases hwrapped

end Cat
