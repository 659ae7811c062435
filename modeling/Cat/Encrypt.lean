import Cat.Cwt.EncodeSpec
import Cat.Lib.Cbor.Size

/-!
# COSE_Encrypt0

AES-GCM is a parameter: what is relied on is that a key decrypts what it encrypted and nothing
else, and that a ciphertext is the plaintext's length and a tag. The nonce, which the crate
draws at random, is an argument.

An envelope is a tagged array of a protected header, which names the algorithm, an unprotected
one, which holds the nonce, and the ciphertext. Encrypting writes one such array; decrypting
reads any. It looks for its labels with a loop that keeps the last entry it can use
(`lastLabelled`), passes over anything else, and does not look at what follows the header in its
byte string. Both are kept in the model, since an envelope need not come from this crate.

There are two caps, on the envelope before anything is parsed and on the plaintext, whose length
is told from the ciphertext's before anything is decrypted. Encrypting checks neither, so an
envelope may be made that is refused: the round trip is stated with the caps as its condition,
in terms of the plaintext.
-/

set_option autoImplicit false

namespace Cat

open Cbor

def coseTagEncrypt0 : UInt64 := 16
def algA128Gcm : Int64 := 1
def algA256Gcm : Int64 := 3

/-- The cap of the envelope. -/
def maxEncrypt0Size : Nat := 16 * 1024
def gcmTagBytes : Nat := 16

inductive EncryptionAlgorithm where
  | a128Gcm
  | a256Gcm
  deriving DecidableEq

namespace EncryptionAlgorithm

def algId : EncryptionAlgorithm → Int64
  | a128Gcm => algA128Gcm
  | a256Gcm => algA256Gcm

def keySize : EncryptionAlgorithm → Nat
  | a128Gcm => 16
  | a256Gcm => 32

end EncryptionAlgorithm

/-- Twelve bytes. -/
structure Nonce where
  bytes : Bytes
  length_eq : bytes.length = 12
  deriving DecidableEq

/-- A cipher under one key: what it makes of nonce, plaintext and additional data, and back. The
    laws are fields, so a cipher comes with them. -/
structure GcmCipher where
  encrypt : Nonce → (aad msg : Bytes) → Except String Bytes
  decrypt : Nonce → (aad ciphertext : Bytes) → Except String Bytes
  decrypt_encrypt : ∀ {n : Nonce} {aad msg c : Bytes},
    encrypt n aad msg = .ok c → decrypt n aad c = .ok msg
  encrypt_decrypt : ∀ {n : Nonce} {aad msg c : Bytes},
    decrypt n aad c = .ok msg → encrypt n aad msg = .ok c
  length_encrypt : ∀ {n : Nonce} {aad msg c : Bytes},
    encrypt n aad msg = .ok c → c.length = msg.length + gcmTagBytes

/-- `new_from_slice` of either cipher. -/
abbrev AesGcm := EncryptionAlgorithm → Bytes → Except String GcmCipher

section
variable {α : Type}

/-- The loop over a header map for one label: the last entry with that label of which `take` makes
    a value. An integer label that is no `i64` is an error wherever it stands. -/
def lastLabelled (label : Int64) (take : Value → Except CatError (Option α)) (found : Option α) :
    List (Value × Value) → Except CatError (Option α)
  | [] => .ok found
  | (.integer k, v) :: es =>
    match k.toI64? with
    | none => .error .invalidTokenFormat
    | some k =>
      if k = label then do
        match ← take v with
        | some a => lastLabelled label take (some a) es
        | none => lastLabelled label take found es
      else lastLabelled label take found es
  | _ :: es => lastLabelled label take found es

end

/-- The nonce is a byte string; anything else at its label is passed over. -/
def takeNonce : Value → Except CatError (Option Bytes)
  | .bytes b => .ok (some b)
  | _ => .ok none

/-- A number out of range is an error. A value that is no number counts as no algorithm. -/
def takeAlg : Value → Except CatError (Option Int64)
  | .integer a =>
    match a.toI64? with
    | some a => .ok (some a)
    | none => .error .invalidTokenFormat
  | _ => .ok none

section
variable (H : Host) (G : AesGcm)

/-- What the cipher authenticates beside the plaintext: the protected header, and no external data.
    -/
def buildEncStructure (headerProtected : Bytes) : Except CatError Bytes :=
  writeCbor H (.array [.text "Encrypt0", .bytes headerProtected, .bytes []])

/-- `encode_protected_header` of `encrypt.rs`. -/
def encodeEncryptHeader (algId : Int64) : Except CatError Bytes :=
  writeCbor H (.map [(i64Value 1, i64Value algId)])

def newCipher (algorithm : EncryptionAlgorithm) (key : Bytes) : Except CatError GcmCipher :=
  match G algorithm key with
  | .ok cipher => .ok cipher
  | .error e => .error (.keyOperationFailed e)

/-- The envelope of a plaintext. The header is covered as additional data and not encrypted. -/
def coseEncrypt0 (plaintext key : Bytes) (algorithm : EncryptionAlgorithm) (nonce : Nonce) :
    Except CatError Bytes := do
  if key.length ≠ algorithm.keySize then
    throw (.keyOperationFailed
      s!"Key size mismatch: expected {algorithm.keySize}, got {key.length}")
  let headerProtected ← encodeEncryptHeader H algorithm.algId
  let aad ← buildEncStructure H headerProtected
  let cipher ← newCipher G algorithm key
  match cipher.encrypt nonce aad plaintext with
  | .error e => throw (.keyOperationFailed e)
  | .ok ciphertext =>
    writeCbor H (.tag coseTagEncrypt0 (.array [.bytes headerProtected,
      .map [(i64Value 5, .bytes nonce.bytes)], .bytes ciphertext]))

/-- The ciphers that decrypting knows, each with the text of its failure. -/
def decryptionCipher (algId : Int64) : Except CatError (EncryptionAlgorithm × String) :=
  if algId = algA128Gcm then .ok (.a128Gcm, "AES-128-GCM decryption failed")
  else if algId = algA256Gcm then .ok (.a256Gcm, "AES-256-GCM decryption failed")
  else .error (.unsupportedAlgorithm s!"Unknown encryption algorithm: {algId}")

def someOr {α : Type} (e : CatError) : Option α → Except CatError α
  | some a => .ok a
  | none => .error e

/-- The algorithm that the protected header names. What follows the header's map in its byte
    string is not looked at. -/
def encryptionAlgId (headerProtected : Bytes) : Except CatError Int64 :=
  match H.cbor.read cborMaxRecursionDepth headerProtected with
  | .error e => .error (.invalidCbor e)
  | .ok (.map m, _) => lastLabelled 1 takeAlg none m >>= someOr .invalidTokenFormat
  | .ok _ => .error .invalidTokenFormat

/-- Decryption, once the envelope has been taken apart. -/
def decryptEnvelope (headerProtected nonceBytes ciphertext key : Bytes) (maxPlaintextSize : Nat) :
    Except CatError Bytes := do
  -- a plaintext over the cap is refused before there is one
  let projectedPlaintext := ciphertext.length - gcmTagBytes
  if projectedPlaintext > maxPlaintextSize then
    throw (.invalidCbor (s!"COSE_Encrypt0 plaintext {projectedPlaintext} bytes " ++
      s!"exceeds cap of {maxPlaintextSize} bytes"))
  let algId ← encryptionAlgId H headerProtected
  let aad ← buildEncStructure H headerProtected
  if h : nonceBytes.length = 12 then
    let (algorithm, failure) ← decryptionCipher algId
    let cipher ← newCipher G algorithm key
    match cipher.decrypt ⟨nonceBytes, h⟩ aad ciphertext with
    | .ok plaintext => return plaintext
    | .error _ => throw (.keyOperationFailed failure)
  else throw (.keyOperationFailed s!"Invalid nonce length: expected 12, got {nonceBytes.length}")

/-- `cose_decrypt0_with_max_plaintext`. -/
def coseDecrypt0WithMaxPlaintext (coseBytes key : Bytes) (maxPlaintextSize : Nat) :
    Except CatError Bytes :=
  if coseBytes.length > maxEncrypt0Size then
    .error (.invalidCbor (s!"COSE_Encrypt0 too large: {coseBytes.length} bytes " ++
      s!"exceeds limit of {maxEncrypt0Size} bytes"))
  else match H.cbor.read cborMaxRecursionDepth coseBytes with
    | .error e => .error (.invalidCbor e)
    | .ok (value, rest) =>
      if !rest.isEmpty then
        let consumed := coseBytes.length - rest.length
        .error (.invalidCbor (s!"trailing bytes after COSE_Encrypt0: {consumed} bytes consumed " ++
          s!"out of {coseBytes.length}"))
      else match value with
        | .tag tag (.array [.bytes headerProtected, .map unprotected, ciphertext]) =>
          if tag ≠ coseTagEncrypt0 then .error .invalidTokenFormat
          else do
            let nonceBytes ← lastLabelled 5 takeNonce none unprotected >>=
              someOr .invalidTokenFormat
            match ciphertext with
            | .bytes ciphertext =>
              decryptEnvelope H G headerProtected nonceBytes ciphertext key maxPlaintextSize
            | _ => throw .invalidTokenFormat
        | _ => .error .invalidTokenFormat

/-- With the cap on the envelope for one on the plaintext too. -/
def coseDecrypt0 (coseBytes key : Bytes) : Except CatError Bytes :=
  coseDecrypt0WithMaxPlaintext H G coseBytes key maxEncrypt0Size

end

section
variable {H : Host} {G : AesGcm} {plaintext key e : Bytes} {algorithm : EncryptionAlgorithm}
  {nonce : Nonce}

/-- What an envelope is made of. -/
structure Encrypt0Envelope (H : Host) (G : AesGcm) (plaintext key : Bytes)
    (algorithm : EncryptionAlgorithm) (nonce : Nonce) (e headerProtected aad ciphertext : Bytes)
    (cipher : GcmCipher) : Prop where
  header : encodeEncryptHeader H algorithm.algId = .ok headerProtected
  structure_ : buildEncStructure H headerProtected = .ok aad
  cipher_eq : newCipher G algorithm key = .ok cipher
  encrypted : cipher.encrypt nonce aad plaintext = .ok ciphertext
  envelope : H.cbor.write (.tag coseTagEncrypt0 (.array [.bytes headerProtected,
    .map [(i64Value 5, .bytes nonce.bytes)], .bytes ciphertext])) = .ok e

theorem encrypt0Envelope_of_ok (h : coseEncrypt0 H G plaintext key algorithm nonce = .ok e) :
    ∃ headerProtected aad ciphertext cipher, Encrypt0Envelope H G plaintext key algorithm nonce e
      headerProtected aad ciphertext cipher := by
  obtain ⟨-, h⟩ := Except.guard_eq_ok.mp h
  obtain ⟨header, hheader, h⟩ := Except.bind_eq_ok.mp h
  obtain ⟨aad, haad, h⟩ := Except.bind_eq_ok.mp h
  obtain ⟨cipher, hcipher, h⟩ := Except.bind_eq_ok.mp h
  cases henc : cipher.encrypt nonce aad plaintext with
  | error _ =>
    rw [henc] at h
    cases h
  | ok ciphertext =>
    rw [henc] at h
    exact ⟨header, aad, ciphertext, cipher, hheader, haad, hcipher, henc, writeCbor_eq_ok.mp h⟩

/-- The header that encrypting writes names the algorithm. -/
theorem encryptionAlgId_written {headerProtected : Bytes}
    (h : encodeEncryptHeader H algorithm.algId = .ok headerProtected) :
    encryptionAlgId H headerProtected = .ok algorithm.algId := by
  have hread := H.cbor.read_written (writeCbor_eq_ok.mp h) (show _ < cborMaxRecursionDepth by
    simp [Value.height, Value.heightEntries, i64Value, cborMaxRecursionDepth])
  have hback : (Value.map [(i64Value 1, i64Value algorithm.algId)]).readBack =
      .map [(i64Value 1, i64Value algorithm.algId)] := rfl
  unfold encryptionAlgId
  rw [hread, hback]
  cases algorithm <;> rfl

theorem decryptionCipher_algId (algorithm : EncryptionAlgorithm) :
    ∃ failure, decryptionCipher algorithm.algId = .ok (algorithm, failure) := by
  cases algorithm
  · exact ⟨_, rfl⟩
  · exact ⟨_, rfl⟩

variable {headerProtected aad ciphertext : Bytes} {cipher : GcmCipher}

/-- The parts of an envelope are decrypted to what was encrypted, unless that is over the cap. -/
theorem decryptEnvelope_encrypted (h : Encrypt0Envelope H G plaintext key algorithm nonce e
    headerProtected aad ciphertext cipher) {maxPlaintextSize : Nat} {m : Bytes} :
    decryptEnvelope H G headerProtected nonce.bytes ciphertext key maxPlaintextSize = .ok m ↔
      plaintext.length ≤ maxPlaintextSize ∧ m = plaintext := by
  have hlength : ciphertext.length - gcmTagBytes = plaintext.length := by
    rw [cipher.length_encrypt h.encrypted, Nat.add_sub_cancel]
  obtain ⟨failure, hfailure⟩ := decryptionCipher_algId algorithm
  unfold decryptEnvelope
  dsimp only
  rw [hlength, Except.guard_eq_ok, encryptionAlgId_written h.header]
  refine and_congr Nat.not_lt ?_
  show (buildEncStructure H headerProtected >>= fun _ => _) = _ ↔ _
  rw [h.structure_]
  show (if hn : nonce.bytes.length = 12 then _ else _) = _ ↔ _
  rw [dif_pos nonce.length_eq, hfailure]
  show (newCipher G algorithm key >>= fun _ => _) = _ ↔ _
  rw [h.cipher_eq]
  show (match cipher.decrypt nonce aad ciphertext with | .ok x => _ | .error _ => _) = _ ↔ _
  rw [cipher.decrypt_encrypt h.encrypted]
  exact Except.pure_eq_ok.trans eq_comm

theorem readBack_encrypt0 (vs : List Value) :
    (Value.tag coseTagEncrypt0 (.array vs)).readBack =
      .tag coseTagEncrypt0 (.array (Value.readBackList vs)) := rfl

/-- A wrapped message takes its length and a tag. -/
theorem length_plaintext_le (h : Encrypt0Envelope H G plaintext key algorithm nonce e
    headerProtected aad ciphertext cipher) : plaintext.length + gcmTagBytes ≤ e.length := by
  have hread := H.cbor.read_written h.envelope (show _ < cborMaxRecursionDepth by
    simp [Value.height, Value.heightList, Value.heightEntries, i64Value, cborMaxRecursionDepth])
  rw [readBack_encrypt0] at hread
  rw [← cipher.length_encrypt h.encrypted]
  refine H.cbor.length_of_tagged hread (d := ciphertext) ?_
  simp [Value.readBackList, Value.readBack]

/-- **Decryption inverts encryption**, within the caps of the envelope and of the plaintext. -/
theorem coseDecrypt0_encrypted (h : coseEncrypt0 H G plaintext key algorithm nonce = .ok e)
    (hsize : e.length ≤ maxEncrypt0Size) {maxPlaintextSize : Nat} {m : Bytes} :
    coseDecrypt0WithMaxPlaintext H G e key maxPlaintextSize = .ok m ↔
      plaintext.length ≤ maxPlaintextSize ∧ m = plaintext := by
  obtain ⟨header, aad, ciphertext, cipher, henvelope⟩ := encrypt0Envelope_of_ok h
  have hread := H.cbor.read_written henvelope.envelope (show _ < cborMaxRecursionDepth by
    simp [Value.height, Value.heightList, Value.heightEntries, i64Value, cborMaxRecursionDepth])
  have hback : Value.readBackList [.bytes header, .map [(i64Value 5, .bytes nonce.bytes)],
      .bytes ciphertext] = [.bytes header, .map [(i64Value 5, .bytes nonce.bytes)],
      .bytes ciphertext] := rfl
  unfold coseDecrypt0WithMaxPlaintext
  rw [if_neg (Nat.not_lt.mpr hsize), hread, readBack_encrypt0, hback]
  exact decryptEnvelope_encrypted henvelope

/-! ## The caps -/

theorem length_decryptEnvelope {nonceBytes m : Bytes} {maxPlaintextSize : Nat}
    (h : decryptEnvelope H G headerProtected nonceBytes ciphertext key maxPlaintextSize = .ok m) :
    m.length ≤ maxPlaintextSize := by
  obtain ⟨hcap, h⟩ := Except.guard_eq_ok.mp h
  obtain ⟨algId, -, h⟩ := Except.bind_eq_ok.mp h
  obtain ⟨aad, -, h⟩ := Except.bind_eq_ok.mp h
  split at h
  · rename_i hn
    obtain ⟨⟨algorithm, failure⟩, -, h⟩ := Except.bind_eq_ok.mp h
    obtain ⟨cipher, -, h⟩ := Except.bind_eq_ok.mp h
    split at h
    · rename_i plaintext hplain
      obtain rfl := Except.pure_eq_ok.mp h
      -- the ciphertext is one of this plaintext, so its length is known
      have hlen := cipher.length_encrypt (cipher.encrypt_decrypt hplain)
      omega
    · cases h
  · cases h

/-- Whatever the envelope, it and what comes out of it stay within their caps. -/
theorem length_coseDecrypt0 {m : Bytes} {maxPlaintextSize : Nat}
    (h : coseDecrypt0WithMaxPlaintext H G e key maxPlaintextSize = .ok m) :
    e.length ≤ maxEncrypt0Size ∧ m.length ≤ maxPlaintextSize := by
  unfold coseDecrypt0WithMaxPlaintext at h
  split at h
  · cases h
  · rename_i hsize
    refine ⟨Nat.not_lt.mp hsize, ?_⟩
    split at h
    · cases h
    · split at h
      · cases h
      · split at h
        · split at h
          · cases h
          · obtain ⟨nonceBytes, -, h⟩ := Except.bind_eq_ok.mp h
            split at h
            · exact length_decryptEnvelope h
            · cases h
        · cases h

/-- The working memory of a decryption. -/
theorem length_coseDecrypt0_add {m : Bytes} (h : coseDecrypt0 H G e key = .ok m) :
    e.length + m.length ≤ 2 * maxEncrypt0Size := by
  obtain ⟨he, hm⟩ := length_coseDecrypt0 h
  omega

end

end Cat
