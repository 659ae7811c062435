import Cat.Dpop.Honest
import Cat.Dpop.SignedBytes
import Cat.Lib.Splitting

/-!
# What a verified proof was signed as

A signature covers a byte string. In CBOR that is an array of the context, header and payload,
in JSON header and payload as text with a dot between them, and from the bytes it can be told
which it was and of what parts (`signingInputOf_inj`). So a key that signs nothing but proofs of
its holder verifies nothing but these: a proof that arrives says what one of them said.

The assumption is the usual one about signatures, in its bluntest form: whatever verifies under
the key is an input that its holder has signed. It is about inputs and not about proofs, and the
work is to get from one to the other. The form can be told from the first byte, the parts from
the lengths or the dot, and the parts are read by functions, so the same bytes are read as the
same fields.

A proof that was read says what was signed up to how its fields come back, and `readAs` is that:
the differences of the round trips, put together for both forms.
-/

set_option autoImplicit false

namespace Cat

open Cbor

section
variable {H : Host}

/-! ## Inputs of signatures -/

/-- The array that is signed has one reading. -/
theorem createCoseStructure_inj {context context' : String}
    {bodyProtected bodyProtected' payload payload' b : Bytes}
    (h : createCoseStructure H context bodyProtected payload = .ok b)
    (h' : createCoseStructure H context' bodyProtected' payload' = .ok b) :
    context = context' ∧ bodyProtected = bodyProtected' ∧ payload = payload' := by
  have hread {c : String} {hp p : Bytes} (h : createCoseStructure H c hp p = .ok b) :
      H.cbor.read cborMaxRecursionDepth b =
        .ok (.array [.text c, .bytes hp, .bytes [], .bytes p], []) := by
    unfold createCoseStructure at h
    split at h
    · rename_i hw
      obtain rfl := Except.ok.inj h
      exact H.cbor.read_written hw (show _ < cborMaxRecursionDepth by
        simp [Value.height, Value.heightList, cborMaxRecursionDepth])
    · cases h
  have heq := (hread h).symm.trans (hread h')
  simp only [Except.ok.injEq, Prod.mk.injEq, and_true, Value.array.injEq, List.cons.injEq,
    Value.text.injEq, Value.bytes.injEq, true_and] at heq
  exact heq

/-- It starts with a byte that is not ASCII. -/
theorem createCoseStructure_head {context : String} {bodyProtected payload b : Bytes}
    (h : createCoseStructure H context bodyProtected payload = .ok b) :
    ∃ c rest, b = c :: rest ∧ ¬c < 0x80 := by
  unfold createCoseStructure at h
  split at h
  · rename_i hw
    obtain rfl := Except.ok.inj h
    obtain ⟨x, hx, rfl⟩ := H.cbor.write_sound hw
    obtain ⟨xs, rfl, -⟩ := hx
    refine ⟨_, _, rfl, ?_⟩
    show ¬initial 4 (Arg.ofNat 4).ai < 0x80
    decide
  · cases h

theorem utf8_base64_spec (hb : Base64Lawful H) (b : Bytes) :
    (∀ c ∈ utf8 (H.base64Encode b), c < 0x80) ∧ 0x2e ∉ utf8 (H.base64Encode b) := by
  rw [utf8_base64 hb]
  obtain ⟨hall, hcount⟩ := codes_spec fun c hc => (hb.ascii b c hc).1
  refine ⟨fun c hc => of_decide_eq_true (List.all_eq_true.mp hall c hc), ?_⟩
  rw [← List.count_eq_zero, hcount, List.count_eq_zero]
  exact fun hin => (hb.ascii b '.' hin).2 rfl

theorem base64Encode_inj (hb : Base64Lawful H) {b b' : Bytes}
    (h : H.base64Encode b = H.base64Encode b') : b = b' :=
  Except.ok.inj ((hb.decode_encode b).symm.trans (h ▸ hb.decode_encode b'))

/-- The text is cut at its dot. -/
theorem jwsSigningInput_inj (hb : Base64Lawful H) {bytes bytes' : SignedInput}
    (h : jwsSigningInput H bytes = jwsSigningInput H bytes') : bytes = bytes' := by
  have hcut (bytes : SignedInput) : List.splitOnce 0x2e (jwsSigningInput H bytes) =
      some (utf8 (H.base64Encode bytes.headerCbor), utf8 (H.base64Encode bytes.payloadCbor)) :=
    List.splitOnce_append (utf8_base64_spec hb _).2
  have heq := (hcut bytes).symm.trans (h ▸ hcut bytes')
  obtain ⟨hheader, hpayload⟩ := Prod.mk.inj (Option.some.inj heq)
  obtain ⟨header, payload⟩ := bytes
  obtain ⟨header', payload'⟩ := bytes'
  rw [SignedInput.mk.injEq]
  exact ⟨base64Encode_inj hb (utf8_inj hheader), base64Encode_inj hb (utf8_inj hpayload)⟩

theorem jwsSigningInput_head (hb : Base64Lawful H) (bytes : SignedInput) {c : UInt8}
    {rest : Bytes} (h : jwsSigningInput H bytes = c :: rest) : c < 0x80 := by
  have hmem : c ∈ jwsSigningInput H bytes := h ▸ List.mem_cons_self
  rcases List.mem_append.mp hmem with hc | hc
  · exact (utf8_base64_spec hb _).1 c hc
  · rcases List.mem_cons.mp hc with rfl | hc
    · decide
    · exact (utf8_base64_spec hb _).1 c hc

namespace DpopProof

/-- **What is signed tells the format and the parts.** -/
theorem signingInputOf_inj (hb : Base64Lawful H) {f f' : DpopWireFormat}
    {bytes bytes' : SignedInput} {alg alg' : Int64} {input : Bytes} (h : signingInputOf H f bytes alg = .ok input)
    (h' : signingInputOf H f' bytes' alg' = .ok input) : f = f' ∧ bytes = bytes' := by
  cases f with
  | cwt =>
    cases f' with
    | cwt =>
      obtain ⟨-, hheader, hpayload⟩ := createCoseStructure_inj h h'
      obtain ⟨header, payload⟩ := bytes
      obtain ⟨header', payload'⟩ := bytes'
      exact ⟨rfl, by rw [SignedInput.mk.injEq]; exact ⟨hheader, hpayload⟩⟩
    | jwt =>
      obtain ⟨c, rest, rfl, hc⟩ := createCoseStructure_head h
      exact absurd (jwsSigningInput_head hb bytes' (Except.ok.inj h')) hc
  | jwt =>
    cases f' with
    | cwt =>
      obtain ⟨c, rest, rfl, hc⟩ := createCoseStructure_head h'
      exact absurd (jwsSigningInput_head hb bytes (Except.ok.inj h)) hc
    | jwt => exact ⟨rfl, jwsSigningInput_inj hb ((Except.ok.inj h).trans (Except.ok.inj h').symm)⟩

end DpopProof

/-! ## What a proof is read as -/

/-- The name of the setup actions is read as that of the client's. -/
def MoqtAction.asRead : MoqtAction → MoqtAction
  | .serverSetup => .clientSetup
  | action => action

theorem MoqtAction.asRead_ne (action : MoqtAction) : action.asRead ≠ .serverSetup := by
  cases action <;> simp [asRead]

/-- What comes back of a payload that was written in a format. -/
def DpopPayload.asRead (f : DpopWireFormat) (payload : DpopPayload) : DpopPayload :=
  { payload with actx := { payload.actx with
      action := payload.actx.action.asRead, tns := f.namesBack payload.actx.tns } }

/-- A payload with the action it will be read with. -/
def DpopPayload.named (payload : DpopPayload) : DpopPayload :=
  { payload with actx := { payload.actx with action := payload.actx.action.asRead } }

theorem DpopPayload.named_readBack (payload : DpopPayload) :
    { payload.named with actx := payload.named.actx.readBack } = payload.asRead .cwt := rfl

theorem DpopPayload.named_readBackJson (payload : DpopPayload) :
    { payload.named with actx := payload.named.actx.readBackJson } = payload.asRead .jwt := rfl

/-- Both setup actions are written the same. -/
theorem encodeHeaderAndPayload_named (f : DpopWireFormat) (header : DpopHeader)
    (payload : DpopPayload) :
    encodeHeaderAndPayload H f header payload.named =
      encodeHeaderAndPayload H f header payload := by
  obtain ⟨cti, iat, ⟨ctxType, action, tns, tn, resource⟩, ath, nonce⟩ := payload
  cases action <;> rfl

namespace DpopProof

variable {R : JsonReader}

/-- The bytes that were written for a proof are read as that proof. -/
theorem readAs_encoded (hb : Base64Lawful H) (L : JsonLaws H R) {f : DpopWireFormat}
    {header header' : DpopHeader} {payload payload' : DpopPayload} {bytes : SignedInput}
    (h : encodeHeaderAndPayload H f header payload = .ok bytes)
    (hread : ReadAs H R bytes header' payload' f) :
    header'.alg = header.alg ∧ header'.typ = header.typ ∧ payload' = payload.asRead f := by
  rw [← encodeHeaderAndPayload_named] at h
  cases f with
  | cwt =>
    obtain ⟨hbs, hheader, h₁⟩ := Except.bind_eq_ok.mp h
    obtain ⟨pbs, hpayload, h₂⟩ := Except.bind_eq_ok.mp h₁
    obtain rfl := Except.pure_eq_ok.mp h₂
    obtain rfl := Except.ok.inj (hread.1.symm.trans (decodeDpopHeader_encode hb hheader))
    have hback := decodeDpopPayload_encode payload.actx.action.asRead_ne hpayload
    exact ⟨rfl, rfl, (Except.ok.inj (hread.2.symm.trans hback)).trans payload.named_readBack⟩
  | jwt =>
    obtain ⟨hbs, hheader, h₁⟩ := Except.bind_eq_ok.mp h
    obtain ⟨pbs, hpayload, h₂⟩ := Except.bind_eq_ok.mp h₁
    obtain rfl := Except.pure_eq_ok.mp h₂
    obtain rfl := Except.ok.inj (hread.1.symm.trans (decodeHeaderJson_encode L hheader))
    have hback := decodePayloadJson_encode hb L payload.actx.action.asRead_ne hpayload
    exact ⟨rfl, rfl, (Except.ok.inj (hread.2.symm.trans hback)).trans payload.named_readBackJson⟩

/-- A proof that arrived keeps the bytes it was read from. -/
theorem decode_readAs {wire : Bytes} {p : DpopProof H} (h : decode H R wire = .ok p) :
    ReadAs H R p.signedBytes p.header p.payload p.wireFormat := by
  unfold decode at h
  by_cases hlook : looksLikeJwt wire = true
  · rw [if_pos hlook] at h
    obtain ⟨-, -, hheader, hpayload, hformat, -⟩ := decodeJwtProof_eq_ok.mp h
    rw [hformat]
    exact ⟨hheader, hpayload⟩
  · rw [if_neg hlook] at h
    obtain ⟨-, -, hheader, hpayload, hformat, -⟩ := decodeCwtProof_eq_ok.mp h
    rw [hformat]
    exact ⟨hheader, hpayload⟩

/-- The JSON library finds no value in no bytes. -/
def NoEmptyJson (R : JsonReader) : Prop := ∀ v, R.parse [] ≠ .ok v

/-- There is no header in no bytes, so what is covered by its signature is what was read. -/
theorem coveredBytes_of_decode (hempty : NoEmptyJson R) {wire : Bytes} {p : DpopProof H}
    (h : decode H R wire = .ok p) : p.coveredBytes = .ok p.signedBytes := by
  have hread := decode_readAs h
  unfold coveredBytes
  refine if_neg fun hnone => ?_
  have hheader : p.signedBytes.headerCbor = [] := by
    rw [isEmpty_iff.mp hnone]
    rfl
  cases hformat : p.wireFormat with
  | cwt =>
    rw [hformat] at hread
    obtain ⟨ds, -, -, hds, -⟩ := decodeDpopHeader_eq_ok.mp hread.1
    obtain ⟨x, -, -, hx⟩ := H.cbor.read_sound hds
    have hpos := x.wire_pos
    have hlen := congrArg List.length hx
    rw [hheader, List.length_append, List.length_nil] at hlen
    omega
  | jwt =>
    rw [hformat] at hread
    obtain ⟨ws, hws, -⟩ := Except.bind_eq_ok.mp hread.1
    obtain ⟨_, -, hparse⟩ := Except.bind_eq_ok.mp hws
    split at hparse
    · cases hparse
    · rename_i v hv
      rw [hheader] at hv
      exact hempty v hv

/-- A proof is signed over these bytes. -/
def SignedOver (p : DpopProof H) (input : Bytes) : Prop :=
  ∃ bytes, encodeHeaderAndPayload H p.wireFormat p.header p.payload = .ok bytes ∧
    signingInputOf H p.wireFormat bytes p.header.alg = .ok input

/-- What `sign` has the key sign. -/
theorem signedOver_of_sign {p signed : DpopProof H} {signer : CryptographicAlgorithm}
    (h : p.sign signer = .ok signed) : ∃ input, p.SignedOver input ∧
      signer.sign input = .ok signed.signature := by
  obtain ⟨bytes, input, signature, hbytes, hinput, hsignature, rfl⟩ := sign_eq_ok h
  exact ⟨input, ⟨bytes, hbytes, hinput⟩, hsignature⟩

/-- The keys with a thumbprint verify what the holder has signed, which are these proofs, and
nothing else. -/
def OnlySigned (H : Host) (jkt : Bytes) (made : Set (DpopProof H)) : Prop :=
  ∀ (jwk : Jwk) (alg : Int64) (input signature : Bytes), jwk.thumbprint H = .ok jkt →
    jwk.verifies H alg input signature = .ok () → ∃ m ∈ made, m.SignedOver input

/-- **A proof that arrives and verifies says what a proof of the holder said.** -/
theorem signed_of_verified (hb : Base64Lawful H) (L : JsonLaws H R) (hempty : NoEmptyJson R)
    {jkt : Bytes} {made : Set (DpopProof H)} (hholder : OnlySigned H jkt made) {wire : Bytes}
    {p : DpopProof H} (hdec : decode H R wire = .ok p)
    (hkey : p.header.jwk.thumbprint H = .ok jkt)
    (hverified : DpopValidator.verifyWithEmbeddedKey p = .ok ()) :
    ∃ m ∈ made, m.wireFormat = p.wireFormat ∧ m.header.alg = p.header.alg ∧
      p.payload = m.payload.asRead m.wireFormat := by
  obtain ⟨input, hinput, -⟩ := Except.bind_eq_ok.mp hverified
  rw [verifyWithEmbeddedKey_of_signingInput hinput] at hverified
  obtain ⟨m, hm, bytes, hbytes, hsigned⟩ := hholder _ _ _ _ hkey hverified
  have hcovered : signingInputOf H p.wireFormat p.signedBytes p.header.alg = .ok input := by
    obtain ⟨covered, hcovered, hof⟩ := Except.bind_eq_ok.mp hinput
    obtain rfl := Except.ok.inj ((coveredBytes_of_decode hempty hdec).symm.trans hcovered)
    unfold signingInputOf
    cases hformat : p.wireFormat <;> rw [hformat] at hof <;> exact hof
  obtain ⟨hformat, rfl⟩ := signingInputOf_inj hb hsigned hcovered
  have hread := decode_readAs hdec
  rw [← hformat] at hread
  obtain ⟨halg, -, hpayload⟩ := readAs_encoded hb L hbytes hread
  exact ⟨m, hm, hformat, halg.symm, hpayload⟩

end DpopProof

end

end Cat
