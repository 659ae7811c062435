import Cat.Dpop.JwtRoundTrip

/-!
# The two wire forms of a proof

A proof in JSON is ASCII with two dots, a proof in CBOR starts with the head of a tag: no input
is taken for the other form. What comes back from either form is the proof itself where the
forms agree on it, and nothing else comes back from both.

They are written to be interchangeable, and the differences are few: the empty tuple of names
and the tuple of the empty name are one text and are read differently, a COSE key has the
members of its type while a JSON key is kept as it came, and one form may be too long where the
other one is not. `kept_cwt_iff` and `kept_jwt_iff` have the condition for each form,
`wireForms_agree_iff` for both.

What is relied on of the libraries is that they read what they wrote (`JsonLaws`,
`Base64Lawful`, the laws of the codec), and nothing of how they write it. For the compact form
this takes a step more than for CBOR, since the reader finds the parts by their dots: base64url
has none.

At the end stands a setup proof, which has no names. It is the input on which the forms differ,
with a JSON library that knows the two texts it is made of.
-/

set_option autoImplicit false

namespace Cat

open Cbor

section
variable {H : Host} {R : JsonReader}

/-! ## The compact form

Three texts in base64url with dots between them, all of it ASCII, so the bytes are the codes of
the characters and the dots are where they were put.
-/

/-- The characters of a compact form. -/
def compactText (H : Host) (bytes : SignedInput) (signature : Bytes) : List Char :=
  ['.'].intercalate [(H.base64Encode bytes.headerCbor).toList,
    (H.base64Encode bytes.payloadCbor).toList, (H.base64Encode signature).toList]

theorem compactText_eq (bytes : SignedInput) (signature : Bytes) :
    compactText H bytes signature = (H.base64Encode bytes.headerCbor).toList ++
      '.' :: ((H.base64Encode bytes.payloadCbor).toList ++
        '.' :: (H.base64Encode signature).toList) := by
  simp [compactText, List.intercalate]

theorem compactText_ascii (hb : Base64Lawful H) (bytes : SignedInput) (signature : Bytes) :
    ∀ c ∈ compactText H bytes signature, c.toNat < 128 := by
  intro c hc
  have hpart : ∀ b : Bytes, c ∈ (H.base64Encode b).toList → c.toNat < 128 := fun b hc =>
    (hb.ascii b c hc).1
  rw [compactText_eq] at hc
  simp only [List.mem_append, List.mem_cons] at hc
  rcases hc with hc | rfl | hc | rfl | hc
  · exact hpart _ hc
  · decide
  · exact hpart _ hc
  · decide
  · exact hpart _ hc

theorem utf8_base64 (hb : Base64Lawful H) (b : Bytes) :
    utf8 (H.base64Encode b) = codes (H.base64Encode b).toList := by
  have h := utf8_ofList fun c hc => (hb.ascii b c hc).1
  rwa [String.ofList_toList] at h

/-- The compact form is its text. -/
theorem wire_jwt (hb : Base64Lawful H) (bytes : SignedInput) (signature : Bytes) :
    jwsSigningInput H bytes ++ 0x2e :: utf8 (H.base64Encode signature) =
      codes (compactText H bytes signature) := by
  rw [compactText_eq, jwsSigningInput, utf8_base64 hb, utf8_base64 hb, utf8_base64 hb,
    codes_append, List.append_assoc]
  show _ = _ ++ 0x2e :: codes (_ ++ _)
  rw [codes_append]
  rfl

theorem jwtParts_compactText (hb : Base64Lawful H) (bytes : SignedInput) (signature : Bytes) :
    jwtParts (String.ofList (compactText H bytes signature)) = .ok
      (H.base64Encode bytes.headerCbor, H.base64Encode bytes.payloadCbor,
        H.base64Encode signature) := by
  have hdot : ∀ b : Bytes, '.' ∉ (H.base64Encode b).toList := fun b hin =>
    (hb.ascii b '.' hin).2 rfl
  have hsplit := List.splitOn_intercalate '.' (show ∀ l ∈ [(H.base64Encode bytes.headerCbor).toList,
    (H.base64Encode bytes.payloadCbor).toList, (H.base64Encode signature).toList], '.' ∉ l by
      simp [hdot]) (by simp)
  rw [jwtParts, String.toList_ofList, compactText, hsplit]
  simp only [String.ofList_toList]

/-- A compact form whose header and payload are read. -/
theorem decodeJwtProof_compact (hb : Base64Lawful H) {p : DpopProof H}
    (hlen : (codes (compactText H p.signedBytes p.signature)).length ≤ maxDpopWireSize)
    (hheader : decodeHeaderJson R p.signedBytes.headerCbor = .ok p.header)
    (hpayload : decodePayloadJson H R p.signedBytes.payloadCbor = .ok p.payload)
    (hformat : p.wireFormat = .jwt) (hcache : p.jktCache = none) :
    decodeJwtProof H R (codes (compactText H p.signedBytes p.signature)) = .ok p := by
  have htext := utf8_ofList (compactText_ascii hb p.signedBytes p.signature)
  exact decodeJwtProof_eq_ok.mpr ⟨hlen, ⟨_, _, _, _, ofUtf8?_eq_some.mpr htext.symm,
    jwtParts_compactText hb p.signedBytes p.signature, hb.decode_encode _, hb.decode_encode _,
    hb.decode_encode _⟩, hheader, hpayload, hformat, hcache⟩

/-- **A proof in JSON is read back.** -/
theorem decodeJwtProof_wire (hb : Base64Lawful H) (L : JsonLaws H R) {header : DpopHeader}
    {payload : DpopPayload} {bytes : SignedInput} {signature b : Bytes}
    (haction : payload.actx.action ≠ .serverSetup)
    (henc : encodeHeaderAndPayload H .jwt header payload = .ok bytes)
    (hw : DpopProof.wire H .jwt bytes signature = .ok b) (hlen : b.length ≤ maxDpopWireSize) :
    decodeJwtProof H R b = .ok ⟨header, { payload with actx := payload.actx.readBackJson },
      signature, bytes, .jwt, none, by simp⟩ := by
  obtain ⟨hbs, hheader, h₁⟩ := Except.bind_eq_ok.mp henc
  obtain ⟨pbs, hpayload, h₂⟩ := Except.bind_eq_ok.mp h₁
  obtain rfl := Except.pure_eq_ok.mp h₂
  have hb' : b = codes (compactText H ⟨hbs, pbs⟩ signature) := by
    rw [← wire_jwt hb]
    exact (Except.ok.inj hw).symm
  subst hb'
  let p : DpopProof H := ⟨header, { payload with actx := payload.actx.readBackJson }, signature,
    ⟨hbs, pbs⟩, .jwt, none, by simp⟩
  have hread : decodePayloadJson H R p.signedBytes.payloadCbor = .ok p.payload :=
    decodePayloadJson_encode hb L haction hpayload
  exact decodeJwtProof_compact (p := p) hb hlen (decodeHeaderJson_encode L hheader) hread rfl rfl

/-! ## Telling them apart

`looks_like_jwt` decides by the bytes, before anything is parsed.
-/

theorem codes_spec {cs : List Char} (h : ∀ c ∈ cs, c.toNat < 128) :
    (codes cs).all (· < 0x80) = true ∧ (codes cs).count 0x2e = cs.count '.' := by
  induction cs with
  | nil => exact ⟨rfl, rfl⟩
  | cons c cs ih =>
    obtain ⟨hc, hcs⟩ := List.forall_mem_cons.mp h
    obtain ⟨hall, hcount⟩ := ih hcs
    have hcode : UInt8.ofNat c.toNat < 0x80 := by
      rw [UInt8.lt_iff_toNat_lt, UInt8.toNat_ofNat_of_lt' (by simp [UInt8.size]; omega)]
      exact hc
    refine ⟨?_, ?_⟩
    · show (decide (UInt8.ofNat c.toNat < 0x80) && (codes cs).all (· < 0x80)) = true
      rw [hall, Bool.and_true]
      exact decide_eq_true hcode
    · show (UInt8.ofNat c.toNat :: codes cs).count 0x2e = (c :: cs).count '.'
      by_cases hdot : c = '.'
      · subst hdot
        show ((0x2e : UInt8) :: codes cs).count 0x2e = _
        rw [List.count_cons_self, List.count_cons_self, hcount]
      · have hne : UInt8.ofNat c.toNat ≠ 0x2e := fun heq =>
          hdot (code_inj hc (show '.'.toNat < 128 by decide) heq)
        rw [List.count_cons_of_ne hne, List.count_cons_of_ne hdot, hcount]

theorem looksLikeJwt_jwt (hb : Base64Lawful H) {bytes : SignedInput} {signature b : Bytes}
    (h : DpopProof.wire H .jwt bytes signature = .ok b) : looksLikeJwt b = true := by
  obtain rfl := Except.ok.inj h
  have hascii := compactText_ascii hb bytes signature
  obtain ⟨hall, hcount⟩ := codes_spec hascii
  have hdot : ∀ b : Bytes, (H.base64Encode b).toList.count '.' = 0 := fun b =>
    List.count_eq_zero_of_not_mem fun hin => (hb.ascii b '.' hin).2 rfl
  have htwo : (compactText H bytes signature).count '.' = 2 := by
    rw [compactText_eq, List.count_append, List.count_cons_self, List.count_append,
      List.count_cons_self, hdot, hdot, hdot]
  rw [wire_jwt hb, looksLikeJwt, hall, hcount, htwo]
  rw [compactText_eq]
  cases hcs : (H.base64Encode bytes.headerCbor).toList <;> rfl

/-- The head of a tag is not ASCII. -/
theorem looksLikeJwt_cwt {bytes : SignedInput} {signature b : Bytes}
    (h : DpopProof.wire H .cwt bytes signature = .ok b) : looksLikeJwt b = false := by
  obtain ⟨x, hx, rfl⟩ := H.cbor.write_sound (writeDpopCbor_eq_ok.mp h)
  obtain ⟨y, rfl, -⟩ := hx
  have hai := (Arg.ofNat dpopTagSign1.toNat).ai_lt
  have hhead : ¬initial 6 (Arg.ofNat dpopTagSign1.toNat).ai < 0x80 := by
    rw [UInt8.lt_iff_toNat_lt, initial, UInt8.toNat_ofNat_of_lt' (by simp [UInt8.size]; omega)]
    exact Nat.not_lt.mpr (Nat.le_trans (show 128 ≤ 6 * 32 by decide) (Nat.le_add_right _ _))
  show (true && ((decide (initial 6 (Arg.ofNat dpopTagSign1.toNat).ai < 0x80)) && _) && _) = false
  rw [decide_eq_false hhead]
  rfl

/-! ## What both forms keep

What comes back differs from the proof in a field of the context or in members of the key. Each
form has its own differences, and a proof that has none under either form is kept by both.
-/

/-- The key has the members of its type and no others. -/
def Jwk.Proper (jwk : Jwk) : Prop :=
  jwk.kty = "EC" ∧ jwk.x.isSome ∧ jwk.y.isSome ∧ jwk.n = none ∧ jwk.e = none ∨
    jwk.kty = "RSA" ∧ jwk.crv = none ∧ jwk.x = none ∧ jwk.y = none ∧ jwk.n.isSome ∧ jwk.e.isSome

theorem coseForm_eq_iff {jwk : Jwk} {v : Value} (h : jwkToCoseKey H jwk = .ok v) :
    jwk.coseForm = jwk ↔ jwk.Proper := by
  obtain ⟨kty, crv, x, y, n, e⟩ := jwk
  rcases jwkToCoseKey_eq_ok.mp h with ⟨hec, hcrv, -⟩ | ⟨hrsa, -⟩
  · obtain rfl : kty = "EC" := hec
    obtain rfl : crv = some "P-256" := hcrv
    rw [Jwk.coseForm, if_pos rfl, Jwk.Proper]
    cases x <;> cases y <;> simp [@eq_comm (Option String) none]
  · obtain rfl : kty = "RSA" := hrsa
    rw [Jwk.coseForm, if_neg (show ¬"RSA" = "EC" by decide), Jwk.Proper]
    cases n <;> cases e <;> simp [@eq_comm (Option String) none]

/-- Both forms of a proof are recognized and give back its key and its payload. -/
def DpopProof.KeptBy (R : JsonReader) (p : DpopProof H) (b : DpopWireFormat → Bytes) : Prop :=
  ∀ f, (looksLikeJwt (b f) = true ↔ f = .jwt) ∧ ∃ q, DpopProof.decode H R (b f) = .ok q ∧
    q.wireFormat = f ∧ q.header.jwk = p.header.jwk ∧ q.payload = p.payload

theorem encode_withWireFormat {p : DpopProof H} {f : DpopWireFormat} {b : Bytes}
    (h : (p.withWireFormat f).encode = .ok b) :
    ∃ bytes, encodeHeaderAndPayload H f { p.header with typ := f.typ } p.payload = .ok bytes ∧
      DpopProof.wire H f bytes p.signature = .ok b := by
  obtain ⟨bytes, hbytes, hw⟩ := Except.bind_eq_ok.mp h
  exact ⟨bytes, hbytes, hw⟩

theorem actx_readBack_eq_iff {actx : AuthorizationContext} :
    actx.readBack = actx ↔ actx.tns ≠ [] := by
  obtain ⟨ctxType, action, tns, tn, resource⟩ := actx
  by_cases h : tns = []
  · subst h
    simp [AuthorizationContext.readBack]
  · simp [AuthorizationContext.readBack, h]

theorem actx_readBackJson_eq_iff {actx : AuthorizationContext} :
    actx.readBackJson = actx ↔ actx.tns ≠ [[]] := by
  obtain ⟨ctxType, action, tns, tn, resource⟩ := actx
  by_cases h : tns = [[]]
  · subst h
    simp [AuthorizationContext.readBackJson]
  · simp [AuthorizationContext.readBackJson, h]

theorem payload_actx_eq_iff {payload : DpopPayload} {actx : AuthorizationContext} :
    { payload with actx := actx } = payload ↔ actx = payload.actx := by
  obtain ⟨cti, iat, actx', ath, nonce⟩ := payload
  simp

/-- **What comes back from the form in CBOR.** -/
theorem kept_cwt_iff (hb : Base64Lawful H) {p : DpopProof H} {b : Bytes}
    (haction : p.payload.actx.action ≠ .serverSetup)
    (h : (p.withWireFormat .cwt).encode = .ok b) :
    (∃ q, DpopProof.decode H R b = .ok q ∧ q.wireFormat = .cwt ∧
        q.header.jwk = p.header.jwk ∧ q.payload = p.payload) ↔
      p.payload.actx.tns ≠ [] ∧ p.header.jwk.Proper ∧ b.length ≤ maxDpopWireSize := by
  obtain ⟨bytes, henc, hw⟩ := encode_withWireFormat h
  have hdecode : DpopProof.decode H R b = decodeCwtProof H b := by
    rw [DpopProof.decode, looksLikeJwt_cwt hw]
    rfl
  obtain ⟨hbs, hheader, -⟩ := Except.bind_eq_ok.mp henc
  obtain ⟨key, hkey, -⟩ := encodeDpopHeader_eq_ok.mp hheader
  rw [hdecode]
  constructor
  · rintro ⟨q, hq, -, hjwk, hpayload⟩
    have hlen := (decodeCwtProof_eq_ok.mp hq).1
    obtain rfl := Except.ok.inj ((decodeCwtProof_wire hb haction henc hw hlen).symm.trans hq)
    exact ⟨actx_readBack_eq_iff.mp (payload_actx_eq_iff.mp hpayload),
      (coseForm_eq_iff hkey).mp hjwk, hlen⟩
  · rintro ⟨htns, hproper, hlen⟩
    exact ⟨_, decodeCwtProof_wire hb haction henc hw hlen, rfl, (coseForm_eq_iff hkey).mpr hproper,
      payload_actx_eq_iff.mpr (actx_readBack_eq_iff.mpr htns)⟩

/-- **What comes back from the form in JSON.** -/
theorem kept_jwt_iff (hb : Base64Lawful H) (L : JsonLaws H R) {p : DpopProof H} {b : Bytes}
    (haction : p.payload.actx.action ≠ .serverSetup)
    (h : (p.withWireFormat .jwt).encode = .ok b) :
    (∃ q, DpopProof.decode H R b = .ok q ∧ q.wireFormat = .jwt ∧
        q.header.jwk = p.header.jwk ∧ q.payload = p.payload) ↔
      p.payload.actx.tns ≠ [[]] ∧ b.length ≤ maxDpopWireSize := by
  obtain ⟨bytes, henc, hw⟩ := encode_withWireFormat h
  have hdecode : DpopProof.decode H R b = decodeJwtProof H R b := by
    rw [DpopProof.decode, looksLikeJwt_jwt hb hw]
    rfl
  rw [hdecode]
  constructor
  · rintro ⟨q, hq, -, -, hpayload⟩
    obtain ⟨hlen, -⟩ := decodeJwtProof_eq_ok.mp hq
    obtain rfl := Except.ok.inj ((decodeJwtProof_wire hb L haction henc hw hlen).symm.trans hq)
    exact ⟨actx_readBackJson_eq_iff.mp (payload_actx_eq_iff.mp hpayload), hlen⟩
  · rintro ⟨htns, hlen⟩
    exact ⟨_, decodeJwtProof_wire hb L haction henc hw hlen, rfl, rfl,
      payload_actx_eq_iff.mpr (actx_readBackJson_eq_iff.mpr htns)⟩

/-- **When the two forms agree**: they are always told apart, and both give back the proof
    unless its tuple of names is empty or that of the empty name, its key has other members
    than those of its type, or a form is too long to be read.

    The tuple of names travels as a text in which the empty tuple and the tuple of the empty name
    look alike, and the two readers decide differently. A key is written with the members of its
    type and with no others. The bound on the length is checked when a form is read, never when it
    is written. -/
theorem wireForms_agree_iff (hb : Base64Lawful H) (L : JsonLaws H R) {p : DpopProof H}
    {b : DpopWireFormat → Bytes} (haction : p.payload.actx.action ≠ .serverSetup)
    (henc : ∀ f, (p.withWireFormat f).encode = .ok (b f)) :
    p.KeptBy R b ↔ p.payload.actx.tns ≠ [] ∧ p.payload.actx.tns ≠ [[]] ∧ p.header.jwk.Proper ∧
      ∀ f, (b f).length ≤ maxDpopWireSize := by
  have hcwt := @kept_cwt_iff H R hb p (b .cwt) haction (henc .cwt)
  have hjwt := kept_jwt_iff hb L haction (henc .jwt)
  constructor
  · intro h
    obtain ⟨hnil, hproper, hlen⟩ := hcwt.mp (h .cwt).2
    obtain ⟨hone, hlen'⟩ := hjwt.mp (h .jwt).2
    refine ⟨hnil, hone, hproper, fun f => ?_⟩
    cases f with
    | cwt => exact hlen
    | jwt => exact hlen'
  · rintro ⟨hnil, hone, hproper, hlen⟩ f
    obtain ⟨bytes, -, hw⟩ := encode_withWireFormat (henc f)
    cases f with
    | cwt =>
      refine ⟨?_, hcwt.mpr ⟨hnil, hproper, hlen .cwt⟩⟩
      rw [looksLikeJwt_cwt hw]
      simp
    | jwt =>
      refine ⟨?_, hjwt.mpr ⟨hone, hlen .jwt⟩⟩
      rw [looksLikeJwt_jwt hb hw]
      simp

end

/-! ### The empty tuple of names -/

/-- The header and the payload of a proof for `CLIENT_SETUP`. -/
def setupHeaderJson : Json := .object [("alg", .string "ES256"), ("typ", .string dpopTypJwt),
  ("jwk", .object [("kty", .string "EC"), ("crv", .string "P-256"), ("x", .string ""),
    ("y", .string "")])]

def setupPayloadJson : Json := .object [("iat", .number 100), ("actx", .object
  [("type", .string "moqt"), ("action", .string "SETUP"), ("tns", .string "")])]

/-- As the library writes them, members in alphabetical order. -/
def setupHeaderBytes : Bytes := utf8
  "\x7b\"alg\":\"ES256\",\"jwk\":\x7b\"crv\":\"P-256\",\"kty\":\"EC\",\"x\":\"\",\"y\":\"\"\x7d,\"typ\":\"dpop-proof+jwt\"\x7d"

def setupPayloadBytes : Bytes := utf8
  "\x7b\"actx\":\x7b\"action\":\"SETUP\",\"tns\":\"\",\"type\":\"moqt\"\x7d,\"iat\":100\x7d"

/-- A JSON library that knows these two texts. -/
def setupWrite : Json → Except String Bytes
  | .object [(alg, .string es256), (typ, .string t), (jwk, .object [(kty, .string ec),
      (crv, .string p256), (x, .string x'), (y, .string y')])] =>
    if [alg, es256, typ, t, jwk, kty, ec, crv, p256, x, x', y, y'] =
        ["alg", "ES256", "typ", dpopTypJwt, "jwk", "kty", "EC", "crv", "P-256", "x", "", "y", ""]
    then .ok setupHeaderBytes else .error "not a sample"
  | .object [(iat, .number n), (actx, .object [(type, .string moqt), (action, .string setup),
      (tns, .string names)])] =>
    if n = 100 ∧ [iat, actx, type, moqt, action, setup, tns, names] =
        ["iat", "actx", "type", "moqt", "action", "SETUP", "tns", ""]
    then .ok setupPayloadBytes else .error "not a sample"
  | _ => .error "not a sample"

theorem setupWrite_eq_ok {v : Json} {b : Bytes} (h : setupWrite v = .ok b) :
    v = setupHeaderJson ∧ b = setupHeaderBytes ∨ v = setupPayloadJson ∧ b = setupPayloadBytes := by
  unfold setupWrite at h
  split at h
  · split at h
    · rename_i heq
      simp only [List.cons.injEq, and_true] at heq
      obtain ⟨rfl, rfl, rfl, rfl, rfl, rfl, rfl, rfl, rfl, rfl, rfl, rfl, rfl⟩ := heq
      exact .inl ⟨rfl, (Except.ok.inj h).symm⟩
    · cases h
  · split at h
    · rename_i heq
      simp only [List.cons.injEq, and_true] at heq
      obtain ⟨rfl, rfl, rfl, rfl, rfl, rfl, rfl, rfl, rfl⟩ := heq
      exact .inr ⟨rfl, (Except.ok.inj h).symm⟩
    · cases h
  · cases h

def setupReader : JsonReader where
  parse b := if b = setupHeaderBytes then .ok setupHeaderJson
    else if b = setupPayloadBytes then .ok setupPayloadJson else .error "not a sample"
  topLevelKeys b := if b = setupHeaderBytes then (["alg", "jwk", "typ"], .ok ())
    else if b = setupPayloadBytes then (["actx", "iat"], .ok ()) else ([], .error "not a sample")
  customError _ e := e
  jwk v :=
    match v with
    | .object ms =>
      match Json.get ms "kty" with
      | some (.string kty) => .ok ⟨kty, (Json.get ms "crv").bind Json.asStr,
          (Json.get ms "x").bind Json.asStr, (Json.get ms "y").bind Json.asStr,
          (Json.get ms "n").bind Json.asStr, (Json.get ms "e").bind Json.asStr⟩
      | _ => .error "missing field kty"
    | _ => .error "invalid type"

def setupHost : Host := { Host.reference with json := setupWrite }

theorem setupHost_base64 : Base64Lawful setupHost :=
  base64Lawful_of_reference (fun _ => rfl) (fun _ => rfl)

theorem setup_samples_differ : setupPayloadBytes ≠ setupHeaderBytes := by decide +kernel

theorem setupReader_header : setupReader.parse setupHeaderBytes = .ok setupHeaderJson ∧
    setupReader.topLevelKeys setupHeaderBytes = (["alg", "jwk", "typ"], .ok ()) := by
  simp only [setupReader, if_pos, and_self]

theorem setupReader_payload : setupReader.parse setupPayloadBytes = .ok setupPayloadJson ∧
    setupReader.topLevelKeys setupPayloadBytes = (["actx", "iat"], .ok ()) := by
  simp only [setupReader, setup_samples_differ, if_false, if_pos, and_self]

theorem setupReader_laws : JsonLaws setupHost setupReader where
  parse_written hplain h := by
    rcases setupWrite_eq_ok h with ⟨rfl, rfl⟩ | ⟨rfl, rfl⟩
    · exact ⟨_, setupReader_header.1, Json.Agrees.refl_of_plain hplain⟩
    · exact ⟨_, setupReader_payload.1, Json.Agrees.refl_of_plain hplain⟩
  keys_written hplain h := by
    rcases setupWrite_eq_ok h with ⟨heq, rfl⟩ | ⟨heq, rfl⟩
    · obtain rfl := Json.object.inj heq
      rw [setupReader_header.2]
      exact ⟨by decide, rfl⟩
    · obtain rfl := Json.object.inj heq
      rw [setupReader_payload.2]
      exact ⟨by decide, rfl⟩
  jwk_written := by
    intro jwk w h
    obtain ⟨ws, rfl⟩ := h.object_inv
    obtain ⟨kty, crv, x, y, n, e⟩ := jwk
    have hkty := h.get_string (show Json.get _ "kty" = some (.string kty) from rfl)
    have hget : ∀ member ∈ [("crv", crv), ("x", x), ("y", y), ("n", n), ("e", e)],
        (Json.get ws member.1).bind Json.asStr = member.2 := by
      intro member hin
      have hwritten : Json.get ws member.1 = member.2.map Json.string := by
        refine h.get_option ?_
        simp only [List.mem_cons, List.not_mem_nil, or_false] at hin
        rcases hin with rfl | rfl | rfl | rfl | rfl <;>
          cases crv <;> cases x <;> cases y <;> cases n <;> cases e <;> rfl
      rw [hwritten]
      cases member.2 <;> rfl
    simp only [List.forall_mem_cons] at hget
    obtain ⟨hcrv, hx, hy, hn, he, -⟩ := hget
    simp only [setupReader, hkty, hcrv, hx, hy, hn, he]

/-- A proof for `CLIENT_SETUP`, which has no names. -/
def setupProof : DpopProof setupHost :=
  .createForMoqt setupHost 100 .clientSetup [] [] algEs256
    { kty := "EC", crv := some "P-256", x := some "", y := some "" }

/-- Its two forms. -/
def setupForms : DpopWireFormat → Bytes
  | .cwt => [0xd2, 0x84, 0x58, 0x1f, 0xa3, 0x01, 0x26, 0x04, 0xa5, 0x01, 0x02, 0x03, 0x26, 0x20,
      0x01, 0x21, 0x40, 0x22, 0x40, 0x10, 0x6e, 0x64, 0x70, 0x6f, 0x70, 0x2d, 0x70, 0x72, 0x6f,
      0x6f, 0x66, 0x2b, 0x63, 0x77, 0x74, 0xa0, 0x57, 0xa2, 0x06, 0x18, 0x64, 0x19, 0x01, 0x90,
      0xa3, 0x00, 0x64, 0x6d, 0x6f, 0x71, 0x74, 0x01, 0x65, 0x53, 0x45, 0x54, 0x55, 0x50, 0x02,
      0x60, 0x40]
  | .jwt => utf8
      "eyJhbGciOiJFUzI1NiIsImp3ayI6eyJjcnYiOiJQLTI1NiIsImt0eSI6IkVDIiwieCI6IiIsInkiOiIifSwidHlwIjoiZHBvcC1wcm9vZitqd3QifQ.eyJhY3R4Ijp7ImFjdGlvbiI6IlNFVFVQIiwidG5zIjoiIiwidHlwZSI6Im1vcXQifSwiaWF0IjoxMDB9."

theorem encode_setupProof (f : DpopWireFormat) :
    (setupProof.withWireFormat f).encode = .ok (setupForms f) := by
  cases f <;> decide +kernel

theorem wireForms_agree_iff_setup : setupProof.KeptBy setupReader setupForms ↔
    setupProof.payload.actx.tns ≠ [] ∧ setupProof.payload.actx.tns ≠ [[]] ∧
      setupProof.header.jwk.Proper ∧ ∀ f, (setupForms f).length ≤ maxDpopWireSize :=
  wireForms_agree_iff setupHost_base64 setupReader_laws
    (show MoqtAction.clientSetup ≠ .serverSetup by decide) encode_setupProof

/-- In CBOR a setup comes back with an empty name. -/
theorem decode_not_keptBy :
    ¬∀ (H : Host) (R : JsonReader) (p : DpopProof H) (b : DpopWireFormat → Bytes),
      Base64Lawful H → JsonLaws H R → p.payload.actx.action ≠ .serverSetup →
        (∀ f, (p.withWireFormat f).encode = .ok (b f)) → p.KeptBy R b := by
  intro h
  have hkept := h setupHost setupReader setupProof setupForms setupHost_base64 setupReader_laws
    (show MoqtAction.clientSetup ≠ .serverSetup by decide) encode_setupProof
  obtain ⟨-, q, hq, -, -, hpayload⟩ := hkept .cwt
  have hread : (DpopProof.decode setupHost setupReader (setupForms .cwt)).map
      (fun q => q.payload.actx.tns) = .ok [[]] := by decide +kernel
  rw [hq] at hread
  have htns : q.payload.actx.tns = [[]] := Except.ok.inj hread
  rw [hpayload] at htns
  cases htns

end Cat
