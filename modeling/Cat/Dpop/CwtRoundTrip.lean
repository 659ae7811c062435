import Cat.Dpop.Build
import Cat.Dpop.Names

/-!
# Proofs in CBOR, there and back

What is written as CBOR is read back, with three exceptions: the empty tuple of names comes back
as the tuple of the empty name, the server's setup as the client's, and a key with the members
of its type only, an absent one empty.

None of the three is lost by CBOR. The tuple is joined into a text before it is written, and the
join of no names and of one empty name are the same text; the two setups share a name on the
wire; a COSE key has no place for members that its type does not have. What comes back is a
function of what was written in each case (`AuthorizationContext.readBack`, `Jwk.coseForm`), so
the round trip is an equation and not an approximation.

Header and payload are maps with integer labels, written from a list of entries whose labels are
some of an ascending list, and read by folding the entries into members. The proofs meet in the
middle: `labelled` of the entries is what is written, and what is read is the fold of the same
entries.
-/

set_option autoImplicit false

namespace Cat

open Cbor

/-- What is relied on of base64url: one text for every byte string, and no other text is
    decoded; the characters are those of the alphabet. -/
structure Base64Lawful (H : Host) : Prop where
  decode_encode : ∀ b, H.base64Decode (H.base64Encode b) = .ok b
  encode_decode : ∀ s b, H.base64Decode s = .ok b → H.base64Encode b = s
  ascii : ∀ b, ∀ c ∈ (H.base64Encode b).toList, c.toNat < 128 ∧ c ≠ '.'

/-- The base64 of the reference host is lawful, whatever else a host has. -/
theorem base64Lawful_of_reference {H : Host}
    (hencode : ∀ b, H.base64Encode b = String.ofList (Base64.encode b))
    (hdecode : ∀ s, H.base64Decode s = Base64.decode s.toList) : Base64Lawful H where
  decode_encode b := by rw [hencode, hdecode, String.toList_ofList, Base64.decode_encode]
  encode_decode s b h := by
    rw [hdecode] at h
    rw [hencode, Base64.encode_decode h, String.ofList_toList]
  ascii b c hc := by
    rw [hencode, String.toList_ofList] at hc
    exact Base64.encode_ascii hc

/-! ## Maps with labels

A record is written as a map of its members and read by a loop that updates one member at a
time. Reading a map that was written is a fold of updates, each of which is known.
-/

theorem readBack_labelled {ds : List (Int64 × Value)} (h : ∀ d ∈ ds, d.2.readBack = d.2) :
    (Value.map (labelled ds)).readBack = .map (labelled ds) := by
  rw [Value.readBack, Value.readBackEntries_eq, labelled, List.map_map]
  congr 1
  refine List.map_congr_left fun d hd => ?_
  rw [Function.comp, h d hd]
  rfl

theorem height_labelled {ds : List (Int64 × Value)} {n : Nat} (h : ∀ d ∈ ds, d.2.height ≤ n) :
    (Value.map (labelled ds)).height ≤ 1 + n := by
  rw [Value.height]
  refine Nat.add_le_add_left (Value.heightEntries_le.mpr fun e he => ?_) 1
  obtain ⟨d, hd, rfl⟩ := List.mem_map.mp he
  exact ⟨Nat.zero_le _, h d hd⟩

/-- Members that are read by an update each. -/
def Updates {μ : Type} (f : μ → Int64 → Value → Except CatError μ) (ds : List (Int64 × Value))
    (us : List (μ → μ)) : Prop :=
  List.Forall₂ (fun d u => ∀ m, f m d.1 d.2 = .ok (u m)) ds us

section
variable {μ : Type} {f : μ → Int64 → Value → Except CatError μ}

theorem Updates.nil : Updates f [] [] := List.Forall₂.nil

theorem Updates.cons {key : Int64} {v : Value} {u : μ → μ} {ds : List (Int64 × Value)}
    {us : List (μ → μ)} (h : ∀ m, f m key v = .ok (u m)) (hds : Updates f ds us) :
    Updates f ((key, v) :: ds) (u :: us) := List.Forall₂.cons h hds

theorem Updates.foldlM {ds : List (Int64 × Value)} {us : List (μ → μ)} (h : Updates f ds us)
    (m : μ) : ds.foldlM (fun m e => f m e.1 e.2) m = .ok (us.foldl (fun m u => u m) m) :=
  Except.foldlM_updates h m

end

/-! ## The authorization context

Names go out as text and come back, with the exception of the empty tuple.
-/

def actxEntries (actx : AuthorizationContext) : List (Int64 × Value) :=
  [(actxType, .text actx.ctxType), (actxAction, .text (moqtActionWireName actx.action)),
    (actxTns, .text (String.ofList (moqCanonicalTns actx.tns)))] ++
  ((if actx.tn.isEmpty then []
    else [(actxTn, .text (String.ofList (moqCanonicalElement actx.tn)))]) ++
  (match actx.resource with
    | some resource => [(actxParameters, .map [(.text "resource", .text resource)])]
    | none => []))

theorem actxToCbor_eq (actx : AuthorizationContext) :
    actxToCbor actx = .map (labelled (actxEntries actx)) := by
  obtain ⟨ctxType, action, tns, tn, resource⟩ := actx
  cases tn <;> cases resource <;> rfl

theorem actxEntries_plain {actx : AuthorizationContext} :
    ∀ d ∈ actxEntries actx, d.2.readBack = d.2 ∧ d.2.height ≤ 1 := by
  obtain ⟨ctxType, action, tns, tn, resource⟩ := actx
  cases tn <;> cases resource <;>
    simp [actxEntries, Value.readBack, Value.readBackEntries, Value.height, Value.heightEntries]

/-- The labels ascend, so the map that is written is one that may be read. -/
theorem actxEntries_labels (actx : AuthorizationContext) :
    ((actxEntries actx).map Prod.fst).Sublist
      [actxType, actxAction, actxTns, actxTn, actxParameters] := by
  obtain ⟨ctxType, action, tns, tn, resource⟩ := actx
  cases tn <;> cases resource <;> simp [actxEntries]

/-- The context that comes back. -/
def AuthorizationContext.readBack (actx : AuthorizationContext) : AuthorizationContext :=
  { actx with tns := if actx.tns = [] then [[]] else actx.tns }

theorem moqtActionFromWireName_wireName {action : MoqtAction} (h : action ≠ .serverSetup) :
    moqtActionFromWireName (moqtActionWireName action) = .ok action := by
  cases action <;> first | rfl | exact absurd rfl h

theorem moqTnsFromCanonical_readBack (tns : List Bytes) :
    moqTnsFromCanonical (String.ofList (moqCanonicalTns tns)) =
      .ok (if tns = [] then [[]] else tns) := by
  by_cases h : tns = []
  · rw [if_pos h, h, moqTnsFromCanonical_empty]
  · rw [if_neg h, moqTnsFromCanonical_canonical h]

/-- **A context is read back.** -/
theorem cborToActx_actxToCbor {actx : AuthorizationContext} (h : actx.action ≠ .serverSetup) :
    cborToActx (actxToCbor actx) = .ok actx.readBack := by
  have hnd : ((actxEntries actx).map Prod.fst).Nodup :=
    (actxEntries_labels actx).nodup (by decide)
  have hmap := intoIntKeyedMap_labelled hnd
  rw [actxToCbor_eq]
  refine Except.bind_eq_ok.mpr ⟨_, asMap_eq_ok.mpr rfl, ?_⟩
  refine Except.bind_eq_ok.mpr ⟨_, hmap, ?_⟩
  obtain ⟨ctxType, action, tns, tn, resource⟩ := actx
  -- Each member sets its own field, so the loop over them is read off one by one.
  have htype : ∀ m, actxMember m actxType (.text ctxType) =
      .ok { m with ctxType := some ctxType } := fun m => rfl
  have haction : ∀ m, actxMember m actxAction (.text (moqtActionWireName action)) =
      .ok { m with action := some action } := fun m => by
    show (moqtActionFromWireName (moqtActionWireName action) >>= _) = _
    rw [moqtActionFromWireName_wireName h]
    rfl
  have htns : ∀ m, actxMember m actxTns (.text (String.ofList (moqCanonicalTns tns))) =
      .ok { m with tns := some (if tns = [] then [[]] else tns) } := fun m => by
    show (moqTnsFromCanonical (String.ofList (moqCanonicalTns tns)) >>= _) = _
    rw [moqTnsFromCanonical_readBack]
    rfl
  have htn : ∀ m, actxMember m actxTn (.text (String.ofList (moqCanonicalElement tn))) =
      .ok { m with tn := tn } := fun m => by
    show (moqElementFromCanonical (utf8 (String.ofList (moqCanonicalElement tn))) >>= _) = _
    rw [moqElementFromCanonical_canonical]
    rfl
  have hresource : ∀ (r : String) m, actxMember m actxParameters
      (.map [(.text "resource", .text r)]) = .ok { m with resource := some r } := fun r m => rfl
  cases tn with
  | nil =>
    cases resource with
    | none =>
      have hus := Updates.cons htype (.cons haction (.cons htns .nil))
      exact Except.bind_eq_ok.mpr ⟨_, hus.foldlM {}, rfl⟩
    | some r =>
      have hus := Updates.cons htype (.cons haction (.cons htns (.cons (hresource r) .nil)))
      exact Except.bind_eq_ok.mpr ⟨_, hus.foldlM {}, rfl⟩
  | cons b bs =>
    cases resource with
    | none =>
      have hus := Updates.cons htype (.cons haction (.cons htns (.cons htn .nil)))
      exact Except.bind_eq_ok.mpr ⟨_, hus.foldlM {}, rfl⟩
    | some r =>
      have hus := Updates.cons htype
        (.cons haction (.cons htns (.cons htn (.cons (hresource r) .nil))))
      exact Except.bind_eq_ok.mpr ⟨_, hus.foldlM {}, rfl⟩

section
variable {H : Host}

/-! ## The key

A COSE key has the members of its type only, and they are bytes. A member that is no base64url
is not written.
-/

/-- The key that comes back: the members of its type, an absent one empty. -/
def Jwk.coseForm (jwk : Jwk) : Jwk :=
  if jwk.kty = "EC" then
    { kty := "EC", crv := some "P-256", x := some (jwk.x.getD ""), y := some (jwk.y.getD "") }
  else { kty := "RSA", n := some (jwk.n.getD ""), e := some (jwk.e.getD "") }

/-- A key that is written: on the curve, or an RSA key. -/
theorem jwkToCoseKey_eq_ok {jwk : Jwk} {v : Value} : jwkToCoseKey H jwk = .ok v ↔
    (jwk.kty = "EC" ∧ jwk.crv = some "P-256" ∧ ∃ x y,
      H.base64Decode (jwk.x.getD "") = .ok x ∧ H.base64Decode (jwk.y.getD "") = .ok y ∧
      v = .map (labelled [(coseKeyKty, i64Value coseKtyEc2), (coseKeyAlg, i64Value algEs256),
        (coseKeyCrv, i64Value coseCrvP256), (coseKeyX, .bytes x), (coseKeyY, .bytes y)])) ∨
    (jwk.kty = "RSA" ∧ ∃ n e,
      H.base64Decode (jwk.n.getD "") = .ok n ∧ H.base64Decode (jwk.e.getD "") = .ok e ∧
      v = .map (labelled [(coseKeyKty, i64Value coseKtyRsa), (coseKeyAlg, i64Value algPs256),
        (coseKeyN, .bytes n), (coseKeyE, .bytes e)])) := by
  unfold jwkToCoseKey
  by_cases hec : jwk.kty = "EC"
  · have hrsa : jwk.kty ≠ "RSA" := by rw [hec]; decide
    rw [if_pos hec]
    constructor
    · intro h
      obtain ⟨hcrv, h₁⟩ := Except.guard_eq_ok.mp h
      obtain ⟨x, hx, h₂⟩ := Except.bind_eq_ok.mp h₁
      obtain ⟨y, hy, h₃⟩ := Except.bind_eq_ok.mp h₂
      exact .inl ⟨hec, of_not_not hcrv, x, y, decodeMember_eq_ok.mp hx, decodeMember_eq_ok.mp hy,
        (Except.pure_eq_ok.mp h₃).symm⟩
    · rintro (⟨-, hcrv, x, y, hx, hy, rfl⟩ | ⟨h, -⟩)
      · refine Except.guard_eq_ok.mpr ⟨not_not.mpr hcrv, ?_⟩
        refine Except.bind_eq_ok.mpr ⟨x, decodeMember_eq_ok.mpr hx, ?_⟩
        exact Except.bind_eq_ok.mpr ⟨y, decodeMember_eq_ok.mpr hy, rfl⟩
      · exact absurd h hrsa
  · rw [if_neg hec]
    by_cases hrsa : jwk.kty = "RSA"
    · rw [if_pos hrsa]
      constructor
      · intro h
        obtain ⟨n, hn, h₁⟩ := Except.bind_eq_ok.mp h
        obtain ⟨e, he, h₂⟩ := Except.bind_eq_ok.mp h₁
        exact .inr ⟨hrsa, n, e, decodeMember_eq_ok.mp hn, decodeMember_eq_ok.mp he,
          (Except.pure_eq_ok.mp h₂).symm⟩
      · rintro (⟨h, -⟩ | ⟨-, n, e, hn, he, rfl⟩)
        · exact absurd h hec
        · refine Except.bind_eq_ok.mpr ⟨n, decodeMember_eq_ok.mpr hn, ?_⟩
          exact Except.bind_eq_ok.mpr ⟨e, decodeMember_eq_ok.mpr he, rfl⟩
    · rw [if_neg hrsa]
      constructor
      · intro h
        exact absurd h Except.throw_ne_ok
      · rintro (⟨h, -⟩ | ⟨h, -⟩)
        · exact absurd h hec
        · exact absurd h hrsa

/-- What is written for a key is nothing that reading would change. -/
theorem jwkToCoseKey_plain {jwk : Jwk} {v : Value} (h : jwkToCoseKey H jwk = .ok v) :
    v.readBack = v ∧ v.height ≤ 1 := by
  rcases jwkToCoseKey_eq_ok.mp h with ⟨-, -, x, y, -, -, rfl⟩ | ⟨-, n, e, -, -, rfl⟩
  · refine ⟨readBack_labelled ?_, height_labelled (n := 0) ?_⟩
    · simp [Value.readBack, i64Value]
    · simp [Value.height, i64Value]
  · refine ⟨readBack_labelled ?_, height_labelled (n := 0) ?_⟩
    · simp [Value.readBack, i64Value]
    · simp [Value.height, i64Value]

/-- **A key is read back.** -/
theorem coseKeyToJwk_jwkToCoseKey (hb : Base64Lawful H) {jwk : Jwk} {v : Value}
    (h : jwkToCoseKey H jwk = .ok v) : coseKeyToJwk H v = .ok jwk.coseForm := by
  rcases jwkToCoseKey_eq_ok.mp h with ⟨hec, -, x, y, hx, hy, rfl⟩ | ⟨hrsa, n, e, hn, he, rfl⟩
  · have hnd : [coseKeyKty, coseKeyAlg, coseKeyCrv, coseKeyX, coseKeyY].Nodup := by decide
    refine Except.bind_eq_ok.mpr ⟨_, asMap_eq_ok.mpr rfl, ?_⟩
    refine Except.bind_eq_ok.mpr ⟨_, intoIntKeyedMap_labelled hnd, ?_⟩
    rw [Jwk.coseForm, if_pos hec, ← hb.encode_decode _ _ hx, ← hb.encode_decode _ _ hy]
    rfl
  · have hnd : [coseKeyKty, coseKeyAlg, coseKeyN, coseKeyE].Nodup := by decide
    have hec : jwk.kty ≠ "EC" := by rw [hrsa]; decide
    refine Except.bind_eq_ok.mpr ⟨_, asMap_eq_ok.mpr rfl, ?_⟩
    refine Except.bind_eq_ok.mpr ⟨_, intoIntKeyedMap_labelled hnd, ?_⟩
    rw [Jwk.coseForm, if_neg hec, ← hb.encode_decode _ _ hn, ← hb.encode_decode _ _ he]
    rfl

/-! ## The proof

Header and payload are byte strings in the array, each an item of its own, and the bytes that
come back are those that were signed.
-/

theorem writeDpopCbor_eq_ok {v : Value} {b : Bytes} :
    writeDpopCbor H v = .ok b ↔ H.cbor.write v = .ok b := by
  unfold writeDpopCbor
  cases H.cbor.write v <;> simp

/-- A value that is normal and not too high is read as it was written. -/
theorem read_written {v : Value} {b : Bytes} (hw : H.cbor.write v = .ok b)
    (hback : v.readBack = v) (hheight : v.height < cborMaxRecursionDepth) :
    H.cbor.read cborMaxRecursionDepth b = .ok (v, []) := by
  rw [H.cbor.read_written hw hheight, hback]

def dpopHeaderEntries (header : DpopHeader) (key : Value) : List (Int64 × Value) :=
  [(coseHdrAlg, i64Value header.alg), (coseHdrCoseKey, key), (coseHdrTyp, .text header.typ)]

theorem encodeDpopHeader_eq_ok {header : DpopHeader} {b : Bytes} :
    encodeDpopHeader H header = .ok b ↔ ∃ key, jwkToCoseKey H header.jwk = .ok key ∧
      H.cbor.write (.map (labelled (dpopHeaderEntries header key))) = .ok b := by
  unfold encodeDpopHeader
  rw [Except.bind_eq_ok]
  simp only [writeDpopCbor_eq_ok]
  rfl

/-- **A header is read back.** -/
theorem decodeDpopHeader_encode (hb : Base64Lawful H) {header : DpopHeader} {b : Bytes}
    (h : encodeDpopHeader H header = .ok b) :
    decodeDpopHeader H b = .ok { header with jwk := header.jwk.coseForm } := by
  obtain ⟨key, hkey, hw⟩ := encodeDpopHeader_eq_ok.mp h
  obtain ⟨hback, hheight⟩ := jwkToCoseKey_plain hkey
  have hread := read_written hw
    (readBack_labelled (by simp [dpopHeaderEntries, Value.readBack, i64Value, hback]))
    (Nat.lt_of_le_of_lt (height_labelled (n := 1)
      (by simp [dpopHeaderEntries, Value.height, i64Value, hheight])) (by decide))
  have hnd : [coseHdrAlg, coseHdrCoseKey, coseHdrTyp].Nodup := by decide
  have halg : ∀ m, dpopHeaderMember m coseHdrAlg (i64Value header.alg) =
      .ok { m with alg := some header.alg } := fun m => by
    show (asI64 (i64Value header.alg) _ >>= _) = _
    rw [asI64_eq_ok.mpr rfl]
    rfl
  have hkeyMember : ∀ m, dpopHeaderMember m coseHdrCoseKey key =
      .ok { m with coseKey := some key } := fun m => rfl
  have htyp : ∀ m, dpopHeaderMember m coseHdrTyp (.text header.typ) =
      .ok { m with typ := some header.typ } := fun m => rfl
  have hus := Updates.cons halg (.cons hkeyMember (.cons htyp .nil))
  exact decodeDpopHeader_eq_ok.mpr ⟨_, _, key, hread, hnd, hus.foldlM {}, rfl, rfl, rfl,
    coseKeyToJwk_jwkToCoseKey hb hkey⟩

def dpopPayloadEntries (payload : DpopPayload) : List (Int64 × Value) :=
  [(cwtClaimIat, i64Value payload.iat)] ++
    (payload.cti.map fun cti => (cwtClaimCti, Value.bytes cti)).toList ++
    [(cwtClaimActx, actxToCbor payload.actx)] ++
    (payload.nonce.map fun nonce => (cwtClaimNonce, Value.text nonce)).toList ++
    (payload.ath.map fun ath => (cwtClaimAth, Value.bytes ath)).toList

theorem dpopPayloadEntries_labels (payload : DpopPayload) :
    ((dpopPayloadEntries payload).map Prod.fst).Sublist
      [cwtClaimIat, cwtClaimCti, cwtClaimActx, cwtClaimNonce, cwtClaimAth] := by
  obtain ⟨cti, iat, actx, ath, nonce⟩ := payload
  cases cti <;> cases nonce <;> cases ath <;> simp [dpopPayloadEntries]

theorem actxToCbor_plain (actx : AuthorizationContext) :
    (actxToCbor actx).readBack = actxToCbor actx ∧ (actxToCbor actx).height ≤ 2 := by
  rw [actxToCbor_eq]
  exact ⟨readBack_labelled fun d hd => (actxEntries_plain d hd).1,
    height_labelled fun d hd => (actxEntries_plain d hd).2⟩

theorem dpopPayloadEntries_plain (payload : DpopPayload) :
    ∀ d ∈ dpopPayloadEntries payload, d.2.readBack = d.2 ∧ d.2.height ≤ 2 := by
  obtain ⟨cti, iat, actx, ath, nonce⟩ := payload
  have hactx := actxToCbor_plain actx
  cases cti <;> cases nonce <;> cases ath <;>
    simp [dpopPayloadEntries, Value.readBack, Value.height, i64Value, hactx]

theorem encodeDpopPayload_eq_ok {payload : DpopPayload} {b : Bytes} :
    encodeDpopPayload H payload = .ok b ↔
      H.cbor.write (.map (labelled (dpopPayloadEntries payload))) = .ok b := by
  obtain ⟨cti, iat, actx, ath, nonce⟩ := payload
  unfold encodeDpopPayload
  rw [writeDpopCbor_eq_ok]
  cases cti <;> cases nonce <;> cases ath <;> rfl

theorem read_dpopPayload {payload : DpopPayload} {b : Bytes}
    (h : encodeDpopPayload H payload = .ok b) :
    H.cbor.read cborMaxRecursionDepth b =
      .ok (.map (labelled (dpopPayloadEntries payload)), []) := by
  have hplain := dpopPayloadEntries_plain payload
  refine read_written (encodeDpopPayload_eq_ok.mp h)
    (readBack_labelled fun d hd => (hplain d hd).1) ?_
  exact Nat.lt_of_le_of_lt (height_labelled fun d hd => (hplain d hd).2) (by decide)

/-- **A payload is read back.** -/
theorem decodeDpopPayload_encode {payload : DpopPayload} {b : Bytes}
    (haction : payload.actx.action ≠ .serverSetup) (h : encodeDpopPayload H payload = .ok b) :
    decodeDpopPayload H b = .ok { payload with actx := payload.actx.readBack } := by
  have hread := read_dpopPayload h
  have hnd : ((dpopPayloadEntries payload).map Prod.fst).Nodup :=
    (dpopPayloadEntries_labels payload).nodup (by decide)
  obtain ⟨cti, iat, actx, ath, nonce⟩ := payload
  have hiat : ∀ m, dpopPayloadMember m cwtClaimIat (i64Value iat) =
      .ok { m with iat := some iat } := fun m => by
    show (asI64 (i64Value iat) _ >>= _) = _
    rw [asI64_eq_ok.mpr rfl]
    rfl
  have hactx : ∀ m, dpopPayloadMember m cwtClaimActx (actxToCbor actx) =
      .ok { m with actx := some actx.readBack } := fun m => by
    show (cborToActx (actxToCbor actx) >>= _) = _
    rw [cborToActx_actxToCbor haction]
    rfl
  have hcti : ∀ (x : Bytes) m, dpopPayloadMember m cwtClaimCti (.bytes x) =
      .ok { m with cti := some x } := fun x m => rfl
  have hnonce : ∀ (x : String) m, dpopPayloadMember m cwtClaimNonce (.text x) =
      .ok { m with nonce := some x } := fun x m => rfl
  have hath : ∀ (x : Bytes) m, dpopPayloadMember m cwtClaimAth (.bytes x) =
      .ok { m with ath := some x } := fun x m => rfl
  -- the members behind the context, and those in front of it
  have hback : ∃ us, Updates dpopPayloadMember
      ((nonce.map fun x => (cwtClaimNonce, Value.text x)).toList ++
        (ath.map fun x => (cwtClaimAth, Value.bytes x)).toList) us ∧
      ∀ m : DpopPayloadMembers, m.nonce = none → m.ath = none →
        us.foldl (fun m u => u m) m = { m with nonce := nonce, ath := ath } := by
    cases nonce with
    | none =>
      cases ath with
      | none => exact ⟨[], .nil, fun m hn ha => by rw [← hn, ← ha]; rfl⟩
      | some x => exact ⟨_, .cons (hath x) .nil, fun m hn _ => by rw [← hn]; rfl⟩
    | some y =>
      cases ath with
      | none => exact ⟨_, .cons (hnonce y) .nil, fun m _ ha => by rw [← ha]; rfl⟩
      | some x => exact ⟨_, .cons (hnonce y) (.cons (hath x) .nil), fun m _ _ => rfl⟩
  obtain ⟨us, hus, hfold⟩ := hback
  have hall : ∃ m, (dpopPayloadEntries ⟨cti, iat, actx, ath, nonce⟩).foldlM
      (fun m e => dpopPayloadMember m e.1 e.2) {} = .ok m ∧
      m = ⟨some iat, cti, some actx.readBack, ath, nonce⟩ := by
    cases cti with
    | none => exact ⟨_, (Updates.cons hiat (.cons hactx hus)).foldlM {}, hfold _ rfl rfl⟩
    | some x =>
      exact ⟨_, (Updates.cons hiat (.cons (hcti x) (.cons hactx hus))).foldlM {}, hfold _ rfl rfl⟩
  obtain ⟨m, hm, rfl⟩ := hall
  exact decodeDpopPayload_eq_ok.mpr ⟨_, _, hread, hnd, hm, rfl, rfl, rfl, rfl, rfl⟩

/-- What comes back of a proof. -/
def DpopProof.cwtForm (header : DpopHeader) (payload : DpopPayload) (bytes : SignedInput)
    (signature : Bytes) : DpopProof H :=
  ⟨{ header with jwk := header.jwk.coseForm }, { payload with actx := payload.actx.readBack },
    signature, bytes, .cwt, none, by simp⟩

/-- **A proof in CBOR is read back.** -/
theorem decodeCwtProof_wire (hb : Base64Lawful H) {header : DpopHeader} {payload : DpopPayload}
    {bytes : SignedInput} {signature b : Bytes} (haction : payload.actx.action ≠ .serverSetup)
    (henc : encodeHeaderAndPayload H .cwt header payload = .ok bytes)
    (hw : DpopProof.wire H .cwt bytes signature = .ok b) (hlen : b.length ≤ maxDpopWireSize) :
    decodeCwtProof H b = .ok (.cwtForm header payload bytes signature) := by
  obtain ⟨hbs, hheader, h₁⟩ := Except.bind_eq_ok.mp henc
  obtain ⟨pbs, hpayload, h₂⟩ := Except.bind_eq_ok.mp h₁
  obtain rfl := Except.pure_eq_ok.mp h₂
  have hread := read_written (writeDpopCbor_eq_ok.mp hw) rfl (show 3 < 32 by decide)
  exact decodeCwtProof_eq_ok.mpr ⟨hlen, hread, decodeDpopHeader_encode hb hheader,
    decodeDpopPayload_encode haction hpayload, rfl, rfl⟩

end

end Cat
