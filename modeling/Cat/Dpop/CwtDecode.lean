import Cat.Dpop.Wire
import Cat.Lib.Outcome

/-!
# Reading a proof from CBOR

`decodeCwtProof` reads what `Dpop.Wire` writes: a tagged array of header, empty map, payload and
signature, where header and payload are maps in byte strings of their own. The functions follow
`dpop.rs` one by one, with its texts; where the source has a loop over the members of a map, the
loop body is a function of one member (`actxMember`, `coseKeyMember`, `dpopHeaderMember`,
`dpopPayloadMember`) and the loop a fold of it.

Every map of a proof has integer keys, each once; members with other labels are skipped, so a
reader that gives them a meaning sees more in a proof than this one does. The payload has to be
signed with what was skipped, and it is: the proof keeps the bytes it was read from, and these
are what the signature is checked over (`decodeCwtProof_covered`), not the members written
again.

The key is read in two passes over its map, since the labels of an RSA key are those of an EC
key: only the key type tells what `-1` is. What is made of the bytes is a JWK, with its members
in base64url, which is the form in which the rest of the crate knows a key.

The last part says of each function when it succeeds, as an equivalence. Separation, round trips
and agreement are proved from these statements and not from the functions.
-/

set_option autoImplicit false

namespace Cat

open Cbor

def maxDpopWireSize : Nat := 16 * 1024
def dpopTagSign1 : UInt64 := 18

/-! ## Names from text

The reader accepts what the writer writes, and some texts besides: escapes with capital digits
and escapes that were not needed.
-/

def hexDigit (b : UInt8) : Except CatError UInt8 :=
  if 0x30 ≤ b ∧ b ≤ 0x39 then .ok (b - 0x30)
  else if 0x61 ≤ b ∧ b ≤ 0x66 then .ok (b - 0x61 + 10)
  else if 0x41 ≤ b ∧ b ≤ 0x46 then .ok (b - 0x41 + 10)
  else .error (.invalidClaimValue s!"invalid hex digit 0x{String.ofList (Hex.byte b)}")

/-- The escape is a dot and two hexadecimal digits. A byte that should have been escaped is refused,
    but an escape of a byte that needed none is not. -/
def moqElementFromCanonical : Bytes → Except CatError Bytes
  | [] => .ok []
  | b :: bs =>
    if b = 0x2e then
      match bs with
      | hi :: lo :: bs => do
        let hi ← hexDigit hi
        let lo ← hexDigit lo
        return (hi <<< 4 ||| lo) :: (← moqElementFromCanonical bs)
      | _ => .error (.invalidClaimValue "truncated MOQ escape")
    else if isSafe b then (moqElementFromCanonical bs).map (b :: ·)
    else .error (.invalidClaimValue s!"unescaped MOQ byte 0x{String.ofList (Hex.byte b)}")

/-- The empty text is one empty element. -/
def moqTnsFromCanonical (s : String) : Except CatError (List Bytes) :=
  (s.toList.splitOn '-').mapM' fun element =>
    moqElementFromCanonical (utf8 (String.ofList element))

/-- `SETUP` is read as the client's. -/
def moqtActionFromWireName (name : String) : Except CatError MoqtAction :=
  if name = "SETUP" then .ok .clientSetup
  else if name = "PUB_NS" then .ok .publishNamespace
  else if name = "SUB_NS" then .ok .subscribeNamespace
  else if name = "SUBSCRIBE" then .ok .subscribe
  else if name = "REQ_UPDATE" then .ok .requestUpdate
  else if name = "PUBLISH" then .ok .publish
  else if name = "FETCH" then .ok .fetch
  else if name = "TRK_STATUS" then .ok .trackStatus
  else .error (.invalidClaimValue s!"unknown MOQT action '{name}'")

/-! ## Members

Maps are read into lists of labelled values first, which is where a label that comes twice is
refused. The errors name the claim they are about.
-/

def asI64 (v : Value) (otherwise : CatError) : Except CatError Int64 :=
  match v with
  | .integer i =>
    match i.toI64? with
    | some n => .ok n
    | none => .error .invalidTokenFormat
  | _ => .error otherwise

def asText (v : Value) (otherwise : CatError) : Except CatError String :=
  match v with
  | .text s => .ok s
  | _ => .error otherwise

def asBytes (v : Value) (otherwise : CatError) : Except CatError Bytes :=
  match v with
  | .bytes b => .ok b
  | _ => .error otherwise

def asMap (v : Value) (otherwise : CatError) : Except CatError (List (Value × Value)) :=
  match v with
  | .map es => .ok es
  | _ => .error otherwise

/-- `ok_or_else` with `MissingRequiredClaim`. -/
def orMissing {α : Type} (x : Option α) (claim : String) : Except CatError α :=
  match x with
  | some a => .ok a
  | none => .error (.missingRequiredClaim claim)

/-- The key of an entry behind `out`. -/
def intKey (out : List (Int64 × Value)) : Value → Except CatError Int64
  | .integer i =>
    match i.toI64? with
    | none => .error (.invalidCbor "CBOR map key out of i64 range")
    | some key =>
      if out.any (·.1 == key) then .error (.invalidCbor s!"duplicate CBOR map key {key.toInt}")
      else .ok key
  | _ => .error (.invalidCbor "CBOR map must have integer keys")

/-- The entries in the order of the map, behind those that were read before them. -/
def intKeyedMapFrom (out : List (Int64 × Value)) :
    List (Value × Value) → Except CatError (List (Int64 × Value))
  | [] => .ok out
  | (k, v) :: es => do
    let key ← intKey out k
    intKeyedMapFrom (out ++ [(key, v)]) es

def intoIntKeyedMap (es : List (Value × Value)) : Except CatError (List (Int64 × Value)) :=
  intKeyedMapFrom [] es

/-! ## The authorization context

Members are collected in whatever order they come in, and those that are required are asked for
at the end. Unknown members are skipped.
-/

structure ActxMembers where
  ctxType : Option String := none
  action : Option MoqtAction := none
  tns : Option (List Bytes) := none
  tn : Bytes := []
  resource : Option String := none

/-- The last `resource` among the parameters, if they are a map. -/
def actxResource (resource : Option String) : Value → Option String
  | .map params => params.foldl (fun resource param =>
      match param with
      | (.text name, .text text) => if name = "resource" then some text else resource
      | _ => resource) resource
  | _ => resource

def actxMember (m : ActxMembers) (key : Int64) (val : Value) : Except CatError ActxMembers := do
  if key = actxType then
    return { m with ctxType := some (← asText val .invalidTokenFormat) }
  else if key = actxAction then
    let name ← asText val (.invalidClaimValue "actx.action must be text")
    return { m with action := some (← moqtActionFromWireName name) }
  else if key = actxTns then
    let t ← asText val (.invalidClaimValue "actx.tns must be text")
    return { m with tns := some (← moqTnsFromCanonical t) }
  else if key = actxTn then
    let t ← asText val (.invalidClaimValue "actx.tn must be text")
    return { m with tn := ← moqElementFromCanonical (utf8 t) }
  else if key = actxParameters then
    return { m with resource := actxResource m.resource val }
  else return m

def cborToActx (v : Value) : Except CatError AuthorizationContext := do
  let map ← asMap v (.invalidClaimValue "actx must be a CBOR map")
  let entries ← intoIntKeyedMap map
  let m ← entries.foldlM (fun m e => actxMember m e.1 e.2) {}
  let ctxType ← orMissing m.ctxType "actx.type"
  let action ← orMissing m.action "actx.action"
  let tns ← orMissing m.tns "actx.tns"
  return ⟨ctxType, action, tns, m.tn, m.resource⟩

section
variable (H : Host)

/-! ## The key

Two passes, since the label of a member does not say what it is before the type of the key is
known: the coordinates of a point and the numbers of an RSA key share their labels.
-/

structure CoseKeyMembers where
  crv : Option Int64 := none
  x : Option Bytes := none
  y : Option Bytes := none
  n : Option Bytes := none
  e : Option Bytes := none

/-- The first pass: the key type, and all other entries. -/
def coseKeyType (kty : Option Int64) (buffered : List (Int64 × Value)) :
    List (Int64 × Value) → Except CatError (Option Int64 × List (Int64 × Value))
  | [] => .ok (kty, buffered)
  | (key, val) :: es =>
    if key = coseKeyKty then do
      let kty ← asI64 val .invalidTokenFormat
      coseKeyType (some kty) buffered es
    else coseKeyType kty (buffered ++ [(key, val)]) es

/-- The second pass. The labels of RSA keys are those of EC keys. -/
def coseKeyMember (kty : Int64) (m : CoseKeyMembers) (key : Int64) (val : Value) :
    Except CatError CoseKeyMembers := do
  if kty = coseKtyEc2 ∧ key = coseKeyCrv then
    return { m with crv := some (← asI64 val .invalidTokenFormat) }
  else if kty = coseKtyEc2 ∧ key = coseKeyX then
    return { m with x := some (← asBytes val .invalidTokenFormat) }
  else if kty = coseKtyEc2 ∧ key = coseKeyY then
    return { m with y := some (← asBytes val .invalidTokenFormat) }
  else if kty = coseKtyRsa ∧ key = coseKeyN then
    return { m with n := some (← asBytes val .invalidTokenFormat) }
  else if kty = coseKtyRsa ∧ key = coseKeyE then
    return { m with e := some (← asBytes val .invalidTokenFormat) }
  else return m

/-- `crv`, `x` and `y` are required for EC keys, `n` and `e` for RSA keys, and no other type is
    known. -/
def coseKeyToJwk (v : Value) : Except CatError Jwk := do
  let map ← asMap v (.invalidClaimValue "COSE_Key must be a CBOR map")
  let entries ← intoIntKeyedMap map
  let (kty, buffered) ← coseKeyType none [] entries
  let kty ← orMissing kty "kty"
  let m ← buffered.foldlM (fun m e => coseKeyMember kty m e.1 e.2) {}
  if kty = coseKtyEc2 then
    let crv ← orMissing m.crv "crv"
    if crv ≠ coseCrvP256 then
      throw (.unsupportedAlgorithm s!"unsupported EC crv {crv.toInt}")
    let x ← orMissing m.x "x"
    let y ← orMissing m.y "y"
    return { kty := "EC", crv := some "P-256", x := some (H.base64Encode x),
             y := some (H.base64Encode y) }
  else if kty = coseKtyRsa then
    let n ← orMissing m.n "n"
    let e ← orMissing m.e "e"
    return { kty := "RSA", n := some (H.base64Encode n), e := some (H.base64Encode e) }
  else throw (.unsupportedAlgorithm s!"kty={kty.toInt}")

/-! ## The proof

The stored bytes are those of the byte strings in the array, as they arrived.
-/

/-- One item, with nothing behind it. -/
def decodeOne (bytes : Bytes) : Except CatError Value :=
  match H.cbor.read cborMaxRecursionDepth bytes with
  | .error e => .error (.invalidCbor e)
  | .ok (value, rest) =>
    if rest.isEmpty then .ok value else .error (.invalidCbor "trailing bytes after CBOR item")

structure DpopHeaderMembers where
  alg : Option Int64 := none
  typ : Option String := none
  coseKey : Option Value := none

def dpopHeaderMember (m : DpopHeaderMembers) (key : Int64) (v : Value) :
    Except CatError DpopHeaderMembers := do
  if key = coseHdrAlg then
    return { m with alg := some (← asI64 v (.invalidClaimValue "alg must be an integer")) }
  else if key = coseHdrTyp then
    return { m with typ := some (← asText v .invalidTokenFormat) }
  else if key = coseHdrCoseKey then return { m with coseKey := some v }
  else return m

def decodeDpopHeader (bytes : Bytes) : Except CatError DpopHeader := do
  let value ← decodeOne H bytes
  let map ← asMap value .invalidTokenFormat
  let entries ← intoIntKeyedMap map
  let m ← entries.foldlM (fun m e => dpopHeaderMember m e.1 e.2) {}
  let alg ← orMissing m.alg "alg"
  let typ ← orMissing m.typ "typ"
  let coseKey ← orMissing m.coseKey "COSE_Key"
  let jwk ← coseKeyToJwk H coseKey
  return ⟨alg, typ, jwk⟩

structure DpopPayloadMembers where
  iat : Option Int64 := none
  cti : Option Bytes := none
  actx : Option AuthorizationContext := none
  ath : Option Bytes := none
  nonce : Option String := none

def dpopPayloadMember (m : DpopPayloadMembers) (key : Int64) (v : Value) :
    Except CatError DpopPayloadMembers := do
  if key = cwtClaimIat then
    return { m with iat := some (← asI64 v (.invalidClaimValue "iat must be integer")) }
  else if key = cwtClaimCti then
    return { m with cti := some (← asBytes v (.invalidClaimValue "cti must be a byte string")) }
  else if key = cwtClaimActx then return { m with actx := some (← cborToActx v) }
  else if key = cwtClaimAth then
    return { m with ath := some (← asBytes v (.invalidClaimValue "ath must be a byte string")) }
  else if key = cwtClaimNonce then
    return { m with nonce := some (← asText v .invalidTokenFormat) }
  else return m

def decodeDpopPayload (bytes : Bytes) : Except CatError DpopPayload := do
  let value ← decodeOne H bytes
  let map ← asMap value .invalidTokenFormat
  let entries ← intoIntKeyedMap map
  let m ← entries.foldlM (fun m e => dpopPayloadMember m e.1 e.2) {}
  let iat ← orMissing m.iat "iat"
  let actx ← orMissing m.actx "actx"
  return ⟨m.cti, iat, actx, m.ath, m.nonce⟩

/-- Header, payload and signature of the tagged array. -/
def dpopEnvelope : Value → Except CatError (Bytes × Bytes × Bytes)
  | .tag tag (.array [.bytes header, .map [], .bytes payload, .bytes signature]) =>
    if tag ≠ dpopTagSign1 then .error .invalidTokenFormat else .ok (header, payload, signature)
  | _ => .error .invalidTokenFormat

/-- `cwt::decode`. -/
def decodeCwtProof (bytes : Bytes) : Except CatError (DpopProof H) := do
  if bytes.length > maxDpopWireSize then throw .invalidTokenFormat
  let value ← decodeOne H bytes
  let (headerBytes, payloadBytes, signature) ← dpopEnvelope value
  let header ← decodeDpopHeader H headerBytes
  let payload ← decodeDpopPayload H payloadBytes
  return ⟨header, payload, signature, ⟨headerBytes, payloadBytes⟩, .cwt, none, DpopHeader.empty_cache⟩

end

/-! ## What is read -/

theorem asI64_eq_ok {v : Value} {e : CatError} {n : Int64} :
    asI64 v e = .ok n ↔ v = i64Value n := by
  constructor
  · intro h
    cases v with
    | integer i =>
      unfold asI64 at h
      dsimp only at h
      split at h
      · rename_i m hm
        obtain rfl := Except.ok.inj h
        rw [i64Value, Value.integer.injEq]
        exact Integer.ext (Integer.toI64?_eq_some.mp hm)
      · exact absurd h (by simp)
    | _ => exact absurd h (by simp [asI64])
  · rintro rfl
    unfold asI64 i64Value
    simp

theorem asMap_eq_ok {v : Value} {e : CatError} {es : List (Value × Value)} :
    asMap v e = .ok es ↔ v = .map es := by
  cases v <;> simp [asMap]

theorem orMissing_eq_ok {α : Type} {x : Option α} {claim : String} {a : α} :
    orMissing x claim = .ok a ↔ x = some a := by
  cases x <;> simp [orMissing]

theorem intKey_eq_ok {out : List (Int64 × Value)} {k : Value} {key : Int64} :
    intKey out k = .ok key ↔ k = i64Value key ∧ key ∉ out.map Prod.fst := by
  have hmem : ∀ n, out.any (·.1 == n) = true ↔ n ∈ out.map Prod.fst := fun n => by
    rw [List.any_eq_true, List.mem_map]
    simp only [beq_iff_eq]
  constructor
  · intro h
    cases k with
    | integer i =>
      unfold intKey at h
      dsimp only at h
      split at h
      · exact absurd h (by simp)
      · rename_i n hn
        split at h
        · exact absurd h (by simp)
        · rename_i hany
          obtain rfl := Except.ok.inj h
          refine ⟨?_, fun hin => hany ((hmem n).mpr hin)⟩
          rw [i64Value, Value.integer.injEq]
          exact Integer.ext (Integer.toI64?_eq_some.mp hn)
    | _ => exact absurd h (by simp [intKey])
  · rintro ⟨rfl, hnot⟩
    unfold intKey i64Value
    dsimp only
    rw [Integer.toI64?_ofI64]
    dsimp only
    rw [if_neg (mt (hmem key).mp hnot)]

/-- The entries under integer labels. -/
def labelled (ds : List (Int64 × Value)) : List (Value × Value) :=
  ds.map fun d => (i64Value d.1, d.2)

/-- By induction on the entries, for any entries read before them that have distinct keys. -/
theorem intKeyedMapFrom_eq_ok {es : List (Value × Value)} :
    ∀ {out ds : List (Int64 × Value)}, (out.map Prod.fst).Nodup →
      (intKeyedMapFrom out es = .ok ds ↔
        ∃ rest, ds = out ++ rest ∧ es = labelled rest ∧ (ds.map Prod.fst).Nodup) := by
  induction es with
  | nil =>
    intro out ds hout
    constructor
    · intro h
      obtain rfl := Except.ok.inj h
      exact ⟨[], (List.append_nil _).symm, rfl, hout⟩
    · rintro ⟨rest, rfl, hes, -⟩
      obtain rfl := List.map_eq_nil_iff.mp hes.symm
      rw [List.append_nil, intKeyedMapFrom]
  | cons e es ih =>
    obtain ⟨k, v⟩ := e
    intro out ds hout
    have hnext : ∀ key, key ∉ out.map Prod.fst → ((out ++ [(key, v)]).map Prod.fst).Nodup :=
      fun key hkey => by
        rw [List.map_append, List.nodup_append]
        exact ⟨hout, by simp, fun a ha b hb => by
          rintro rfl
          obtain rfl := List.mem_singleton.mp hb
          exact hkey ha⟩
    constructor
    · intro h
      obtain ⟨key, hkey, hes⟩ := Except.bind_eq_ok.mp h
      obtain ⟨rfl, hnot⟩ := intKey_eq_ok.mp hkey
      obtain ⟨rest, rfl, rfl, hnd⟩ := (ih (hnext key hnot)).mp hes
      exact ⟨(key, v) :: rest, by simp, rfl, hnd⟩
    · rintro ⟨rest, rfl, hes, hnd⟩
      cases rest with
      | nil => exact absurd hes (by simp [labelled])
      | cons d rest =>
        obtain ⟨key, w⟩ := d
        obtain ⟨heq, rfl⟩ := List.cons_eq_cons.mp hes
        obtain ⟨rfl, rfl⟩ := Prod.mk.injEq .. ▸ heq
        have hnot : key ∉ out.map Prod.fst := by
          rw [List.map_append, List.map_cons, List.nodup_append] at hnd
          exact fun hin => hnd.2.2 key hin key List.mem_cons_self rfl
        refine Except.bind_eq_ok.mpr ⟨key, intKey_eq_ok.mpr ⟨rfl, hnot⟩, ?_⟩
        exact (ih (hnext key hnot)).mpr ⟨rest, by simp, rfl, hnd⟩

/-- **A map with integer keys, each once.** -/
theorem intoIntKeyedMap_eq_ok {es : List (Value × Value)} {ds : List (Int64 × Value)} :
    intoIntKeyedMap es = .ok ds ↔ es = labelled ds ∧ (ds.map Prod.fst).Nodup := by
  have hnil : (([] : List (Int64 × Value)).map Prod.fst).Nodup := List.nodup_nil
  rw [intoIntKeyedMap, intKeyedMapFrom_eq_ok hnil]
  constructor
  · rintro ⟨rest, rfl, hes, hnd⟩
    exact ⟨hes, hnd⟩
  · rintro ⟨hes, hnd⟩
    exact ⟨ds, rfl, hes, hnd⟩

theorem intoIntKeyedMap_labelled {ds : List (Int64 × Value)} (h : (ds.map Prod.fst).Nodup) :
    intoIntKeyedMap (labelled ds) = .ok ds := intoIntKeyedMap_eq_ok.mpr ⟨rfl, h⟩

/-- One item and nothing behind it. -/
theorem decodeOne_eq_ok {H : Host} {b : Bytes} {v : Value} :
    decodeOne H b = .ok v ↔ H.cbor.read cborMaxRecursionDepth b = .ok (v, []) := by
  unfold decodeOne
  split
  · rename_i e he
    simp [he]
  · rename_i w r hr
    cases r with
    | nil => simp [hr]
    | cons c cs => simp [hr]

theorem dpopEnvelope_eq_ok {v : Value} {header payload signature : Bytes} :
    dpopEnvelope v = .ok (header, payload, signature) ↔
      v = .tag dpopTagSign1 (.array [.bytes header, .map [], .bytes payload, .bytes signature]) := by
  constructor
  · intro h
    unfold dpopEnvelope at h
    split at h
    · split at h
      · exact absurd h (by simp)
      · rename_i htag
        obtain rfl := of_not_not htag
        simp only [Except.ok.injEq, Prod.mk.injEq] at h
        obtain ⟨rfl, rfl, rfl⟩ := h
        rfl
    · exact absurd h (by simp)
  · rintro rfl
    rfl

section
variable {H : Host}

/-- Header and payload are both a map of distinct integer keys, folded into members. Stated once for
    any fold, since the two functions differ in the fold alone. -/
theorem members_eq_ok {M α : Type} {b : Bytes} {member : M → Int64 → Value → Except CatError M}
    {none : M} {rest : M → Except CatError α} {x : α} :
    (do
      let value ← decodeOne H b
      let map ← asMap value .invalidTokenFormat
      let entries ← intoIntKeyedMap map
      let m ← entries.foldlM (fun m e => member m e.1 e.2) none
      rest m) = Except.ok x ↔
      ∃ ds m, H.cbor.read cborMaxRecursionDepth b = .ok (.map (labelled ds), []) ∧
        (ds.map Prod.fst).Nodup ∧ ds.foldlM (fun m e => member m e.1 e.2) none = .ok m ∧
        rest m = .ok x := by
  constructor
  · intro h
    obtain ⟨v, hv, h₁⟩ := Except.bind_eq_ok.mp h
    obtain ⟨es, hes, h₂⟩ := Except.bind_eq_ok.mp h₁
    obtain rfl := asMap_eq_ok.mp hes
    obtain ⟨ds, hds, h₃⟩ := Except.bind_eq_ok.mp h₂
    obtain ⟨rfl, hnd⟩ := intoIntKeyedMap_eq_ok.mp hds
    obtain ⟨m, hm, hrest⟩ := Except.bind_eq_ok.mp h₃
    exact ⟨ds, m, decodeOne_eq_ok.mp hv, hnd, hm, hrest⟩
  · rintro ⟨ds, m, hv, hnd, hm, hrest⟩
    refine Except.bind_eq_ok.mpr ⟨_, decodeOne_eq_ok.mpr hv, ?_⟩
    refine Except.bind_eq_ok.mpr ⟨_, asMap_eq_ok.mpr rfl, ?_⟩
    refine Except.bind_eq_ok.mpr ⟨ds, intoIntKeyedMap_eq_ok.mpr ⟨rfl, hnd⟩, ?_⟩
    exact Except.bind_eq_ok.mpr ⟨m, hm, hrest⟩

theorem decodeDpopHeader_eq_ok {b : Bytes} {header : DpopHeader} :
    decodeDpopHeader H b = .ok header ↔
      ∃ ds m key, H.cbor.read cborMaxRecursionDepth b = .ok (.map (labelled ds), []) ∧
        (ds.map Prod.fst).Nodup ∧
        ds.foldlM (fun m e => dpopHeaderMember m e.1 e.2) {} = .ok m ∧
        m.alg = some header.alg ∧ m.typ = some header.typ ∧ m.coseKey = some key ∧
        coseKeyToJwk H key = .ok header.jwk := by
  rw [decodeDpopHeader, members_eq_ok]
  constructor
  · rintro ⟨ds, m, hv, hnd, hm, h⟩
    obtain ⟨alg, halg, h₁⟩ := Except.bind_eq_ok.mp h
    obtain ⟨typ, htyp, h₂⟩ := Except.bind_eq_ok.mp h₁
    obtain ⟨key, hkey, h₃⟩ := Except.bind_eq_ok.mp h₂
    obtain ⟨jwk, hjwk, h₄⟩ := Except.bind_eq_ok.mp h₃
    obtain rfl := Except.pure_eq_ok.mp h₄
    exact ⟨ds, m, key, hv, hnd, hm, orMissing_eq_ok.mp halg, orMissing_eq_ok.mp htyp,
      orMissing_eq_ok.mp hkey, hjwk⟩
  · rintro ⟨ds, m, key, hv, hnd, hm, halg, htyp, hkey, hjwk⟩
    refine ⟨ds, m, hv, hnd, hm, ?_⟩
    refine Except.bind_eq_ok.mpr ⟨_, orMissing_eq_ok.mpr halg, ?_⟩
    refine Except.bind_eq_ok.mpr ⟨_, orMissing_eq_ok.mpr htyp, ?_⟩
    refine Except.bind_eq_ok.mpr ⟨_, orMissing_eq_ok.mpr hkey, ?_⟩
    exact Except.bind_eq_ok.mpr ⟨_, hjwk, rfl⟩

theorem decodeDpopPayload_eq_ok {b : Bytes} {payload : DpopPayload} :
    decodeDpopPayload H b = .ok payload ↔
      ∃ ds m, H.cbor.read cborMaxRecursionDepth b = .ok (.map (labelled ds), []) ∧
        (ds.map Prod.fst).Nodup ∧
        ds.foldlM (fun m e => dpopPayloadMember m e.1 e.2) {} = .ok m ∧
        m.iat = some payload.iat ∧ m.actx = some payload.actx ∧ m.cti = payload.cti ∧
        m.ath = payload.ath ∧ m.nonce = payload.nonce := by
  rw [decodeDpopPayload, members_eq_ok]
  constructor
  · rintro ⟨ds, m, hv, hnd, hm, h⟩
    obtain ⟨iat, hiat, h₁⟩ := Except.bind_eq_ok.mp h
    obtain ⟨actx, hactx, h₂⟩ := Except.bind_eq_ok.mp h₁
    obtain rfl := Except.pure_eq_ok.mp h₂
    exact ⟨ds, m, hv, hnd, hm, orMissing_eq_ok.mp hiat, orMissing_eq_ok.mp hactx, rfl, rfl, rfl⟩
  · rintro ⟨ds, m, hv, hnd, hm, hiat, hactx, hcti, hath, hnonce⟩
    refine ⟨ds, m, hv, hnd, hm, ?_⟩
    refine Except.bind_eq_ok.mpr ⟨_, orMissing_eq_ok.mpr hiat, ?_⟩
    refine Except.bind_eq_ok.mpr ⟨_, orMissing_eq_ok.mpr hactx, ?_⟩
    rw [hcti, hath, hnonce]
    rfl

/-- **A proof that is read.** -/
theorem decodeCwtProof_eq_ok {b : Bytes} {p : DpopProof H} :
    decodeCwtProof H b = .ok p ↔ b.length ≤ maxDpopWireSize ∧
      H.cbor.read cborMaxRecursionDepth b = .ok (.tag dpopTagSign1 (.array
        [.bytes p.signedBytes.headerCbor, .map [], .bytes p.signedBytes.payloadCbor,
          .bytes p.signature]), []) ∧
      decodeDpopHeader H p.signedBytes.headerCbor = .ok p.header ∧
      decodeDpopPayload H p.signedBytes.payloadCbor = .ok p.payload ∧
      p.wireFormat = .cwt ∧ p.jktCache = none := by
  constructor
  · intro h
    obtain ⟨hlen, h₁⟩ := Except.guard_eq_ok.mp h
    obtain ⟨v, hv, h₂⟩ := Except.bind_eq_ok.mp h₁
    obtain ⟨⟨hb, pb, sig⟩, henv, h₃⟩ := Except.bind_eq_ok.mp h₂
    obtain rfl := dpopEnvelope_eq_ok.mp henv
    obtain ⟨header, hheader, h₄⟩ := Except.bind_eq_ok.mp h₃
    obtain ⟨payload, hpayload, h₅⟩ := Except.bind_eq_ok.mp h₄
    obtain rfl := Except.pure_eq_ok.mp h₅
    exact ⟨not_lt.mp hlen, decodeOne_eq_ok.mp hv, hheader, hpayload, rfl, rfl⟩
  · obtain ⟨header, payload, signature, ⟨hb, pb⟩, wireFormat, cache, hcache⟩ := p
    rintro ⟨hlen, hv, hheader, hpayload, rfl, rfl⟩
    refine Except.guard_eq_ok.mpr ⟨not_lt.mpr hlen, ?_⟩
    refine Except.bind_eq_ok.mpr ⟨_, decodeOne_eq_ok.mpr hv, ?_⟩
    refine Except.bind_eq_ok.mpr ⟨_, dpopEnvelope_eq_ok.mpr rfl, ?_⟩
    refine Except.bind_eq_ok.mpr ⟨_, hheader, ?_⟩
    exact Except.bind_eq_ok.mpr ⟨_, hpayload, rfl⟩

/-- The signature of a proof that was read covers the bytes it was read from. -/
theorem decodeCwtProof_covered {b : Bytes} {p : DpopProof H} (h : decodeCwtProof H b = .ok p) :
    p.coveredBytes = .ok p.signedBytes := by
  obtain ⟨-, -, hheader, -⟩ := decodeCwtProof_eq_ok.mp h
  have hne : p.signedBytes.headerCbor ≠ [] := by
    intro hnil
    obtain ⟨ds, m, k, hr, -⟩ := decodeDpopHeader_eq_ok.mp hheader
    obtain ⟨x, hx, -, hw⟩ := H.cbor.read_sound hr
    obtain ⟨c, t, hc, -⟩ := x.wire_ne_brk
    rw [hnil, List.append_nil, hc] at hw
    cases hw
  unfold DpopProof.coveredBytes SignedInput.isEmpty
  rw [if_neg (by simp [hne])]

end

end Cat
