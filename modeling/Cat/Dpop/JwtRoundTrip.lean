import Cat.Dpop.CwtRoundTrip

/-!
# Proofs in JSON, there and back

A proof that was written as a JWT is read back. Text is JSON here, and the JSON library gives
less than the CBOR one: the members of an object are read in no particular order, and only what
was written under a name is found under it. So what is read agrees with what was written name by
name (`Json.Agrees`), and no more can be said of the two values. It is enough, because the
readers of `dpop.rs` ask for members by name only.

What is relied on of the library is `JsonLaws`: what was written is read, up to the order of
members. It is asked for plain values, those that have no name twice in an object, no number but
an `i64`, and no more nesting than the reader allows; the values of a proof are plain.

All comes back, but for the tuple of the empty name, which is read as the empty tuple: joined
names are the empty text in both cases, and the reader of JSON decides for no names
(`readBackJson`). The reader of CBOR decides the other way, which is proved where the formats
are compared.

The proofs name the members that were written (`dpopHeaderMembers`, `dpopPayloadMembers`) and
then follow the reader, member by member, with `Json.Agrees.get_string` and its like in the
place of reading.
-/

set_option autoImplicit false

namespace Cat

open Cbor

/-! ## The JSON library

It is relied on to read what it has written, up to the order of members, and to list the keys of
an object as they stand. How deep it reads is its own limit.
-/

/-- The same value, up to the order of members. -/
inductive Json.Agrees : Json → Json → Prop
  | null : Json.Agrees .null .null
  | bool (b : Bool) : Json.Agrees (.bool b) (.bool b)
  | number (n : Int64) : Json.Agrees (.number n) (.number n)
  | string (s : String) : Json.Agrees (.string s) (.string s)
  | array {xs ys : List Json} (h : List.Forall₂ Json.Agrees xs ys) :
      Json.Agrees (.array xs) (.array ys)
  | object {ms ws : List (String × Json)}
      (h : ∀ name, Option.Rel Json.Agrees (Json.get ms name) (Json.get ws name)) :
      Json.Agrees (.object ms) (.object ws)

/-- A value that survives: no name twice in an object, no number but an `i64`, and no more
    nesting than the reader allows. -/
def Json.Plain : Nat → Json → Prop
  | _, .null | _, .bool _ | _, .number _ | _, .string _ => True
  | d + 1, .array items => ∀ x ∈ items, x.Plain d
  | d + 1, .object members => (members.map Prod.fst).Nodup ∧ ∀ m ∈ members, m.2.Plain d
  | _, _ => False

theorem Json.plain_string (d : Nat) (s : String) : (Json.string s).Plain d := by
  cases d <;> trivial

/-- A plain value agrees with itself. -/
theorem Json.Agrees.refl_of_plain {d : Nat} : ∀ {v : Json}, v.Plain d → v.Agrees v := by
  induction d with
  | zero =>
    intro v h
    cases v with
    | null => exact .null
    | bool b => exact .bool b
    | number n => exact .number n
    | string s => exact .string s
    | _ => exact absurd h (by simp [Json.Plain])
  | succ d ih =>
    intro v h
    cases v with
    | null => exact .null
    | bool b => exact .bool b
    | number n => exact .number n
    | string s => exact .string s
    | array items => exact .array (List.forall₂_same.mpr fun x hx => ih (h x hx))
    | object members =>
      refine .object fun name => ?_
      cases hv : Json.get members name with
      | none => exact .none
      | some v =>
        obtain ⟨l, r, rfl, -⟩ := List.lookup_eq_some_iff.mp hv
        exact .some (ih (h.2 (name, v) (by simp)))
    | _ => exact absurd h (by simp [Json.Plain])

/-- What is relied on of the JSON library: what was written is read, each key of an object is
    met once, and a key is read from its members. -/
structure JsonLaws (H : Host) (R : JsonReader) : Prop where
  parse_written : ∀ {v : Json} {b : Bytes}, v.Plain 127 → H.json v = .ok b →
    ∃ w, R.parse b = .ok w ∧ v.Agrees w
  keys_written : ∀ {ms : List (String × Json)} {b : Bytes}, (Json.object ms).Plain 127 →
    H.json (.object ms) = .ok b →
      (R.topLevelKeys b).1.Perm (ms.map Prod.fst) ∧ (R.topLevelKeys b).2 = .ok ()
  jwk_written : ∀ {jwk : Jwk} {w : Json}, (jwkToJson jwk).Agrees w → R.jwk w = .ok jwk

/-! ## Objects

Members are looked up by name, so their order does not matter to a reader, and absent ones are
those that were not written.
-/

section
variable {ms ws : List (String × Json)} {name : String}

/-- A member that was written is found, and agrees. -/
theorem Json.Agrees.get_some {v : Json} (h : (Json.object ms).Agrees (.object ws))
    (hv : Json.get ms name = some v) : ∃ w, Json.get ws name = some w ∧ v.Agrees w := by
  cases h with
  | object h =>
    have hname := h name
    rw [hv] at hname
    cases hw : Json.get ws name with
    | none =>
      rw [hw] at hname
      cases hname
    | some w =>
      rw [hw] at hname
      cases hname with
      | some hrel => exact ⟨w, rfl, hrel⟩

/-- A member that was not written is not found. -/
theorem Json.Agrees.get_none (h : (Json.object ms).Agrees (.object ws))
    (hv : Json.get ms name = none) : Json.get ws name = none := by
  cases h with
  | object h =>
    have hname := h name
    rw [hv] at hname
    cases hw : Json.get ws name with
    | none => rfl
    | some w =>
      rw [hw] at hname
      cases hname

theorem Json.Agrees.get_string {s : String} (h : (Json.object ms).Agrees (.object ws))
    (hs : Json.get ms name = some (.string s)) : Json.get ws name = some (.string s) := by
  obtain ⟨w, hw, hrel⟩ := h.get_some hs
  cases hrel
  exact hw

theorem Json.Agrees.get_number {n : Int64} (h : (Json.object ms).Agrees (.object ws))
    (hn : Json.get ms name = some (.number n)) : Json.get ws name = some (.number n) := by
  obtain ⟨w, hw, hrel⟩ := h.get_some hn
  cases hrel
  exact hw

/-- A text that may be absent. -/
theorem Json.Agrees.get_option {s : Option String} (h : (Json.object ms).Agrees (.object ws))
    (hs : Json.get ms name = s.map Json.string) : Json.get ws name = s.map Json.string := by
  cases s with
  | none => exact h.get_none hs
  | some s => exact h.get_string hs

theorem Json.Agrees.object_inv {w : Json} (h : (Json.object ms).Agrees w) :
    ∃ ws, w = .object ws := by
  cases h with
  | object => exact ⟨_, rfl⟩

end

section
variable {H : Host} {R : JsonReader}

theorem readJsonObject_written (L : JsonLaws H R) {ms : List (String × Json)} {b : Bytes}
    (hplain : (Json.object ms).Plain 127) (h : H.json (.object ms) = .ok b) :
    ∃ ws, readJsonObject R b = .ok ws ∧ (Json.object ms).Agrees (.object ws) := by
  obtain ⟨w, hw, hagrees⟩ := L.parse_written hplain h
  obtain ⟨ws, rfl⟩ := hagrees.object_inv
  obtain ⟨hkeys, hdone⟩ := L.keys_written hplain h
  have hnd : (R.topLevelKeys b).1.Nodup := hkeys.nodup_iff.mpr hplain.1
  exact ⟨ws, readJsonObject_eq_ok.mpr ⟨hw, hnd, hdone⟩, hagrees⟩

theorem writeDpopJson_eq_ok {what : String} {v : Json} {b : Bytes} :
    writeDpopJson H what v = .ok b ↔ H.json v = .ok b := by
  unfold writeDpopJson
  cases H.json v <;> simp

theorem orMissing_some {α : Type} {x : Option α} {a : α} {claim : String} (h : x = some a) :
    orMissing x claim = .ok a := orMissing_eq_ok.mpr h

/-! ## The header

The algorithm goes out under its JOSE name, and the key as an object of its members.
-/

/-- An algorithm with a name in JOSE is found again under it. -/
theorem joseToCose_coseToJose {alg : Int64} {s : String} (h : coseToJoseAlgorithm alg = some s) :
    joseToCoseAlgorithm s = some alg := by
  unfold coseToJoseAlgorithm at h
  split at h
  · rename_i halg
    obtain rfl := Option.some.inj h
    rw [halg]
    rfl
  · split at h
    · rename_i halg
      obtain rfl := Option.some.inj h
      rw [halg]
      rfl
    · split at h
      · rename_i halg
        obtain rfl := Option.some.inj h
        rw [halg]
        rfl
      · cases h

theorem jwkToJson_plain (jwk : Jwk) (d : Nat) : (jwkToJson jwk).Plain (d + 1) := by
  obtain ⟨kty, crv, x, y, n, e⟩ := jwk
  have hkeys : ((("kty", .string kty) :: ([("crv", crv), ("x", x), ("y", y), ("n", n),
      ("e", e)].filterMap fun member => member.2.map fun s => (member.1, Json.string s))).map
        Prod.fst).Sublist ["kty", "crv", "x", "y", "n", "e"] := by
    cases crv <;> cases x <;> cases y <;> cases n <;> cases e <;>
      (simp; try decide)
  refine ⟨hkeys.nodup (by decide), ?_⟩
  intro m hm
  rcases List.mem_cons.mp hm with rfl | hm
  · exact Json.plain_string d kty
  · obtain ⟨member, -, hmember⟩ := List.mem_filterMap.mp hm
    obtain ⟨s, -, rfl⟩ := Option.map_eq_some_iff.mp hmember
    exact Json.plain_string d s

def dpopHeaderMembers (header : DpopHeader) (alg : String) : List (String × Json) :=
  [("alg", .string alg), ("typ", .string header.typ), ("jwk", jwkToJson header.jwk)]

theorem read_dpopHeaderJson (L : JsonLaws H R) {header : DpopHeader} {b : Bytes}
    (h : encodeHeaderJson H header = .ok b) : ∃ alg ws,
      coseToJoseAlgorithm header.alg = some alg ∧ readJsonObject R b = .ok ws ∧
      (Json.object (dpopHeaderMembers header alg)).Agrees (.object ws) := by
  unfold encodeHeaderJson at h
  cases halg : coseToJoseAlgorithm header.alg with
  | none =>
    rw [halg] at h
    cases h
  | some alg =>
    rw [halg] at h
    have hplain : (Json.object (dpopHeaderMembers header alg)).Plain 127 := by
      refine ⟨show ["alg", "typ", "jwk"].Nodup by decide, ?_⟩
      intro m hm
      simp only [dpopHeaderMembers, List.mem_cons, List.not_mem_nil, or_false] at hm
      rcases hm with rfl | rfl | rfl
      · trivial
      · trivial
      · exact jwkToJson_plain _ _
    obtain ⟨ws, hread, hagrees⟩ := readJsonObject_written L hplain (writeDpopJson_eq_ok.mp h)
    exact ⟨alg, ws, rfl, hread, hagrees⟩

/-- **A header is read back**, key and all. -/
theorem decodeHeaderJson_encode (L : JsonLaws H R) {header : DpopHeader} {b : Bytes}
    (h : encodeHeaderJson H header = .ok b) : decodeHeaderJson R b = .ok header := by
  obtain ⟨alg, ws, halg, hread, hagrees⟩ := read_dpopHeaderJson L h
  have halgm := hagrees.get_string (show Json.get _ "alg" = some (.string alg) from rfl)
  have htyp := hagrees.get_string (show Json.get _ "typ" = some (.string header.typ) from rfl)
  obtain ⟨w, hw, hjwk⟩ :=
    hagrees.get_some (show Json.get _ "jwk" = some (jwkToJson header.jwk) from rfl)
  refine Except.bind_eq_ok.mpr ⟨ws, hread, ?_⟩
  refine Except.bind_eq_ok.mpr ⟨alg, orMissing_some (by rw [halgm]; rfl), ?_⟩
  rw [joseToCose_coseToJose halg]
  refine Except.bind_eq_ok.mpr ⟨header.alg, rfl, ?_⟩
  refine Except.bind_eq_ok.mpr ⟨header.typ, orMissing_some (by rw [htyp]; rfl), ?_⟩
  refine Except.bind_eq_ok.mpr ⟨w, orMissing_some hw, ?_⟩
  rw [L.jwk_written hjwk]
  rfl

/-! ## The payload

The identifier is text in this form. One that is no UTF-8 is not written at all.
-/

/-- The context that comes back. -/
def AuthorizationContext.readBackJson (actx : AuthorizationContext) : AuthorizationContext :=
  { actx with tns := if actx.tns = [[]] then [] else actx.tns }

theorem ofList_eq_empty {cs : List Char} : String.ofList cs = "" ↔ cs = [] := by
  rw [← String.toList_inj, String.toList_ofList]
  rfl

/-- The one tuple that does not come back is that of the empty name. -/
theorem tnsFromJson_canonical {ws : List (String × Json)} {tns : List Bytes}
    (h : Json.get ws "tns" = some (.string (String.ofList (moqCanonicalTns tns)))) :
    tnsFromJson ws = .ok (if tns = [[]] then [] else tns) := by
  unfold tnsFromJson
  rw [h]
  dsimp only
  by_cases hempty : String.ofList (moqCanonicalTns tns) = ""
  · rw [if_pos hempty]
    rcases moqCanonicalTns_eq_nil.mp (ofList_eq_empty.mp hempty) with rfl | rfl
    · rfl
    · rfl
  · rw [if_neg hempty]
    have hne : ¬(tns = [] ∨ tns = [[]]) := fun hor =>
      hempty (ofList_eq_empty.mpr (moqCanonicalTns_eq_nil.mpr hor))
    obtain ⟨hnil, hone⟩ := not_or.mp hne
    rw [if_neg hone, moqTnsFromCanonical_canonical hnil]

/-- A track name that is written only when there is one. -/
theorem tnFromJson_canonical {ws : List (String × Json)} {tn : Bytes}
    (h : Json.get ws "tn" = (if tn.isEmpty then none
      else some (.string (String.ofList (moqCanonicalElement tn))))) :
    tnFromJson ws = .ok tn := by
  unfold tnFromJson
  rw [h]
  cases tn with
  | nil => rfl
  | cons b bs =>
    have hne : ¬String.ofList (moqCanonicalElement (b :: bs)) = "" := by
      intro hempty
      have hback := moqElementFromCanonical_canonical (b :: bs)
      rw [hempty] at hback
      cases hback
    show (if String.ofList (moqCanonicalElement (b :: bs)) = "" then Except.ok []
      else moqElementFromCanonical _) = _
    rw [if_neg hne, moqElementFromCanonical_canonical]

/-- The context comes back unless it is for the server's setup, which shares its name with the
    client's. -/
theorem actxFromJson_actxToJson {actx : AuthorizationContext} {w : Json}
    (haction : actx.action ≠ .serverSetup) (h : (actxToJson actx).Agrees w) :
    actxFromJson w = .ok actx.readBackJson := by
  obtain ⟨ws, rfl⟩ := h.object_inv
  obtain ⟨ctxType, action, tns, tn, resource⟩ := actx
  have htype := h.get_string (show Json.get _ "type" = some (.string ctxType) from rfl)
  have hname := h.get_string
    (show Json.get _ "action" = some (.string (moqtActionWireName action)) from rfl)
  have htns := h.get_string
    (show Json.get _ "tns" = some (.string (String.ofList (moqCanonicalTns tns))) from rfl)
  have htn : Json.get ws "tn" = (if tn.isEmpty then none
      else some (.string (String.ofList (moqCanonicalElement tn)))) := by
    cases tn with
    | nil =>
      refine h.get_none ?_
      cases resource <;> rfl
    | cons b bs => exact h.get_string rfl
  have hresource : Json.get ws "resource" = resource.map Json.string := by
    refine h.get_option ?_
    cases tn <;> cases resource <;> rfl
  refine Except.bind_eq_ok.mpr ⟨ws, rfl, ?_⟩
  refine Except.bind_eq_ok.mpr ⟨ctxType, orMissing_some (by rw [htype]; rfl), ?_⟩
  refine Except.bind_eq_ok.mpr
    ⟨moqtActionWireName action, orMissing_some (by rw [hname]; rfl), ?_⟩
  refine Except.bind_eq_ok.mpr ⟨action, moqtActionFromWireName_wireName haction, ?_⟩
  refine Except.bind_eq_ok.mpr ⟨_, tnsFromJson_canonical htns, ?_⟩
  refine Except.bind_eq_ok.mpr ⟨tn, tnFromJson_canonical htn, ?_⟩
  rw [hresource]
  cases resource <;> rfl

theorem actxToJson_plain (actx : AuthorizationContext) (d : Nat) :
    (actxToJson actx).Plain (d + 1) := by
  obtain ⟨ctxType, action, tns, tn, resource⟩ := actx
  cases tn <;> cases resource <;>
    simp [actxToJson, Json.Plain, Json.plain_string]

/-- The identifier is a text in JSON, so one that is no UTF-8 cannot be written. -/
theorem jtiMember_eq_ok {cti : Option Bytes} {ms : List (String × Json)} :
    jtiMember cti = .ok ms ↔ ∃ jti : Option String, cti = jti.map utf8 ∧
      ms = (jti.map fun jti => ("jti", Json.string jti)).toList := by
  unfold jtiMember
  cases cti with
  | none =>
    constructor
    · intro h
      obtain rfl := Except.ok.inj h
      exact ⟨none, rfl, rfl⟩
    · rintro ⟨jti, hjti, rfl⟩
      cases jti with
      | none => rfl
      | some jti => cases hjti
  | some cti =>
    dsimp only
    constructor
    · intro h
      cases hjti : ofUtf8? cti with
      | none =>
        rw [hjti] at h
        cases h
      | some jti =>
        rw [hjti] at h
        obtain rfl := Except.ok.inj h
        exact ⟨some jti, congrArg some (ofUtf8?_eq_some.mp hjti), rfl⟩
    · rintro ⟨jti, hjti, rfl⟩
      cases jti with
      | none => cases hjti
      | some jti =>
        obtain rfl := Option.some.inj hjti
        rw [ofUtf8?_utf8]
        rfl

def dpopPayloadMembers (H : Host) (payload : DpopPayload) (jti : Option String) :
    List (String × Json) :=
  [("iat", .number payload.iat)] ++ (jti.map fun jti => ("jti", Json.string jti)).toList ++
    [("actx", actxToJson payload.actx)] ++
    (payload.nonce.map fun nonce => ("nonce", Json.string nonce)).toList ++
    (payload.ath.map fun ath => ("ath", Json.string (H.base64Encode ath))).toList

theorem read_dpopPayloadJson (L : JsonLaws H R) {payload : DpopPayload} {b : Bytes}
    (h : encodePayloadJson H payload = .ok b) : ∃ jti ws, payload.cti = jti.map utf8 ∧
      readJsonObject R b = .ok ws ∧
      (Json.object (dpopPayloadMembers H payload jti)).Agrees (.object ws) := by
  obtain ⟨ms, hms, hw⟩ := Except.bind_eq_ok.mp h
  obtain ⟨jti, hjti, rfl⟩ := jtiMember_eq_ok.mp hms
  obtain ⟨cti, iat, actx, ath, nonce⟩ := payload
  have hactx := actxToJson_plain actx 125
  have hplain : (Json.object (dpopPayloadMembers H ⟨cti, iat, actx, ath, nonce⟩ jti)).Plain
      127 := by
    cases jti <;> cases nonce <;> cases ath <;> simp [dpopPayloadMembers, Json.Plain, hactx]
  obtain ⟨ws, hread, hagrees⟩ := readJsonObject_written L hplain (writeDpopJson_eq_ok.mp hw)
  exact ⟨jti, ws, hjti, hread, hagrees⟩

/-- Header and payload in JSON are never the same text. -/
theorem encodeJson_ne (L : JsonLaws H R) {header : DpopHeader} {payload : DpopPayload}
    {b b' : Bytes} (hheader : encodeHeaderJson H header = .ok b)
    (hpayload : encodePayloadJson H payload = .ok b') : b ≠ b' := by
  rintro rfl
  obtain ⟨alg, ws, -, hread, hagrees⟩ := read_dpopHeaderJson L hheader
  obtain ⟨jti, ws', -, hread', hagrees'⟩ := read_dpopPayloadJson L hpayload
  obtain rfl := Except.ok.inj (hread.symm.trans hread')
  have hiat := hagrees'.get_number (show Json.get _ "iat" = some (.number payload.iat) from rfl)
  have hnone := hagrees.get_none (show Json.get _ "iat" = none from rfl)
  rw [hnone] at hiat
  cases hiat

/-- **A payload is read back.** -/
theorem decodePayloadJson_encode (hb : Base64Lawful H) (L : JsonLaws H R) {payload : DpopPayload}
    {b : Bytes} (haction : payload.actx.action ≠ .serverSetup)
    (h : encodePayloadJson H payload = .ok b) :
    decodePayloadJson H R b = .ok { payload with actx := payload.actx.readBackJson } := by
  obtain ⟨jti, ws, hcti, hread, hagrees⟩ := read_dpopPayloadJson L h
  obtain ⟨cti, iat, actx, ath, nonce⟩ := payload
  obtain rfl : cti = jti.map utf8 := hcti
  have hiat := hagrees.get_number (show Json.get _ "iat" = some (.number iat) from rfl)
  have hjti : Json.get ws "jti" = jti.map Json.string := by
    refine hagrees.get_option ?_
    cases jti <;> cases nonce <;> cases ath <;> rfl
  have hactx : ∃ w, Json.get ws "actx" = some w ∧ (actxToJson actx).Agrees w := by
    refine hagrees.get_some ?_
    cases jti <;> rfl
  have hnonce : Json.get ws "nonce" = nonce.map Json.string := by
    refine hagrees.get_option ?_
    cases jti <;> cases nonce <;> cases ath <;> rfl
  have hath : Json.get ws "ath" = (ath.map H.base64Encode).map Json.string := by
    refine hagrees.get_option ?_
    cases jti <;> cases nonce <;> cases ath <;> rfl
  obtain ⟨w, hw, hagrees⟩ := hactx
  have hctiread : jtiFromJson ws = .ok (jti.map utf8) := by
    unfold jtiFromJson
    rw [hjti]
    cases jti <;> rfl
  have hathread : athFromJson H ws = .ok ath := by
    unfold athFromJson
    rw [hath]
    cases ath with
    | none => rfl
    | some x => exact Except.map_eq_ok.mpr ⟨x, decodeMember_eq_ok.mpr (hb.decode_encode x), rfl⟩
  refine Except.bind_eq_ok.mpr ⟨ws, hread, ?_⟩
  refine Except.bind_eq_ok.mpr ⟨iat, orMissing_some (by rw [hiat]; rfl), ?_⟩
  refine Except.bind_eq_ok.mpr ⟨_, hctiread, ?_⟩
  refine Except.bind_eq_ok.mpr ⟨w, orMissing_some hw, ?_⟩
  refine Except.bind_eq_ok.mpr ⟨_, actxFromJson_actxToJson haction hagrees, ?_⟩
  refine Except.bind_eq_ok.mpr ⟨ath, hathread, ?_⟩
  rw [hnonce]
  cases nonce <;> rfl

end

end Cat
