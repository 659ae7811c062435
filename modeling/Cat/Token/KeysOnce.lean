import Cat.Dpop.Separation
import Cat.Dpop.WireForms
import Cat.Token.EncryptedDecoder

/-!
# Keys that stand twice

Five readers take members from a map or an object, and each has its own rule for a key that
stands there twice. The maps of a proof in CBOR have integer keys, each once, and nothing behind
them; so have the outer objects of a proof in JSON. Nothing is checked in the parameters of a
CBOR proof, in the inner objects of a JSON proof, for the key identifier of a signed token, or
in an encrypted one.

A member that stands twice is dangerous when two readers keep different ones. What each reader
keeps is therefore not asked here, only whether it makes sure that there is but one: `UsedOnce`
of the keys that it uses. For the readers that check, this is proved from their result. For
those that do not, it is the condition on the input, and the theorem about all five readers is
an equivalence with what is left to it.

CBOR is read into entries as they stand, so nothing is lost before the check. JSON is read into
a map first, and a member that is overwritten there can no longer be seen. The source lists the
members with a visitor for that reason, and what is relied on of the library is put together in
`JsonTexts`: a text is a document whose members stand there as written, the value keeps the last
one of each name, and the visitor sees all of them. A library with these properties is given
after it, for any way to tell texts apart into documents, and the accepted proofs at the end are
read by one.
-/

set_option autoImplicit false

namespace Cat

open Cbor

/-! ## Keys

That a key stands twice is said with sublists, so that one notion serves for entries of a map,
members of an object and labels of a header.
-/

section
variable {α : Type} {used used' keys : List α}

/-- No key that is used stands twice. -/
def UsedOnce (used keys : List α) : Prop := ∀ k ∈ used, ¬[k, k].Sublist keys

theorem UsedOnce.of_nodup (h : keys.Nodup) : UsedOnce used keys := fun k _ =>
  List.nodup_iff_sublist.mp h k

theorem UsedOnce.mono (h : UsedOnce used keys) (hsub : used' ⊆ used) : UsedOnce used' keys :=
  fun k hk => h k (hsub hk)

theorem usedOnce_cons {k : α} :
    UsedOnce (k :: used) keys ↔ ¬[k, k].Sublist keys ∧ UsedOnce used keys := List.forall_mem_cons

end

section
variable {κ ν : Type}

def mapKeys (entries : List (κ × ν)) : List κ := entries.map Prod.fst

/-- One entry has the key. -/
def OneEntry (k : κ) (entries : List (κ × ν)) : Prop :=
  ∃ front v back, entries = front ++ (k, v) :: back ∧ k ∉ mapKeys front ∧ k ∉ mapKeys back

/-- A key that stands somewhere stands once exactly if it does not stand twice. -/
theorem oneEntry_iff {k : κ} {entries : List (κ × ν)} (h : k ∈ mapKeys entries) :
    OneEntry k entries ↔ ¬[k, k].Sublist (mapKeys entries) := by
  constructor
  · rintro ⟨front, v, back, rfl, hfront, hback⟩ hsub
    rw [mapKeys, List.map_append, List.map_cons, List.sublist_append_iff] at hsub
    obtain ⟨s, t, hst, hs, ht⟩ := hsub
    cases s with
    | nil =>
      rw [List.nil_append] at hst
      rw [← hst, List.cons_sublist_cons] at ht
      exact hback (ht.subset List.mem_cons_self)
    | cons x s =>
      rw [← List.head_eq_of_cons_eq hst] at hs
      exact hfront (hs.subset List.mem_cons_self)
  · intro honce
    obtain ⟨a, b, hab, ha⟩ := List.eq_append_cons_of_mem h
    obtain ⟨front, tail, rfl, rfl, htail⟩ := List.map_eq_append_iff.mp hab
    obtain ⟨⟨_, v⟩, back, rfl, rfl, rfl⟩ := List.map_eq_cons_iff.mp htail
    refine ⟨front, v, back, rfl, ha, fun hback => honce ?_⟩
    rw [mapKeys, List.map_append, List.map_cons]
    exact List.sublist_append_of_sublist_right
      (List.cons_sublist_cons.mpr (List.singleton_sublist.mpr hback))

theorem nodup_labelled {ds : List (Int64 × Value)} (h : (ds.map Prod.fst).Nodup) :
    (mapKeys (labelled ds)).Nodup := by
  rw [mapKeys, labelled_keys]
  exact h.map fun _ _ heq => i64Value_inj.mp heq

end

section
variable {ε σ α β : Type} {f : σ → α → Except ε σ} {as : List α} {s s' : σ}

/-- A loop that ends well was well at every entry. -/
theorem foldlM_step (h : as.foldlM f s = .ok s') {a : α} (ha : a ∈ as) : ∃ t t', f t a = .ok t' := by
  induction as generalizing s with
  | nil => exact absurd ha List.not_mem_nil
  | cons b as ih =>
    rw [List.foldlM_cons] at h
    obtain ⟨t, ht, h⟩ := Except.bind_eq_ok.mp h
    rcases List.mem_cons.mp ha with rfl | ha
    · exact ⟨s, t, ht⟩
    · exact ih h ha

/-- What stands in a field at the end came from an entry, or was there before. -/
theorem foldlM_field {field : σ → Option β} {From : α → Prop} {b : β}
    (h : as.foldlM f s = .ok s') (hb : field s' = some b)
    (hstep : ∀ s a s', f s a = .ok s' → field s' = some b → field s = some b ∨ From a) :
    field s = some b ∨ ∃ a ∈ as, From a := by
  induction as generalizing s with
  | nil =>
    obtain rfl := Except.ok.inj h
    exact .inl hb
  | cons a as ih =>
    rw [List.foldlM_cons] at h
    obtain ⟨t, ht, h⟩ := Except.bind_eq_ok.mp h
    rcases ih h with hfield | ⟨a', ha', hfrom⟩
    · exact (hstep _ a t ht hfield).imp_right fun hfrom => ⟨a, List.mem_cons_self, hfrom⟩
    · exact .inr ⟨a', List.mem_cons_of_mem a ha', hfrom⟩

end

/-! ## A proof in CBOR

The bytes of a proof are those of several maps, one inside the bytes of another. They are named
here, together with what follows each in its byte string.
-/

/-- The maps of a proof, and what follows each of the two that have bytes of their own. -/
structure CwtProofMaps {H : Host} (p : DpopProof H) where
  header : List (Value × Value)
  headerRest : Bytes
  payload : List (Value × Value)
  payloadRest : Bytes
  actx : List (Value × Value)
  key : List (Value × Value)
  header_read : H.cbor.read cborMaxRecursionDepth p.signedBytes.headerCbor =
    .ok (.map header, headerRest)
  payload_read : H.cbor.read cborMaxRecursionDepth p.signedBytes.payloadCbor =
    .ok (.map payload, payloadRest)
  actx_mem : (i64Value cwtClaimActx, .map actx) ∈ payload
  key_mem : (i64Value coseHdrCoseKey, .map key) ∈ header

/-- The parameters of the authorization context. -/
def ActxParameters (actx parameters : List (Value × Value)) : Prop :=
  (i64Value actxParameters, .map parameters) ∈ actx

structure CwtProofMaps.Once {H : Host} {p : DpopProof H} (m : CwtProofMaps p) : Prop where
  header : UsedOnce [i64Value coseHdrAlg, i64Value coseHdrTyp, i64Value coseHdrCoseKey]
    (mapKeys m.header)
  headerRest : m.headerRest = []
  payload : UsedOnce [i64Value cwtClaimIat, i64Value cwtClaimCti, i64Value cwtClaimActx,
    i64Value cwtClaimAth, i64Value cwtClaimNonce] (mapKeys m.payload)
  payloadRest : m.payloadRest = []
  actx : UsedOnce [i64Value actxType, i64Value actxAction, i64Value actxTns, i64Value actxTn,
    i64Value actxParameters] (mapKeys m.actx)
  parameters : ∀ q, ActxParameters m.actx q → UsedOnce [.text "resource"] (mapKeys q)
  key : UsedOnce [i64Value coseKeyKty, i64Value coseKeyCrv, i64Value coseKeyX, i64Value coseKeyY,
    i64Value coseKeyN, i64Value coseKeyE] (mapKeys m.key)

/-! ## A proof in JSON

The text of an object may have a name twice, and what is parsed of it does not. To speak of
both, a document is a value whose objects list their members as they stand in the text.
-/

/-- The value of the last member of a name. -/
def Json.lastMember (members : List (String × Json)) (name : String) : Option Json :=
  members.reverse.lookup name

/-- How a text is read whose objects have these members: the last one of a name is kept. -/
inductive Json.ReadAs : Json → Json → Prop
  | scalar {v : Json} : (∀ items, v ≠ .array items) → (∀ members, v ≠ .object members) →
      Json.ReadAs v v
  | array {xs ys : List Json} (h : List.Forall₂ Json.ReadAs xs ys) :
      Json.ReadAs (.array xs) (.array ys)
  | object {ms ws : List (String × Json)}
      (h : ∀ name, Option.Rel Json.ReadAs (Json.lastMember ms name) (Json.get ws name)) :
      Json.ReadAs (.object ms) (.object ws)

/-- The JSON library and the texts it reads, with the members of an object as they stand
there: what is parsed, and what a visitor meets that gets to the end. -/
structure JsonTexts (R : JsonReader) where
  document : Bytes → Option Json
  parse : ∀ {b : Bytes} {v : Json}, R.parse b = .ok v → ∃ d, document b = some d ∧ d.ReadAs v
  keys : ∀ {b : Bytes} {ms : List (String × Json)}, document b = some (.object ms) →
    (R.topLevelKeys b).2 = .ok () → (R.topLevelKeys b).1 = mapKeys ms

/-! ### A library that keeps the last member

That is what `serde_json` does when it reads into a value, and any way to tell texts apart into
documents makes such a library. So the laws of `JsonTexts` are no more than what keeping the last
member comes to. -/

mutual
/-- What is read of a document. -/
def Json.kept : Json → Json
  | .null => .null
  | .bool b => .bool b
  | .number n => .number n
  | .large n => .large n
  | .float x => .float x
  | .string s => .string s
  | .array items => .array (keptItems items)
  | .object members => .object (keptMembers members)
def keptItems : List Json → List Json
  | [] => []
  | d :: ds => d.kept :: keptItems ds
/-- A member is dropped if a later one has its name. -/
def keptMembers : List (String × Json) → List (String × Json)
  | [] => []
  | m :: ms => if m.1 ∈ mapKeys ms then keptMembers ms else keptMember m :: keptMembers ms
def keptMember : String × Json → String × Json
  | (name, d) => (name, d.kept)
end

theorem keptMember_fst (m : String × Json) : (keptMember m).1 = m.1 := by
  cases m with
  | mk name d => rfl

theorem Json.get_cons (m : String × Json) (ms : List (String × Json)) (name : String) :
    Json.get (m :: ms) name = if name = m.1 then some m.2 else Json.get ms name := by
  rw [Json.get, List.lookup_cons]
  by_cases h : name = m.1
  · simp [h]
  · rw [beq_eq_false_iff_ne.mpr h, if_neg h]
    rfl

theorem lastMember_cons (m : String × Json) (ms : List (String × Json)) (name : String) :
    Json.lastMember (m :: ms) name =
      (Json.lastMember ms name).or (if name = m.1 then some m.2 else none) := by
  have hlast : List.lookup name [m] = if name = m.1 then some m.2 else none := Json.get_cons m [] name
  rw [Json.lastMember, List.reverse_cons, List.lookup_append, hlast]
  rfl

theorem lastMember_eq_none {ms : List (String × Json)} {name : String} :
    Json.lastMember ms name = none ↔ name ∉ mapKeys ms := by
  induction ms with
  | nil => simp [Json.lastMember, mapKeys]
  | cons m ms ih =>
    have hkeys : name ∈ mapKeys (m :: ms) ↔ name = m.1 ∨ name ∈ mapKeys ms := List.mem_cons
    rw [lastMember_cons, Option.or_eq_none_iff, ih, hkeys, not_or, and_comm]
    by_cases h : name = m.1 <;> simp [h]

mutual
theorem Json.readAs_kept : ∀ d : Json, d.ReadAs d.kept
  | .null => .scalar (by simp) (by simp)
  | .bool _ => .scalar (by simp) (by simp)
  | .number _ => .scalar (by simp) (by simp)
  | .large _ => .scalar (by simp) (by simp)
  | .float _ => .scalar (by simp) (by simp)
  | .string _ => .scalar (by simp) (by simp)
  | .array items => .array (readAs_keptItems items)
  | .object members => .object (readAs_keptMembers members)
theorem readAs_keptItems : ∀ ds : List Json, List.Forall₂ Json.ReadAs ds (keptItems ds)
  | [] => .nil
  | d :: ds => .cons d.readAs_kept (readAs_keptItems ds)
theorem readAs_keptMembers : ∀ (ms : List (String × Json)) (name : String),
    Option.Rel Json.ReadAs (Json.lastMember ms name) (Json.get (keptMembers ms) name)
  | [], _ => .none
  | m :: ms, name => by
    have hlater := readAs_keptMembers ms name
    have hhead := readAs_keptMember m
    rw [lastMember_cons, keptMembers]
    by_cases hname : name = m.1
    · subst hname
      by_cases hmem : m.1 ∈ mapKeys ms
      · -- a later member has the name, and it is the one that is kept
        rw [if_pos hmem]
        cases hlast : Json.lastMember ms m.1 with
        | none => exact absurd hmem (lastMember_eq_none.mp hlast)
        | some d =>
          rw [hlast] at hlater
          exact hlater
      · rw [if_neg hmem, lastMember_eq_none.mpr hmem, if_pos rfl]
        rw [Json.get_cons, keptMember_fst, if_pos rfl]
        exact .some hhead
    · have hor : (Json.lastMember ms name).or (if name = m.1 then some m.2 else none) =
          Json.lastMember ms name := by
        rw [if_neg hname, Option.or_none]
      rw [hor]
      split
      · exact hlater
      · rw [Json.get_cons, keptMember_fst, if_neg hname]
        exact hlater
theorem readAs_keptMember : ∀ m : String × Json, m.2.ReadAs (keptMember m).2
  | (_, d) => d.readAs_kept
end

/-- A library for texts that are told apart like this. -/
def JsonReader.keepingLast (document : Bytes → Option Json) (jwk : Json → Except String Jwk) :
    JsonReader where
  parse b :=
    match document b with
    | none => .error "expected value"
    | some d => .ok d.kept
  topLevelKeys b :=
    match document b with
    | some (.object ms) => (mapKeys ms, .ok ())
    | _ => ([], .error "invalid type")
  customError _ e := e
  jwk := jwk

/-- **Its texts.** -/
def JsonTexts.keepingLast (document : Bytes → Option Json) (jwk : Json → Except String Jwk) :
    JsonTexts (.keepingLast document jwk) where
  document := document
  parse := by
    intro b v h
    dsimp only [JsonReader.keepingLast] at h
    cases hd : document b with
    | none =>
      rw [hd] at h
      cases h
    | some d =>
      rw [hd] at h
      obtain rfl := Except.ok.inj h
      exact ⟨d, rfl, d.readAs_kept⟩
  keys := by
    intro b ms hd _
    dsimp only [JsonReader.keepingLast]
    rw [hd]

section
variable {H : Host} {R : JsonReader}

/-- The objects of a proof as they stand in its texts. -/
structure JwtProofObjects (T : JsonTexts R) (p : DpopProof H) where
  header : List (String × Json)
  payload : List (String × Json)
  actx : List (String × Json)
  header_read : T.document p.signedBytes.headerCbor = some (.object header)
  payload_read : T.document p.signedBytes.payloadCbor = some (.object payload)
  actx_mem : ("actx", .object actx) ∈ payload

/-- The inner objects: the authorization context, and the key if it is an object. -/
structure JwtProofObjects.InnerOnce {T : JsonTexts R} {p : DpopProof H}
    (o : JwtProofObjects T p) : Prop where
  actx : UsedOnce ["type", "action", "tns", "tn", "resource"] (mapKeys o.actx)
  jwk : ∀ key, ("jwk", .object key) ∈ o.header →
    UsedOnce ["kty", "crv", "x", "y", "n", "e"] (mapKeys key)

structure JwtProofObjects.Once {T : JsonTexts R} {p : DpopProof H}
    (o : JwtProofObjects T p) : Prop extends o.InnerOnce where
  header : UsedOnce ["alg", "typ", "jwk"] (mapKeys o.header)
  payload : UsedOnce ["iat", "jti", "actx", "ath", "nonce"] (mapKeys o.payload)

end

/-! ## COSE headers

Two readers take labels from a header by a search, and leave everything else unread.
-/

/-- The headers of a COSE structure: the protected one with what follows it in its byte
string, and the unprotected one. -/
structure CoseHeaders (H : Host) (b : Bytes) where
  protected_ : List (Value × Value)
  protectedRest : Bytes
  unprotected : List (Value × Value)
  read : ∃ tag header items, H.cbor.read cborMaxRecursionDepth b =
      .ok (.tag tag (.array (.bytes header :: .map unprotected :: items)), []) ∧
    H.cbor.read cborMaxRecursionDepth header = .ok (.map protected_, protectedRest)

/-- `alg` and `kid` of a signed token. Its unprotected header is not used. -/
structure CoseHeaders.SignedOnce {H : Host} {b : Bytes} (c : CoseHeaders H b) : Prop where
  header : UsedOnce [i64Value 1, i64Value 4] (mapKeys c.protected_)
  rest : c.protectedRest = []

/-- `alg` and the nonce of an encrypted one. -/
structure CoseHeaders.EncryptedOnce {H : Host} {b : Bytes} (c : CoseHeaders H b) : Prop where
  header : UsedOnce [i64Value 1] (mapKeys c.protected_)
  unprotected : UsedOnce [i64Value 5] (mapKeys c.unprotected)
  rest : c.protectedRest = []

/-! ## What the readers check

From an accepted input to its maps or objects: they exist, they are the ones that the result was
read from, and where the reader checks, each key is there once.
-/

section
variable {H : Host}

theorem mem_labelled {ds : List (Int64 × Value)} {key : Int64} {v : Value} :
    (i64Value key, v) ∈ labelled ds ↔ (key, v) ∈ ds := by
  constructor
  · intro h
    obtain ⟨⟨key', v'⟩, hmem, heq⟩ := List.mem_map.mp h
    obtain ⟨hkey, rfl⟩ := Prod.mk.inj heq
    exact i64Value_inj.mp hkey ▸ hmem
  · intro h
    exact List.mem_map_of_mem (f := fun d : Int64 × Value => (i64Value d.1, d.2)) h

/-- A map that is taken apart has each key once. -/
theorem nodup_of_intoIntKeyedMap {es : List (Value × Value)} {ds : List (Int64 × Value)}
    (h : intoIntKeyedMap es = .ok ds) : (mapKeys es).Nodup := by
  obtain ⟨rfl, hnodup⟩ := intoIntKeyedMap_eq_ok.mp h
  exact nodup_labelled hnodup

theorem nodup_of_cborToActx {es : List (Value × Value)} {actx : AuthorizationContext}
    (h : cborToActx (.map es) = .ok actx) : (mapKeys es).Nodup := by
  obtain ⟨_, hmap, h⟩ := Except.bind_eq_ok.mp h
  obtain rfl := Value.map.inj (asMap_eq_ok.mp hmap)
  obtain ⟨ds, hds, -⟩ := Except.bind_eq_ok.mp h
  exact nodup_of_intoIntKeyedMap hds

theorem nodup_of_coseKeyToJwk {es : List (Value × Value)} {jwk : Jwk}
    (h : coseKeyToJwk H (.map es) = .ok jwk) : (mapKeys es).Nodup := by
  obtain ⟨_, hmap, h⟩ := Except.bind_eq_ok.mp h
  obtain rfl := Value.map.inj (asMap_eq_ok.mp hmap)
  obtain ⟨ds, hds, -⟩ := Except.bind_eq_ok.mp h
  exact nodup_of_intoIntKeyedMap hds

theorem dpopHeaderMember_coseKey {m m' : DpopHeaderMembers} {e : Int64 × Value} {key : Value}
    (h : dpopHeaderMember m e.1 e.2 = .ok m') (hkey : m'.coseKey = some key) :
    m.coseKey = some key ∨ e = (coseHdrCoseKey, key) := by
  unfold dpopHeaderMember at h
  split at h
  · obtain ⟨_, -, h⟩ := Except.bind_eq_ok.mp h
    obtain rfl := Except.pure_eq_ok.mp h
    exact .inl hkey
  · split at h
    · obtain ⟨_, -, h⟩ := Except.bind_eq_ok.mp h
      obtain rfl := Except.pure_eq_ok.mp h
      exact .inl hkey
    · split at h
      · rename_i heq
        obtain rfl := Except.pure_eq_ok.mp h
        exact .inr (Prod.ext heq (Option.some.inj hkey))
      · obtain rfl := Except.pure_eq_ok.mp h
        exact .inl hkey

theorem dpopPayloadMember_actx {m m' : DpopPayloadMembers} {e : Int64 × Value}
    {actx : AuthorizationContext} (h : dpopPayloadMember m e.1 e.2 = .ok m')
    (hactx : m'.actx = some actx) :
    m.actx = some actx ∨ e.1 = cwtClaimActx ∧ cborToActx e.2 = .ok actx := by
  unfold dpopPayloadMember at h
  -- Only the third of the tests is for the context.
  split at h
  · obtain ⟨_, -, h⟩ := Except.bind_eq_ok.mp h
    obtain rfl := Except.pure_eq_ok.mp h
    exact .inl hactx
  split at h
  · obtain ⟨_, -, h⟩ := Except.bind_eq_ok.mp h
    obtain rfl := Except.pure_eq_ok.mp h
    exact .inl hactx
  split at h
  · rename_i heq
    obtain ⟨actx', hread, h⟩ := Except.bind_eq_ok.mp h
    obtain rfl := Except.pure_eq_ok.mp h
    exact .inr ⟨heq, Option.some.inj hactx ▸ hread⟩
  split at h
  · obtain ⟨_, -, h⟩ := Except.bind_eq_ok.mp h
    obtain rfl := Except.pure_eq_ok.mp h
    exact .inl hactx
  split at h
  · obtain ⟨_, -, h⟩ := Except.bind_eq_ok.mp h
    obtain rfl := Except.pure_eq_ok.mp h
    exact .inl hactx
  · obtain rfl := Except.pure_eq_ok.mp h
    exact .inl hactx

theorem cborToActx_of_member {m m' : DpopPayloadMembers} {v : Value}
    (h : dpopPayloadMember m cwtClaimActx v = .ok m') : ∃ actx, cborToActx v = .ok actx := by
  have hactx : dpopPayloadMember m cwtClaimActx v =
      (cborToActx v >>= fun actx => pure { m with actx := some actx }) := rfl
  rw [hactx] at h
  obtain ⟨actx, hread, -⟩ := Except.bind_eq_ok.mp h
  exact ⟨actx, hread⟩

/-- The key in a header that is read is the one member with its label. -/
theorem coseKeyToJwk_of_member {ds : List (Int64 × Value)} {m : DpopHeaderMembers}
    {key key' : Value} (hnodup : (ds.map Prod.fst).Nodup)
    (hm : ds.foldlM (fun m e => dpopHeaderMember m e.1 e.2) {} = .ok m)
    (hkey : m.coseKey = some key) (hmem : (coseHdrCoseKey, key') ∈ ds) : key' = key := by
  rcases foldlM_field hm hkey (fun _ _ _ => dpopHeaderMember_coseKey) with hnone | ⟨e, he, rfl⟩
  · cases hnone
  · exact (Prod.mk.inj (List.inj_on_of_nodup_map hnodup hmem he rfl)).2

/-- **The maps of a proof in CBOR have each key once**, and nothing follows them. -/
theorem decodeCwtProof_nodup {b : Bytes} {p : DpopProof H} (h : decodeCwtProof H b = .ok p)
    (m : CwtProofMaps p) :
    (mapKeys m.header).Nodup ∧ m.headerRest = [] ∧ (mapKeys m.payload).Nodup ∧
      m.payloadRest = [] ∧ (mapKeys m.actx).Nodup ∧ (mapKeys m.key).Nodup := by
  obtain ⟨-, -, hheader, hpayload, -⟩ := decodeCwtProof_eq_ok.mp h
  obtain ⟨hs, hm, key, hread, hnodup, hfold, -, -, hkey, hjwk⟩ := decodeDpopHeader_eq_ok.mp hheader
  obtain ⟨ps, pm, hread', hnodup', hfold', -⟩ := decodeDpopPayload_eq_ok.mp hpayload
  obtain ⟨hhmap, hhrest⟩ := Prod.mk.inj (Except.ok.inj (m.header_read.symm.trans hread))
  obtain ⟨hpmap, hprest⟩ := Prod.mk.inj (Except.ok.inj (m.payload_read.symm.trans hread'))
  have hhmap := Value.map.inj hhmap
  have hpmap := Value.map.inj hpmap
  refine ⟨hhmap ▸ nodup_labelled hnodup, hhrest, hpmap ▸ nodup_labelled hnodup', hprest, ?_, ?_⟩
  · have hmem := mem_labelled.mp (hpmap ▸ m.actx_mem)
    obtain ⟨_, _, hstep⟩ := foldlM_step hfold' hmem
    obtain ⟨actx, hactx⟩ := cborToActx_of_member hstep
    exact nodup_of_cborToActx hactx
  · have hmem := mem_labelled.mp (hhmap ▸ m.key_mem)
    obtain rfl := coseKeyToJwk_of_member hnodup hfold hkey hmem
    exact nodup_of_coseKeyToJwk hjwk

/-- A proof that is read has these maps. -/
theorem decodeCwtProof_maps {b : Bytes} {p : DpopProof H} (h : decodeCwtProof H b = .ok p) :
    Nonempty (CwtProofMaps p) := by
  obtain ⟨-, -, hheader, hpayload, -⟩ := decodeCwtProof_eq_ok.mp h
  obtain ⟨hs, hm, key, hread, -, hfold, -, -, hkey, hjwk⟩ := decodeDpopHeader_eq_ok.mp hheader
  obtain ⟨ps, pm, hread', -, hfold', -, hactx, -⟩ := decodeDpopPayload_eq_ok.mp hpayload
  have hkeymem : (coseHdrCoseKey, key) ∈ hs := by
    rcases foldlM_field hfold hkey (fun _ _ _ => dpopHeaderMember_coseKey) with hnone | ⟨e, he, rfl⟩
    · cases hnone
    · exact he
  have hactxmem : ∃ v, (cwtClaimActx, v) ∈ ps ∧ cborToActx v = .ok p.payload.actx := by
    rcases foldlM_field hfold' hactx (fun _ _ _ => dpopPayloadMember_actx) with
      hnone | ⟨⟨_, v⟩, he, rfl, hv⟩
    · cases hnone
    · exact ⟨v, he, hv⟩
  obtain ⟨v, hv, hvread⟩ := hactxmem
  obtain ⟨actx, hactxmap, -⟩ := Except.bind_eq_ok.mp hvread
  obtain rfl := asMap_eq_ok.mp hactxmap
  obtain ⟨keymap, hkeymap, -⟩ := Except.bind_eq_ok.mp hjwk
  obtain rfl := asMap_eq_ok.mp hkeymap
  exact ⟨_, [], _, [], actx, keymap, hread, hread', mem_labelled.mpr hv, mem_labelled.mpr hkeymem⟩

theorem Json.ReadAs.object_inv {d : Json} {ws : List (String × Json)}
    (h : d.ReadAs (.object ws)) : ∃ ms, d = .object ms ∧
      ∀ name, Option.Rel Json.ReadAs (Json.lastMember ms name) (Json.get ws name) := by
  cases h with
  | scalar _ hobject => exact absurd rfl (hobject ws)
  | object h => exact ⟨_, rfl, h⟩

theorem mem_of_lastMember {ms : List (String × Json)} {name : String} {v : Json}
    (h : Json.lastMember ms name = some v) : (name, v) ∈ ms := by
  obtain ⟨l, r, heq, -⟩ := List.lookup_eq_some_iff.mp h
  rw [← List.mem_reverse, heq]
  exact List.mem_append_right l List.mem_cons_self

section
variable {R : JsonReader} (T : JsonTexts R)

/-- An object that is read stands in the text, each of its keys once. -/
theorem JsonTexts.object {b : Bytes} {ws : List (String × Json)}
    (h : readJsonObject R b = .ok ws) : ∃ ms, T.document b = some (.object ms) ∧
      (mapKeys ms).Nodup ∧
      ∀ name, Option.Rel Json.ReadAs (Json.lastMember ms name) (Json.get ws name) := by
  obtain ⟨hparse, hnodup, hdone⟩ := readJsonObject_eq_ok.mp h
  obtain ⟨d, hd, hread⟩ := T.parse hparse
  obtain ⟨ms, rfl, hmembers⟩ := hread.object_inv
  exact ⟨ms, hd, T.keys hd hdone ▸ hnodup, hmembers⟩

/-- **The outer objects of a proof in JSON have each key once.** -/
theorem decodeJwtProof_nodup {b : Bytes} {p : DpopProof H} (h : decodeJwtProof H R b = .ok p)
    (o : JwtProofObjects T p) : (mapKeys o.header).Nodup ∧ (mapKeys o.payload).Nodup := by
  obtain ⟨-, -, hheader, hpayload, -⟩ := decodeJwtProof_eq_ok.mp h
  have honce : ∀ {b ws ms}, readJsonObject R b = .ok ws → T.document b = some (.object ms) →
      (mapKeys ms).Nodup := by
    intro b ws ms hread hdoc
    obtain ⟨ms', hdoc', hnodup, -⟩ := T.object hread
    obtain rfl := Json.object.inj (Option.some.inj (hdoc.symm.trans hdoc'))
    exact hnodup
  obtain ⟨_, hread, -⟩ := Except.bind_eq_ok.mp hheader
  obtain ⟨_, hread', -⟩ := Except.bind_eq_ok.mp hpayload
  exact ⟨honce hread o.header_read, honce hread' o.payload_read⟩

/-- A proof that is read has these objects. -/
theorem decodeJwtProof_objects {b : Bytes} {p : DpopProof H}
    (h : decodeJwtProof H R b = .ok p) : Nonempty (JwtProofObjects T p) := by
  obtain ⟨-, -, hheader, hpayload, -⟩ := decodeJwtProof_eq_ok.mp h
  obtain ⟨_, hread, -⟩ := Except.bind_eq_ok.mp hheader
  obtain ⟨ws, hread', h⟩ := Except.bind_eq_ok.mp hpayload
  obtain ⟨header, hdoc, -⟩ := T.object hread
  obtain ⟨payload, hdoc', -, hmembers⟩ := T.object hread'
  obtain ⟨iat, -, h⟩ := Except.bind_eq_ok.mp h
  obtain ⟨cti, -, h⟩ := Except.bind_eq_ok.mp h
  obtain ⟨v, hv, h⟩ := Except.bind_eq_ok.mp h
  obtain ⟨actx, hactx, -⟩ := Except.bind_eq_ok.mp h
  -- What is read as an object is one in the text.
  have hobject : ∃ ws', v = .object ws' := by
    unfold actxFromJson at hactx
    cases v with
    | object ws' => exact ⟨ws', rfl⟩
    | _ => cases hactx
  obtain ⟨ws', rfl⟩ := hobject
  have hrel := hmembers "actx"
  rw [orMissing_eq_ok.mp hv] at hrel
  cases hlast : Json.lastMember payload "actx" with
  | none =>
    rw [hlast] at hrel
    cases hrel
  | some d =>
    rw [hlast] at hrel
    cases hrel with
    | some hrel =>
      obtain ⟨ms, rfl, -⟩ := hrel.object_inv
      exact ⟨header, payload, ms, hdoc, hdoc', mem_of_lastMember hlast⟩

end

/-! ## COSE headers, as they are checked

The readers of headers check some labels and not others, so the statement is one for each label.
-/

theorem headerEntry_alg_cases {alg alg' : Option Int64} {kid kid' : Option Bytes} {k v : Value}
    (h : headerEntry alg kid k v = .ok (alg', kid')) :
    k = i64Value 1 ∧ alg = none ∧ alg'.isSome = true ∨ k ≠ i64Value 1 ∧ alg' = alg := by
  unfold headerEntry at h
  cases k with
  | integer i =>
    dsimp only at h
    split at h
    · cases h
    · rename_i n hn
      have hi : Value.integer i = i64Value n := by
        rw [i64Value, Value.integer.injEq]
        exact Integer.ext (Integer.toI64?_eq_some.mp hn)
      rw [hi]
      split at h
      · rename_i hone
        subst hone
        split at h
        · cases h
        · rename_i hnone
          refine .inl ⟨rfl, by simpa using hnone, ?_⟩
          split at h
          · split at h
            · rw [← (Prod.mk.inj (Except.ok.inj h)).1]
              rfl
            · cases h
          · cases h
      · rename_i hne
        refine .inr ⟨fun heq => hne (i64Value_inj.mp heq), ?_⟩
        split at h
        · split at h
          · exact (Prod.mk.inj (Except.ok.inj h)).1.symm
          · exact (Prod.mk.inj (Except.ok.inj h)).1.symm
          · exact (Prod.mk.inj (Except.ok.inj h)).1.symm
        · exact (Prod.mk.inj (Except.ok.inj h)).1.symm
  | _ =>
    refine .inr ⟨fun heq => ?_, (Prod.mk.inj (Except.ok.inj h)).1.symm⟩
    cases heq

/-- The algorithm stands once, and not at all where there is one already. -/
theorem headerEntries_alg_once {es : List (Value × Value)} {r : Option Int64 × Option Bytes} :
    ∀ {alg : Option Int64} {kid : Option Bytes}, headerEntries alg kid es = .ok r →
      (alg.isSome = true → i64Value 1 ∉ mapKeys es) ∧
        ¬[i64Value 1, i64Value 1].Sublist (mapKeys es) := by
  induction es with
  | nil => exact fun _ => ⟨fun _ => List.not_mem_nil, fun h => absurd h (by simp [mapKeys])⟩
  | cons e es ih =>
    intro alg kid h
    unfold headerEntries at h
    split at h
    · cases h
    · rename_i alg' kid' hentry
      obtain ⟨hsome, honce⟩ := ih h
      rw [mapKeys, List.map_cons]
      rcases headerEntry_alg_cases hentry with ⟨hkey, hnone, halg⟩ | ⟨hkey, heq⟩
      · refine ⟨fun hs => absurd hs (by rw [hnone]; decide), fun hsub => ?_⟩
        rw [hkey, List.cons_sublist_cons, List.singleton_sublist] at hsub
        exact hsome halg hsub
      · refine ⟨fun hs hmem => ?_, fun hsub => ?_⟩
        · exact (List.mem_cons.mp hmem).elim (fun h => hkey h.symm) (hsome (heq ▸ hs))
        · rw [List.sublist_cons_iff] at hsub
          rcases hsub with hsub | ⟨r, hr, -⟩
          · exact honce hsub
          · exact hkey (List.head_eq_of_cons_eq hr).symm

/-- An envelope that is parsed has headers, and the protected one is read entry by entry. -/
theorem parseCoseEnvelope_headers {b : Bytes} {e : ParsedCoseEnvelope}
    (h : parseCoseEnvelope H b = .ok e) :
    ∃ (c : CoseHeaders H b) (r : Option Int64 × Option Bytes),
      headerEntries none none c.protected_ = .ok r := by
  unfold parseCoseEnvelope at h
  split at h
  · cases h
  split at h
  · cases h
  rename_i value rest hread
  split at h
  · cases h
  rename_i hrest
  have hrest : rest = [] := by simpa using hrest
  split at h
  · split at h
    · cases h
    rename_i tag headerCbor unprotected payloadCbor signature _
    obtain ⟨info, hinfo, -⟩ := Except.map_eq_ok.mp h
    unfold extractHeaderInfo at hinfo
    split at hinfo
    · cases hinfo
    · rename_i m rest' hheader
      split at hinfo
      · cases hinfo
      · cases hinfo
      · rename_i alg kid hentries
        exact ⟨⟨m, rest', unprotected, tag, headerCbor, _, hrest ▸ hread, hheader⟩, _, hentries⟩
    · cases hinfo
  · cases h

theorem lastLabelled_mem {α : Type} {label : Int64} {take : Value → Except CatError (Option α)}
    {es : List (Value × Value)} {a : α} : ∀ {found : Option α},
      lastLabelled label take found es = .ok (some a) →
        found = some a ∨ i64Value label ∈ mapKeys es := by
  induction es with
  | nil => exact fun h => .inl (Except.ok.inj h)
  | cons e es ih =>
    obtain ⟨k, v⟩ := e
    intro found h
    have hlater : ∀ {found'}, lastLabelled label take found' es = .ok (some a) →
        found' = some a ∨ i64Value label ∈ mapKeys ((k, v) :: es) := fun h =>
      (ih h).imp_right (List.mem_cons_of_mem _)
    cases k with
    | integer i =>
      unfold lastLabelled at h
      split at h
      · cases h
      · rename_i n hn
        split at h
        · rename_i hlabel
          have hi : Value.integer i = i64Value label := by
            rw [i64Value, Value.integer.injEq, ← hlabel]
            exact Integer.ext (Integer.toI64?_eq_some.mp hn)
          rw [hi]
          exact .inr List.mem_cons_self
        · exact hlater h
    | _ => exact hlater h

theorem someOr_eq_ok {α : Type} {e : CatError} {o : Option α} {a : α} :
    someOr e o = .ok a ↔ o = some a := by
  cases o <;> simp [someOr]

/-- An envelope that is decrypted has headers with an algorithm and a nonce. -/
theorem coseDecrypt0_headers {G : AesGcm} {b key m : Bytes} {cap : Nat}
    (h : coseDecrypt0WithMaxPlaintext H G b key cap = .ok m) :
    ∃ c : CoseHeaders H b,
      i64Value 1 ∈ mapKeys c.protected_ ∧ i64Value 5 ∈ mapKeys c.unprotected := by
  unfold coseDecrypt0WithMaxPlaintext at h
  split at h
  · cases h
  split at h
  · cases h
  rename_i value rest hread
  split at h
  · cases h
  rename_i hrest
  have hrest : rest = [] := by simpa using hrest
  split at h
  · split at h
    · cases h
    rename_i tag headerProtected unprotected ciphertext _
    obtain ⟨nonce, hnonce, h⟩ := Except.bind_eq_ok.mp h
    obtain ⟨found, hfound, hsome⟩ := Except.bind_eq_ok.mp hnonce
    obtain rfl := someOr_eq_ok.mp hsome
    have hmem := (lastLabelled_mem hfound).resolve_left (by simp)
    split at h
    · obtain ⟨-, h⟩ := Except.guard_eq_ok.mp h
      obtain ⟨algId, halg, -⟩ := Except.bind_eq_ok.mp h
      unfold encryptionAlgId at halg
      split at halg
      · cases halg
      · rename_i es rest' hheader
        obtain ⟨found, hfound, hsome⟩ := Except.bind_eq_ok.mp halg
        obtain rfl := someOr_eq_ok.mp hsome
        have halgmem := (lastLabelled_mem hfound).resolve_left (by simp)
        exact ⟨⟨es, rest', unprotected, tag, headerProtected, _, hrest ▸ hread, hheader⟩,
          halgmem, hmem⟩
      · cases halg
    · cases h
  · cases h

/-- The bytes have one pair of headers. -/
theorem CoseHeaders.unique {b : Bytes} (c c' : CoseHeaders H b) : c = c' := by
  obtain ⟨es, rest, us, tag, header, items, hread, hheader⟩ := c
  obtain ⟨es', rest', us', tag', header', items', hread', hheader'⟩ := c'
  have hvalue := (Prod.mk.inj (Except.ok.inj (hread.symm.trans hread'))).1
  obtain ⟨-, harray⟩ := Value.tag.inj hvalue
  obtain ⟨hbytes, htail⟩ := List.cons_eq_cons.mp (Value.array.inj harray)
  obtain rfl := Value.map.inj (List.head_eq_of_cons_eq htail)
  obtain rfl := Value.bytes.inj hbytes
  obtain ⟨hmap, rfl⟩ := Prod.mk.inj (Except.ok.inj (hheader.symm.trans hheader'))
  obtain rfl := Value.map.inj hmap
  rfl

theorem CwtProofMaps.once_iff {b : Bytes} {p : DpopProof H} (h : decodeCwtProof H b = .ok p)
    (m : CwtProofMaps p) :
    m.Once ↔ ∀ q, ActxParameters m.actx q → UsedOnce [.text "resource"] (mapKeys q) := by
  obtain ⟨hheader, hrest, hpayload, hrest', hactx, hkey⟩ := decodeCwtProof_nodup h m
  constructor
  · intro honce
    exact honce.parameters
  · intro hparameters
    exact ⟨.of_nodup hheader, hrest, .of_nodup hpayload, hrest', .of_nodup hactx, hparameters,
      .of_nodup hkey⟩

theorem JwtProofObjects.once_iff {R : JsonReader} {T : JsonTexts R} {b : Bytes} {p : DpopProof H}
    (h : decodeJwtProof H R b = .ok p) (o : JwtProofObjects T p) : o.Once ↔ o.InnerOnce := by
  obtain ⟨hheader, hpayload⟩ := decodeJwtProof_nodup T h o
  constructor
  · intro honce
    exact honce.toInnerOnce
  · intro hinner
    exact ⟨hinner, .of_nodup hheader, .of_nodup hpayload⟩

theorem CoseHeaders.signedOnce_iff {b : Bytes} {e : ParsedCoseEnvelope}
    (h : parseCoseEnvelope H b = .ok e) (c : CoseHeaders H b) :
    c.SignedOnce ↔ UsedOnce [i64Value 4] (mapKeys c.protected_) ∧ c.protectedRest = [] := by
  obtain ⟨c', r, hentries⟩ := parseCoseEnvelope_headers h
  obtain rfl := c.unique c'
  obtain ⟨-, halg⟩ := headerEntries_alg_once hentries
  constructor
  · intro honce
    exact ⟨(usedOnce_cons.mp honce.header).2, honce.rest⟩
  · rintro ⟨hkid, hrest⟩
    exact ⟨usedOnce_cons.mpr ⟨halg, hkid⟩, hrest⟩

theorem CoseHeaders.encryptedOnce_iff {G : AesGcm} {b key m : Bytes} {cap : Nat}
    (h : coseDecrypt0WithMaxPlaintext H G b key cap = .ok m) (c : CoseHeaders H b) :
    c.EncryptedOnce ↔ OneEntry (i64Value 1) c.protected_ ∧ OneEntry (i64Value 5) c.unprotected ∧
      c.protectedRest = [] := by
  obtain ⟨c', halg, hnonce⟩ := coseDecrypt0_headers h
  obtain rfl := c.unique c'
  rw [oneEntry_iff halg, oneEntry_iff hnonce]
  have hone : ∀ {k : Value} {keys}, UsedOnce [k] keys ↔ ¬[k, k].Sublist keys := fun {k keys} =>
    List.forall_mem_singleton
  constructor
  · intro honce
    exact ⟨hone.mp honce.header, hone.mp honce.unprotected, honce.rest⟩
  · rintro ⟨hheader, hunprotected, hrest⟩
    exact ⟨hone.mpr hheader, hone.mpr hunprotected, hrest⟩

/-- **What each reader leaves to its input**: the parameters of a proof in CBOR, the inner
objects of one in JSON, the key identifier of a signed token with what follows its header,
and all of the headers of an encrypted one.

The readers were written by hand one after the other, and each treats a second copy of a key in its
own way: it refuses it, takes the first, or takes the last. Where a reader does not look, the
condition is on what it is given. The members of a JSON text are those that stand in it, before the
library has kept one of each name. -/
theorem readers_keysOnce_iff {R : JsonReader} (T : JsonTexts R) (G : AesGcm) :
    (∀ b p, decodeCwtProof H b = .ok p → Nonempty (CwtProofMaps p) ∧ ∀ m : CwtProofMaps p,
      (m.Once ↔ ∀ q, ActxParameters m.actx q → UsedOnce [.text "resource"] (mapKeys q))) ∧
    (∀ b (p : DpopProof H), decodeJwtProof H R b = .ok p → Nonempty (JwtProofObjects T p) ∧
      ∀ o : JwtProofObjects T p, (o.Once ↔ o.InnerOnce)) ∧
    (∀ b e, parseCoseEnvelope H b = .ok e → Nonempty (CoseHeaders H b) ∧ ∀ c : CoseHeaders H b,
      (c.SignedOnce ↔ UsedOnce [i64Value 4] (mapKeys c.protected_) ∧ c.protectedRest = [])) ∧
    (∀ b key cap m, coseDecrypt0WithMaxPlaintext H G b key cap = .ok m →
      Nonempty (CoseHeaders H b) ∧ ∀ c : CoseHeaders H b,
        (c.EncryptedOnce ↔ OneEntry (i64Value 1) c.protected_ ∧
          OneEntry (i64Value 5) c.unprotected ∧ c.protectedRest = [])) := by
  refine ⟨fun b p h => ⟨decodeCwtProof_maps h, CwtProofMaps.once_iff h⟩,
    fun b p h => ⟨decodeJwtProof_objects T h, JwtProofObjects.once_iff h⟩,
    fun b e h => ⟨?_, CoseHeaders.signedOnce_iff h⟩,
    fun b key cap m h => ⟨?_, CoseHeaders.encryptedOnce_iff h⟩⟩
  · obtain ⟨c, -⟩ := parseCoseEnvelope_headers h
    exact ⟨c⟩
  · obtain ⟨c, -⟩ := coseDecrypt0_headers h
    exact ⟨c⟩

end

/-! ### Two proofs in JSON -/

/-- The payload of the proof for a setup, with two resources. -/
def twoResourcesBytes : Bytes := utf8
  "\x7b\"actx\":\x7b\"action\":\"SETUP\",\"resource\":\"a\",\"resource\":\"b\",\"tns\":\"\",\"type\":\"moqt\"\x7d,\"iat\":100\x7d"

def setupActx (resources : List String) : List (String × Json) :=
  [("action", .string "SETUP")] ++ resources.map (fun r => ("resource", .string r)) ++
    [("tns", .string ""), ("type", .string "moqt")]

/-- The texts of the proof for a setup and the other payload, member by member. -/
def setupDocument (b : Bytes) : Option Json :=
  if b = setupHeaderBytes then some (.object [("alg", .string "ES256"), ("jwk", .object
    [("crv", .string "P-256"), ("kty", .string "EC"), ("x", .string ""), ("y", .string "")]),
    ("typ", .string dpopTypJwt)])
  else if b = setupPayloadBytes then
    some (.object [("actx", .object (setupActx [])), ("iat", .number 100)])
  else if b = twoResourcesBytes then
    some (.object [("actx", .object (setupActx ["a", "b"])), ("iat", .number 100)])
  else none

def setupKeepingLast : JsonReader := .keepingLast setupDocument setupReader.jwk

def setupTexts : JsonTexts setupKeepingLast := .keepingLast setupDocument setupReader.jwk

/-- A proof in these texts, as it is read, for a setup and perhaps a resource. -/
def setupRead (payloadBytes : Bytes) (resource : Option String) : DpopProof .reference where
  header := ⟨algEs256, dpopTypJwt,
    { kty := "EC", crv := some "P-256", x := some "", y := some "" }⟩
  payload := ⟨none, 100, ⟨"moqt", .clientSetup, [], [], resource⟩, none, none⟩
  signature := []
  signedBytes := ⟨setupHeaderBytes, payloadBytes⟩
  wireFormat := .jwt
  jktCache := none
  jktCache_eq := DpopHeader.empty_cache

/-- Its compact form. -/
def setupCompact (payloadBytes : Bytes) : Bytes :=
  codes (compactText .reference ⟨setupHeaderBytes, payloadBytes⟩ [])

/-- The objects of a proof in these texts are those of its documents. -/
theorem setupObjects_eq {payloadBytes : Bytes} {resource : Option String} {resources : List String}
    (hpayload : setupDocument payloadBytes =
      some (.object [("actx", .object (setupActx resources)), ("iat", .number 100)]))
    (o : JwtProofObjects setupTexts (setupRead payloadBytes resource)) :
    o.actx = setupActx resources ∧ ∀ key, ("jwk", .object key) ∈ o.header →
      mapKeys key = ["crv", "kty", "x", "y"] := by
  obtain ⟨header, payload, actx, hhread, hpread, hactx⟩ := o
  have hhdoc : setupDocument setupHeaderBytes = some (.object header) := hhread
  have hpdoc : setupDocument payloadBytes = some (.object payload) := hpread
  rw [setupDocument, if_pos rfl] at hhdoc
  obtain rfl := Json.object.inj (Option.some.inj hhdoc)
  obtain rfl := Json.object.inj (Option.some.inj (hpayload.symm.trans hpdoc))
  constructor
  · simpa using hactx
  · intro key hkey
    have hkey' : key = [("crv", .string "P-256"), ("kty", .string "EC"), ("x", .string ""),
        ("y", .string "")] := by
      simpa using hkey
    rw [hkey']
    rfl

theorem length_setupCompact (payloadBytes : Bytes) : (setupCompact payloadBytes).length =
    (Base64.encode setupHeaderBytes).length + (Base64.encode payloadBytes).length + 2 := by
  have hbase64 : ∀ b, (Host.reference.base64Encode b).toList = Base64.encode b := fun b =>
    String.toList_ofList
  rw [setupCompact, codes, List.length_map, compactText_eq, hbase64, hbase64, hbase64]
  simp only [List.length_append, List.length_cons, Base64.encode, List.length_nil]
  omega

theorem decode_setupCompact {payloadBytes : Bytes} {resource : Option String}
    (hlen : (Base64.encode setupHeaderBytes).length + (Base64.encode payloadBytes).length + 2 ≤
      maxDpopWireSize)
    (hpayload : decodePayloadJson .reference setupKeepingLast payloadBytes =
      .ok ⟨none, 100, ⟨"moqt", .clientSetup, [], [], resource⟩, none, none⟩) :
    decodeJwtProof .reference setupKeepingLast (setupCompact payloadBytes) =
      .ok (setupRead payloadBytes resource) := by
  have hb : Base64Lawful .reference := base64Lawful_of_reference (fun _ => rfl) fun _ => rfl
  have hheader : decodeHeaderJson setupKeepingLast setupHeaderBytes =
      .ok ⟨algEs256, dpopTypJwt,
        { kty := "EC", crv := some "P-256", x := some "", y := some "" }⟩ := by decide +kernel
  rw [← length_setupCompact] at hlen
  exact decodeJwtProof_compact (p := setupRead payloadBytes resource) hb hlen hheader hpayload
    rfl rfl

/-- Two proofs that are read: one with each key once, and one in which the second resource shadows
    the first. -/
theorem readers_keysOnce_iff_setupTexts :
    (decodeJwtProof .reference setupKeepingLast (setupCompact setupPayloadBytes) =
        .ok (setupRead setupPayloadBytes none) ∧
      ∀ o : JwtProofObjects setupTexts (setupRead setupPayloadBytes none), o.Once) ∧
    decodeJwtProof .reference setupKeepingLast (setupCompact twoResourcesBytes) =
        .ok (setupRead twoResourcesBytes (some "b")) ∧
      ∀ o : JwtProofObjects setupTexts (setupRead twoResourcesBytes (some "b")), ¬o.Once := by
  have honce : decodeJwtProof .reference setupKeepingLast (setupCompact setupPayloadBytes) =
      .ok (setupRead setupPayloadBytes none) :=
    decode_setupCompact (by decide +kernel) (by decide +kernel)
  have htwice : decodeJwtProof .reference setupKeepingLast (setupCompact twoResourcesBytes) =
      .ok (setupRead twoResourcesBytes (some "b")) :=
    decode_setupCompact (by decide +kernel) (by decide +kernel)
  have hiff := (readers_keysOnce_iff (H := .reference) setupTexts zeroGcm).2.1
  have hplain := (hiff (setupCompact setupPayloadBytes) (setupRead setupPayloadBytes none) honce).2
  have htwo := (hiff (setupCompact twoResourcesBytes) (setupRead twoResourcesBytes (some "b"))
    htwice).2
  refine ⟨⟨honce, fun o => (hplain o).mpr ?_⟩, htwice, fun o h => ?_⟩
  · have hdoc : setupDocument setupPayloadBytes =
        some (.object [("actx", .object (setupActx [])), ("iat", .number 100)]) := rfl
    obtain ⟨hactx, hjwk⟩ := setupObjects_eq hdoc o
    constructor
    · rw [hactx]
      exact .of_nodup (by decide)
    · intro key hkey
      rw [hjwk key hkey]
      exact .of_nodup (by decide)
  · have hinner := (htwo o).mp h
    have hdoc : setupDocument twoResourcesBytes =
        some (.object [("actx", .object (setupActx ["a", "b"])), ("iat", .number 100)]) := rfl
    obtain ⟨hactx, -⟩ := setupObjects_eq hdoc o
    have hkeys : mapKeys o.actx = ["action", "resource", "resource", "tns", "type"] := by
      rw [hactx]
      rfl
    refine hinner.actx "resource" (by simp) ?_
    rw [hkeys]
    exact .cons _ (.cons_cons _ (.cons_cons _ (List.nil_sublist _)))

/-- An envelope whose protected header names two keys. -/
def twoKids : Bytes :=
  [0xd2, 0x84, 0x49, 0xa3, 0x01, 0x26, 0x04, 0x41, 0x01, 0x04, 0x41, 0x02, 0xa0, 0x41, 0xa0, 0x40]

/-- It is parsed, and the second name is the one that counts. -/
theorem parseCoseEnvelope_shadowed :
    (∃ e, parseCoseEnvelope .reference twoKids = .ok e ∧ e.headerKid = some [2]) ∧
      ∃ c : CoseHeaders .reference twoKids, ¬c.SignedOnce := by
  have hread : Host.reference.cbor.read cborMaxRecursionDepth twoKids =
      .ok (.tag 18 (.array [.bytes [0xa3, 0x01, 0x26, 0x04, 0x41, 0x01, 0x04, 0x41, 0x02],
        .map [], .bytes [0xa0], .bytes []]), []) := by
    rfl
  have hheader : Host.reference.cbor.read cborMaxRecursionDepth
      [0xa3, 0x01, 0x26, 0x04, 0x41, 0x01, 0x04, 0x41, 0x02] =
        .ok (.map [(i64Value 1, i64Value (-7)), (i64Value 4, .bytes [1]),
          (i64Value 4, .bytes [2])], []) := by
    rfl
  have hparse : parseCoseEnvelope .reference twoKids = .ok
      ⟨18, [0xa3, 0x01, 0x26, 0x04, 0x41, 0x01, 0x04, 0x41, 0x02], [0xa0], [], -7, some [2]⟩ := by
    decide +kernel
  refine ⟨⟨_, hparse, rfl⟩, ⟨_, _, _, 18, _, _, hread, hheader⟩, fun h => ?_⟩
  refine h.header (i64Value 4) (by simp) ?_
  exact List.sublist_cons_of_sublist _ (List.Sublist.refl _)

end Cat
