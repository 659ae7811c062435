import Cat.Cwt.DecodeSpec
import Cat.Cwt.PeekSpec
import Cat.Token.Decoder

/-!
# Which issuer a key was chosen for

A resolver selects the verification key by the peeked issuer, and the rest of the system trusts
the decoded one. Both parsers read the same bytes; here they are compared. Where no wide key is
in the way of the scan (`PeekNarrow`) a peeked issuer is the decoded issuer
(`peekIssuer_decoded`), so the key that verified is one held for the token's issuer.

With a wide key in the way the two differ: the cursor reads the key's argument twice, and lands
inside the value.

What is at stake is that the issuer who signed is the issuer who is believed. An issuer whose
key is in the ring can write any payload, and if the peek finds its name where the decoder finds
another one, its signature vouches for a token of that other issuer. The payload at the end does
that in eleven bytes. Nothing but the two parsers is to blame, so the condition is on the
payload alone.
-/

set_option autoImplicit false

namespace Cat

open Cbor

/-- No unsigned key of the payload's map that the cursor reads is wider than its initial
    byte. The cursor reads at most 128 keys, and none after the issuer's or after an entry
    that it cannot step over. -/
def PeekNarrow (b : Bytes) : Prop :=
  ∀ a es, (Item.map a es).WF → b = (Item.map a es).wire →
    ScanNarrow (min a.val peekMaxMapEntries) es

/-! ## The two parsers -/

theorem Scan.issuer_entry {s : String} : ∀ {n : Nat} {es : List (Item × Item)},
    Scan n es (some s) → ∃ a k, (.uint a, .text k) ∈ es ∧ a.val = 1 ∧ k.data = utf8 s
  | 0, _, h => absurd h (by simp [Scan])
  | _ + 1, [], h => absurd h (by simp [Scan])
  | n + 1, (k, v) :: es, h => by
    rw [Scan] at h
    split at h
    · rename_i hiss
      obtain ⟨c, s', rfl, hs, heq⟩ := h
      obtain rfl := Option.some.inj heq
      cases k with
      | uint a => exact ⟨a, c, List.mem_cons_self, hiss, hs⟩
      | _ => exact absurd hiss (by simp [IssKey])
    · obtain ⟨a, k', hmem, ha, hs⟩ := Scan.issuer_entry h.2
      exact ⟨a, k', List.mem_cons_of_mem _ hmem, ha, hs⟩

theorem mem_valueEntries {xs : List (Item × Item)} : ∀ {es : List (Value × Value)} {k v : Item},
    Item.valueEntries xs = some es → (k, v) ∈ xs →
      ∃ kv vv, k.value = some kv ∧ v.value = some vv ∧ (kv, vv) ∈ es := by
  induction xs with
  | nil => intro es k v _ hmem; simp at hmem
  | cons x xs ih =>
    intro es k v h hmem
    simp only [Item.valueEntries, Option.bind_eq_some_iff, Option.map_eq_some_iff] at h
    obtain ⟨kv, hkv, vv, hvv, es', hes', rfl⟩ := h
    rcases List.mem_cons.mp hmem with rfl | hmem
    · exact ⟨kv, vv, hkv, hvv, List.mem_cons_self⟩
    · obtain ⟨kv', vv', hk, hv, hin⟩ := ih hes' hmem
      exact ⟨kv', vv', hk, hv, List.mem_cons_of_mem _ hin⟩

section
variable {H : Host} {limits : CwtLimits} {composite : CompositeDecoder}

/-- **The peeked issuer is the decoded issuer**, where the scan meets no wide key. -/
theorem peekIssuer_decoded {b : Bytes} {es : List (Value × Value)} {ds : List DecodedClaim}
    {t : CatToken} (h : DecodesTo H limits composite b es ds t) (hn : PeekNarrow b) {s : String}
    (hp : peekIssuer b = .ok (some s)) : t.core.iss = some s := by
  obtain ⟨x, hx, hval, rfl⟩ := h.item
  have hlen := h.length_lt
  by_cases hmap : ∃ a xs, x = .map a xs
  · obtain ⟨a, xs, rfl⟩ := hmap
    obtain ⟨k, c, hmem, hk, hc⟩ :=
      ((peekIssuer_map hx hlen (hn a xs hx rfl) _).mp hp).issuer_entry
    obtain ⟨es', hes', heq⟩ := Option.map_eq_some_iff.mp hval
    obtain rfl := Value.map.inj heq
    obtain ⟨kv, vv, hkv, hvv, hin⟩ := mem_valueEntries hes' hmem
    obtain rfl : i64Value claimIss = kv := by
      refine Option.some.inj (Eq.trans ?_ hkv)
      simp only [Item.value, hk]
      rfl
    obtain rfl : .text s = vv := by
      refine Option.some.inj (Eq.trans ?_ hvv)
      rw [Item.value, ofUtf8?_eq_some.mpr hc, Option.map_some]
    exact h.iss_eq hin
  · exact absurd hp (peekIssuer_other hlen fun a xs hxs => hmap ⟨a, xs, hxs⟩)

/-! ## The key that verified -/

/-- `key` verified the envelope's signature. -/
def ParsedCoseEnvelope.VerifiedBy (H : Host) (e : ParsedCoseEnvelope)
    (key : CryptographicAlgorithm) : Prop :=
  ∃ input, e.signingInput H key.algorithmId = .ok input ∧ key.verify input e.signature = .ok ()

/-- What `decode_signed` has done when it returns. -/
theorem decodeSigned_eq_ok {d : Decoder} {b : Bytes} {v : VerifiedToken}
    (h : d.decodeSigned H b = .ok v) :
    ∃ e key, parseCoseEnvelope H b = .ok e ∧ d.selectAlgorithm e b = .ok key ∧
      e.headerAlg = key.algorithmId ∧ e.VerifiedBy H key ∧
      decodePayloadWithLimits H d.limits e.payloadCbor = .ok v.token := by
  unfold Decoder.decodeSigned at h
  obtain ⟨e, he, h⟩ := Except.bind_eq_ok.mp h
  obtain ⟨key, hkey, h⟩ := Except.bind_eq_ok.mp h
  unfold verifyAndDecode at h
  obtain ⟨-, h⟩ := Except.guard_eq_ok.mp h
  obtain ⟨halg, h⟩ := Except.guard_eq_ok.mp h
  obtain ⟨input, hinput, h⟩ := Except.bind_eq_ok.mp h
  obtain ⟨_, hverify, h⟩ := Except.bind_eq_ok.mp h
  obtain ⟨t, ht, h⟩ := Except.bind_eq_ok.mp h
  obtain rfl := Except.pure_eq_ok.mp h
  exact ⟨e, key, he, hkey, not_not.mp halg, ⟨input, hinput, hverify⟩, ht⟩

theorem selectAlgorithm_resolver {d : Decoder} {resolve : KeyResolver}
    (hd : d.key = .resolver resolve) {e : ParsedCoseEnvelope} {b : Bytes}
    {key : CryptographicAlgorithm} (h : d.selectAlgorithm e b = .ok key) :
    ∃ iss, peekIssuer e.payloadCbor = .ok iss ∧
      resolve ⟨e.headerAlg, e.headerKid, iss⟩ = .ok key := by
  unfold Decoder.selectAlgorithm at h
  rw [hd] at h
  dsimp only at h
  split at h
  · obtain ⟨_, -, h⟩ := Except.bind_eq_ok.mp h
    exact Except.bind_eq_ok.mp h
  · exact Except.bind_eq_ok.mp h

end

/-- The resolver configurations that hold their keys for issuers. -/
inductive TrustAnchor where
  | ring (r : KeyRingResolver)
  | pinned (r : SingleKeyResolver) (issuer : String) (h : r.requiredIssuer = some issuer)

namespace TrustAnchor

def resolve (H : Host) : TrustAnchor → KeyResolver
  | .ring r => r.resolve H
  | .pinned r _ _ => r.resolve

/-- `key` is held for this issuer, `kid` and algorithm. -/
def Holds (issuer : String) (kid : Option Bytes) (algorithmId : Int64)
    (key : CryptographicAlgorithm) : TrustAnchor → Prop
  | .ring r => ∃ k, kid = some k ∧ r.Holds issuer k algorithmId key
  | .pinned r iss _ => issuer = iss ∧ key = r.algorithm ∧ algorithmId = key.algorithmId ∧
      ∀ k ∈ r.requiredKid, kid = some k

theorem resolve_eq_ok {H : Host} {a : TrustAnchor} {hint : KeyHint}
    {key : CryptographicAlgorithm} (h : a.resolve H hint = .ok key) :
    ∃ issuer, hint.issuer = some issuer ∧ a.Holds issuer hint.kid hint.algorithmId key := by
  cases a with
  | ring r =>
    obtain ⟨issuer, kid, hiss, hkid, hholds⟩ := KeyRingResolver.resolve_eq_ok h
    exact ⟨issuer, hiss, kid, hkid, hholds⟩
  | pinned r issuer hpin =>
    obtain ⟨hkey, halg, hiss, hkid⟩ := SingleKeyResolver.resolve_eq_ok h
    exact ⟨issuer, hiss issuer hpin, rfl, hkey, halg, hkid⟩

end TrustAnchor

/-- Of an accepted token, the key that verified it is held for its issuer. -/
def KeyBoundToIssuer (H : Host) (a : TrustAnchor) (d : Decoder) (b : Bytes) : Prop :=
  ∀ v e, d.decodeSigned H b = .ok v → parseCoseEnvelope H b = .ok e →
    ∃ key issuer, d.selectAlgorithm e b = .ok key ∧ e.VerifiedBy H key ∧
      v.claims.core.iss = some issuer ∧ a.Holds issuer e.headerKid e.headerAlg key

/-- **Issuer binding**, for payloads the cursor stays aligned on.

The key is chosen before anything is verified, by an issuer that a cursor finds in the raw payload;
the decoder reads the issuer once more, behind the signature. The two readings agree as long as the
cursor steps over whole entries. Behind a key whose value is not in its initial byte it does not:
the argument of such a key is read to compare it and then skipped a second time, so the cursor
stands inside the value, and a value can spell an issuer. -/
theorem decodeSigned_keyBoundToIssuer {H : Host} {a : TrustAnchor} {d : Decoder} {b : Bytes}
    (hd : d.key = .resolver (a.resolve H))
    (hn : ∀ e, parseCoseEnvelope H b = .ok e → PeekNarrow e.payloadCbor) :
    KeyBoundToIssuer H a d b := by
  intro v e hv he
  obtain ⟨e', key, he', hkey, -, hverified, hdec⟩ := decodeSigned_eq_ok hv
  obtain rfl : e' = e := Except.ok.inj (he'.symm.trans he)
  obtain ⟨peeked, hpeek, hres⟩ := selectAlgorithm_resolver hd hkey
  obtain ⟨issuer, rfl, hholds⟩ := TrustAnchor.resolve_eq_ok hres
  obtain ⟨es, ds, hdecodes⟩ := decodePayloadWithLimits_ok hdec
  exact ⟨key, issuer, hkey, hverified, peekIssuer_decoded hdecodes (hn e' he) hpeek, hholds⟩

/-! ### A key for one issuer, a token of another -/

/-- An algorithm that accepts one signature. -/
def sampleAlgorithm (signature : Bytes) : CryptographicAlgorithm where
  algorithmId := algEs256
  sign _ := .ok signature
  verify _ s := if s = signature then .ok () else .error .signatureVerificationFailed

/-- A ring with a key for issuer `A` only. -/
def ringOfA : KeyRingResolver := KeyRingResolver.new.addKey "A" [0x6b] (sampleAlgorithm [1])

/-- A `COSE_Sign1` envelope with `alg` ES256, `kid` `k` and the signature `1`. -/
def sampleEnvelope (payload : Bytes) : Bytes :=
  [0xd2, 0x84, 0x46, 0xa2, 0x01, 0x26, 0x04, 0x41, 0x6b, 0xa0, 0x40 + UInt8.ofNat payload.length] ++
    payload ++ [0x41, 0x01]

/-- `{1: "A"}`. -/
def payloadOfA : Bytes := [0xa1, 0x01, 0x61, 0x41]

/-- `{0: h'00016141', 1: "B"}` with label 0 written in two bytes. The cursor reads its
    argument twice, is one byte ahead from there on, and finds `1: "A"` inside the string. -/
def payloadOfB : Bytes := [0xa2, 0x18, 0x00, 0x44, 0x00, 0x01, 0x61, 0x41, 0x01, 0x61, 0x42]

theorem decodeSigned_keyBoundToIssuer_payloadOfA :
    (((Decoder.withResolver (ringOfA.resolve .reference)).decodeSigned .reference
      (sampleEnvelope payloadOfA)).map (·.claims.core.iss) = .ok (some "A")) ∧
    KeyBoundToIssuer .reference (.ring ringOfA) (.withResolver (ringOfA.resolve .reference))
      (sampleEnvelope payloadOfA) := by
  refine ⟨by decide +kernel, decodeSigned_keyBoundToIssuer rfl fun e he => ?_⟩
  have hpayload : e.payloadCbor = payloadOfA := by
    have : (parseCoseEnvelope .reference (sampleEnvelope payloadOfA)).map (·.payloadCbor) =
        .ok payloadOfA := by decide +kernel
    rw [he] at this
    exact Except.ok.inj this
  intro a es hwf hb
  let x : Item := .map (.imm 1) [(.uint (.imm 1), .text ⟨.imm 1, [0x41], rfl⟩)]
  have hx : x.WF := by simp [x, Item.WF, Item.WFEntries, Arg.val]
  have hwire : (Item.map a es).wire ++ [] = x.wire ++ [] := by rw [← hb, hpayload]; rfl
  obtain ⟨heq, -⟩ := Item.wire_inj hwf hx hwire
  obtain ⟨rfl, rfl⟩ := Item.map.inj heq
  exact .inl rfl

theorem decodeSigned_not_keyBoundToIssuer :
    ¬∀ (H : Host) (a : TrustAnchor) (d : Decoder) (b : Bytes),
      d.key = .resolver (a.resolve H) → KeyBoundToIssuer H a d b := by
  intro h
  let d := Decoder.withResolver (ringOfA.resolve .reference)
  have hiss : (d.decodeSigned .reference (sampleEnvelope payloadOfB)).map (·.claims.core.iss) =
      .ok (some "B") := by decide +kernel
  obtain ⟨v, hv, hB⟩ := Except.map_eq_ok.mp hiss
  obtain ⟨e, key, he, -⟩ := decodeSigned_eq_ok hv
  obtain ⟨key', issuer, -, -, hissuer, kid, -, hholds⟩ :=
    h .reference (.ring ringOfA) d (sampleEnvelope payloadOfB) rfl v e hv he
  obtain rfl : "B" = issuer := Option.some.inj (hB.symm.trans hissuer)
  -- the only triple of the ring is one of `A`
  have hring : ringOfA.keys.map (·.1.issuer) = ["A"] := by decide +kernel
  have := List.mem_map_of_mem (f := (·.1.issuer)) hholds
  rw [hring] at this
  simp at this

end Cat
