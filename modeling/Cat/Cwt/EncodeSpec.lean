import Cat.Cwt.Encode
import Cat.Cwt.DecodeSpec
import Mathlib.Data.Finset.Card
import Mathlib.Order.Interval.Finset.Basic
import Mathlib.Data.Int.Interval

/-!
# What an encoded payload is made of

`encodePayload_ok`: an encoded payload is one written map, sorted by label, whose entries are
what the encoders of the token's claims yield and the token's custom claims. The custom claims
cannot displace another claim, since their labels are not reserved — composite labels apart.

Read back, the map's values are those that were written (`DecodesTo.of_written`), so what a payload
decodes to can be told from the token.

This is the counterpart of `DecodeSpec`. Both are inversions: from a call that returned they get
the map, and the functions are not unfolded again. What is asked of the CBOR codec is that it
reads what it has written, with tags folded, so a value comes back as its `readBack` and not as
itself; for the values of the profile the two are the same, and for custom claims they need not
be.
-/

set_option autoImplicit false

namespace Cat

open Cbor

/-! ## The sorted map

`BTreeMap` by its insertions. The map is in order whatever is inserted, and holds the last value
of each label.
-/

section
variable {α : Type}

/-- Ascending labels. -/
def LabelSorted (m : List (Int64 × α)) : Prop := m.Pairwise fun a b => a.1.toInt < b.1.toInt

theorem mem_btreeInsert {m : List (Int64 × α)} (hm : LabelSorted m) {k : Int64} {v : α}
    {e : Int64 × α} : e ∈ btreeInsert k v m ↔ e = (k, v) ∨ e.1 ≠ k ∧ e ∈ m := by
  induction m with
  | nil => simp [btreeInsert]
  | cons x m ih =>
    obtain ⟨k', v'⟩ := x
    obtain ⟨hhead, htail⟩ := List.pairwise_cons.mp hm
    have hgt : ∀ e ∈ m, k'.toInt < e.1.toInt := hhead
    unfold btreeInsert
    split
    · -- the label comes first, so no entry has it
      rename_i hlt
      have hne : ∀ e ∈ (k', v') :: m, e.1 ≠ k := by
        rintro e he rfl
        rcases List.mem_cons.mp he with rfl | he
        · exact Int.lt_irrefl _ hlt
        · exact absurd (hgt e he) (by omega)
      rw [List.mem_cons]
      constructor
      · rintro (rfl | he)
        · exact .inl rfl
        · exact .inr ⟨hne e he, he⟩
      · rintro (rfl | ⟨-, he⟩)
        · exact .inl rfl
        · exact .inr he
    · split
      · rename_i _ heq
        subst heq
        have hne : ∀ e ∈ m, e.1 ≠ k := by
          rintro e he rfl
          exact Int.lt_irrefl _ (hgt e he)
        simp only [List.mem_cons]
        constructor
        · rintro (rfl | he)
          · exact .inl rfl
          · exact .inr ⟨hne e he, .inr he⟩
        · rintro (rfl | ⟨hk, rfl | he⟩)
          · exact .inl rfl
          · exact absurd rfl hk
          · exact .inr he
      · rename_i _ hne
        rw [List.mem_cons, ih htail, List.mem_cons]
        constructor
        · rintro (rfl | rfl | ⟨hk, he⟩)
          · exact .inr ⟨Ne.symm hne, .inl rfl⟩
          · exact .inl rfl
          · exact .inr ⟨hk, .inr he⟩
        · rintro (rfl | ⟨hk, rfl | he⟩)
          · exact .inr (.inl rfl)
          · exact .inl rfl
          · exact .inr (.inr ⟨hk, he⟩)

theorem LabelSorted.btreeInsert {m : List (Int64 × α)} (hm : LabelSorted m) (k : Int64) (v : α) :
    LabelSorted (btreeInsert k v m) := by
  induction m with
  | nil => simp [Cat.btreeInsert, LabelSorted]
  | cons x m ih =>
    obtain ⟨k', v'⟩ := x
    obtain ⟨hhead, htail⟩ := List.pairwise_cons.mp hm
    unfold Cat.btreeInsert
    split
    · rename_i hlt
      refine List.pairwise_cons.mpr ⟨fun e he => ?_, hm⟩
      rcases List.mem_cons.mp he with rfl | he
      · exact hlt
      · exact Int.lt_trans hlt (hhead e he)
    · split
      · rename_i _ heq
        subst heq
        exact List.pairwise_cons.mpr ⟨hhead, htail⟩
      · rename_i hge hne
        have hlt : k'.toInt < k.toInt := by
          have : k'.toInt ≠ k.toInt := fun h => hne (Int64.toInt_inj.mp h).symm
          omega
        refine List.pairwise_cons.mpr ⟨fun e he => ?_, ih htail⟩
        rcases (mem_btreeInsert htail).mp he with rfl | ⟨-, he⟩
        · exact hlt
        · exact hhead e he

theorem LabelSorted.btreeInsertAll {m : List (Int64 × α)} (hm : LabelSorted m)
    (es : List (Int64 × α)) : LabelSorted (btreeInsertAll m es) := by
  induction es generalizing m with
  | nil => exact hm
  | cons e es ih => exact ih (hm.btreeInsert e.1 e.2)

/-- Inserting distinct labels: they are all there, and what was under other labels stays. -/
theorem mem_btreeInsertAll {m : List (Int64 × α)} (hm : LabelSorted m) {es : List (Int64 × α)}
    (hes : (es.map Prod.fst).Nodup) {e : Int64 × α} :
    e ∈ btreeInsertAll m es ↔ e ∈ es ∨ e.1 ∉ es.map Prod.fst ∧ e ∈ m := by
  induction es generalizing m with
  | nil => simp [btreeInsertAll]
  | cons x es ih =>
    obtain ⟨hx, hes⟩ := List.nodup_cons.mp hes
    show e ∈ btreeInsertAll (btreeInsert x.1 x.2 m) es ↔ _
    rw [ih (hm.btreeInsert x.1 x.2) hes, mem_btreeInsert hm, List.map_cons, List.mem_cons,
      List.mem_cons, not_or]
    constructor
    · rintro (he | ⟨hne, rfl | ⟨hk, he⟩⟩)
      · exact .inl (.inr he)
      · exact .inl (.inl rfl)
      · exact .inr ⟨⟨hk, hne⟩, he⟩
    · rintro ((rfl | he) | ⟨⟨hk, hne⟩, he⟩)
      · exact .inr ⟨hx, .inl rfl⟩
      · exact .inl he
      · exact .inr ⟨hne, .inr ⟨hk, he⟩⟩

end

/-! ## The claims of a token

Every label has one encoder, so the question what is under a label has one answer, and it does
not depend on where the encoder stands in the table.
-/

theorem insertions_ok {t : CatToken} {encs : List (Int64 × (CatToken → Encoded))} :
    ∀ {es : List (Int64 × Value)}, insertions t encs = .ok es →
      List.Sublist (es.map Prod.fst) (encs.map Prod.fst) ∧
        ∀ k v, (k, v) ∈ es ↔ ∃ enc, (k, enc) ∈ encs ∧ enc t = .ok (some v) := by
  induction encs with
  | nil =>
    intro es h
    obtain rfl := Except.ok.inj h
    simp
  | cons x encs ih =>
    obtain ⟨label, enc⟩ := x
    intro es h
    obtain ⟨r, hr, h⟩ := Except.bind_eq_ok.mp h
    cases r with
    | none =>
      obtain ⟨hsub, hmem⟩ := ih h
      refine ⟨hsub.cons label, fun k v => ?_⟩
      rw [hmem]
      constructor
      · rintro ⟨enc', he, hv⟩
        exact ⟨enc', List.mem_cons_of_mem _ he, hv⟩
      · rintro ⟨enc', he, hv⟩
        rcases List.mem_cons.mp he with heq | he
        · cases heq
          exact absurd (hr.symm.trans hv) (by simp)
        · exact ⟨enc', he, hv⟩
    | some v₀ =>
      obtain ⟨es', hes', h⟩ := Except.bind_eq_ok.mp h
      obtain rfl := Except.pure_eq_ok.mp h
      obtain ⟨hsub, hmem⟩ := ih hes'
      refine ⟨hsub.cons_cons label, fun k v => ?_⟩
      rw [List.mem_cons, hmem]
      constructor
      · rintro (heq | ⟨enc', he, hv⟩)
        · cases heq
          exact ⟨enc, List.mem_cons_self, hr⟩
        · exact ⟨enc', List.mem_cons_of_mem _ he, hv⟩
      · rintro ⟨enc', he, hv⟩
        rcases List.mem_cons.mp he with heq | he
        · cases heq
          cases hr.symm.trans hv
          exact .inl rfl
        · exact .inr ⟨enc', he, hv⟩

/-- The labels of the table, in its order. No two are the same. -/
def claimLabels : List Int64 :=
  [claimIss, claimAud, claimExp, claimNbf, claimCti, claimCatreplay, claimCatpor, claimCatv,
    claimCatnip, claimCatu, claimCatm, claimCatalpn, claimCath, claimCatgeoiso3166,
    claimCatgeocoord, claimGeohash, claimCatgeoalt, claimCattpk, claimSub, claimIat,
    claimCatifdata, claimCnf, claimCatdpop, claimCatif, claimCatr, claimMoqt, claimMoqtReval,
    claimOr, claimNor, claimAnd]

theorem claimEncoders_labels (c : CompositeValues) : (claimEncoders c).map Prod.fst = claimLabels :=
  rfl

theorem claimEncoders_nodup (c : CompositeValues) : ((claimEncoders c).map Prod.fst).Nodup := by
  rw [claimEncoders_labels]; decide

/-- A label has one encoder. -/
theorem claimEncoders_unique {c : CompositeValues} {k : Int64} {e e' : CatToken → Encoded}
    (h : (k, e) ∈ claimEncoders c) (h' : (k, e') ∈ claimEncoders c) : e = e' :=
  (Prod.ext_iff.mp (List.inj_on_of_nodup_map (claimEncoders_nodup c) h h' rfl)).2

/-- No custom claim has a reserved label. -/
theorem reserved_not_custom {t : CatToken} {id : Int64} (h : isReservedClaimId id = true) :
    id ∉ t.custom.entries.map Prod.fst := by
  intro hc
  obtain ⟨e, he, rfl⟩ := List.mem_map.mp hc
  exact absurd (h.symm.trans (t.custom.unreserved e he)) (by simp)

/-- **The claim map of a token**: its custom claims, and under every label no custom claim
    has, what the label's encoder yields. -/
theorem claimsMap_ok {c : CompositeValues} {t : CatToken} {m : List (Int64 × Value)}
    (h : claimsMap c t = .ok m) :
    LabelSorted m ∧ ∀ k v, (k, v) ∈ m ↔ (k, v) ∈ t.custom.entries ∨
      k ∉ t.custom.entries.map Prod.fst ∧
        ∃ enc, (k, enc) ∈ claimEncoders c ∧ enc t = .ok (some v) := by
  obtain ⟨es, hes, h⟩ := Except.bind_eq_ok.mp h
  obtain rfl := Except.pure_eq_ok.mp h
  obtain ⟨hsub, hmem⟩ := insertions_ok hes
  have hnil : LabelSorted ([] : List (Int64 × Value)) := List.Pairwise.nil
  have hsorted := hnil.btreeInsertAll es
  refine ⟨hsorted.btreeInsertAll _, fun k v => ?_⟩
  rw [mem_btreeInsertAll hsorted t.custom.nodup,
    mem_btreeInsertAll hnil (hsub.nodup (claimEncoders_nodup c)), hmem]
  simp

section
variable (H : Host)

def compositeValues (c : CompositeClaims) : CompositeValues :=
  ⟨encodeCompositeClaim? H c.orClaim, encodeCompositeClaim? H c.norClaim,
    encodeCompositeClaim? H c.andClaim⟩

theorem encodePayload_eq (t : CatToken) :
    encodePayload H t = encodePayloadWith H (compositeValues H t.composite) t := by
  obtain ⟨core, cat, informational, dpop, request, ⟨orC, norC, andC⟩, moqt, custom⟩ := t
  rw [encodePayload]
  rfl

end

variable {H : Host}

theorem writeCbor_eq_ok {v : Value} {b : Bytes} :
    writeCbor H v = .ok b ↔ H.cbor.write v = .ok b := by
  unfold writeCbor
  cases H.cbor.write v <;> simp

theorem encodePayload_ok {t : CatToken} {b : Bytes} (h : encodePayload H t = .ok b) :
    ∃ m, claimsMap (compositeValues H t.composite) t = .ok m ∧
      H.cbor.write (claimsValue m) = .ok b := by
  rw [encodePayload_eq] at h
  obtain ⟨m, hm, h⟩ := Except.bind_eq_ok.mp h
  exact ⟨m, hm, writeCbor_eq_ok.mp (Failure.lift_eq_ok.mp h)⟩

/-- Decoding what was encoded: entry by entry, in the same order. -/
theorem DecodesTo.of_written {limits : CwtLimits} {composite : CompositeDecoder} {b : Bytes}
    {es : List (Value × Value)} {ds : List DecodedClaim} {t : CatToken}
    (h : DecodesTo H limits composite b es ds t) {m : List (Int64 × Value)}
    (hw : H.cbor.write (claimsValue m) = .ok b) :
    es = m.map (fun e => (i64Value e.1, e.2.readBack)) ∧
      ds.map DecodedClaim.label = m.map Prod.fst := by
  have hes : es = m.map (fun e => (i64Value e.1, e.2.readBack)) := by
    have heq := (H.cbor.read_of_write hw h.read_eq).1
    rw [claimsValue, Value.readBack, Value.map.injEq, Value.readBackEntries_eq, List.map_map] at heq
    exact heq
  refine ⟨hes, ?_⟩
  have hkeys := entryDecodes_keys h.entries
  have hinj : Function.Injective i64Value := fun a b => i64Value_inj.mp
  refine List.map_injective_iff.mpr hinj (Eq.trans hkeys.symm ?_)
  rw [hes, List.map_map, List.map_map]
  rfl

theorem height_textArray (ss : List String) : (textArray ss).height ≤ 1 := by
  refine Value.height_array ?_
  rw [List.forall_mem_map]
  exact fun _ _ => Nat.zero_le _

end Cat
