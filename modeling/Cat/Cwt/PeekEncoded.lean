import Cat.Cwt.EncodeSpec
import Cat.Cwt.PeekSpec
import Mathlib.Data.Finset.Card
import Mathlib.Order.Interval.Finset.Basic

/-!
# Peeking at what was encoded

Whether the peek finds the issuer of a payload this crate wrote. The map is sorted by label and
the labels are in preferred form, so with an issuer present only a custom claim under label 0
comes before it, and the scan is over before any label above 23. Without one the scan covers the
whole map, and a label above 23 throws it off.

The skips have a depth limit, the decoder's ordering check does not descend into map keys, and a
custom claim may hold any value: what is stepped over must not be too high.

The two cases are therefore very different. A token with an issuer is peeked correctly unless a
custom claim under label 0 is in the way. A token without one is told to have none only if all
of its labels are small, and nearly every claim of the profile has a label above 300. In the
second case the scan does not run into an error as a rule: it goes on at a wrong position, and
finds what the bytes there happen to say. The condition is on the token, and is computed from
its labels and the height of one value.
-/

set_option autoImplicit false

namespace Cat

open Cbor

/-! ## Scans over entries

The scan as a walk over entries, without their bytes.
-/

section
variable {n : Nat} {es xs : List (Item × Item)}

/-- A scan that meets the issuer after entries with other narrow keys. -/
theorem scan_issuer {k : Item} {c : Chunk} {s : String} (hk : IssKey k) (hc : c.data = utf8 s)
    (hxs : ∀ e ∈ xs, ¬IssKey e.1 ∧ NarrowKey e.1) (hn : xs.length < n) :
    ScanNarrow n (xs ++ (k, .text c) :: es) ∧
      (Scan n (xs ++ (k, .text c) :: es) (some s) ↔ ∀ e ∈ xs, EntryFits e) := by
  induction xs generalizing n with
  | nil =>
    obtain ⟨n, rfl⟩ := Nat.exists_eq_succ_of_ne_zero (Nat.ne_of_gt hn)
    refine ⟨.inl hk, ?_⟩
    rw [List.nil_append, Scan, if_pos hk]
    simp [hc]
  | cons e xs ih =>
    obtain ⟨n, rfl⟩ := Nat.exists_eq_succ_of_ne_zero (Nat.ne_of_gt (Nat.zero_lt_of_lt hn))
    obtain ⟨hne, hnarrow⟩ := hxs e (by simp)
    obtain ⟨ih1, ih2⟩ := ih (fun e he => hxs e (by simp [he])) (Nat.lt_of_succ_lt_succ hn)
    refine ⟨.inr ⟨hnarrow, fun _ => ih1⟩, ?_⟩
    rw [List.cons_append, Scan, if_neg hne, ih2]
    simp

/-- A scan over entries with narrow keys, none of them the issuer's. -/
theorem scan_none (hes : ∀ e ∈ es, ¬IssKey e.1 ∧ NarrowKey e.1) (hn : es.length ≤ n) :
    ScanNarrow n es ∧ (Scan n es none ↔ ∀ e ∈ es, EntryFits e) := by
  induction es generalizing n with
  | nil => cases n <;> simp [ScanNarrow, Scan]
  | cons e es ih =>
    obtain ⟨n, rfl⟩ := Nat.exists_eq_succ_of_ne_zero (Nat.ne_of_gt (Nat.zero_lt_of_lt hn))
    obtain ⟨hne, hnarrow⟩ := hes e (by simp)
    obtain ⟨ih1, ih2⟩ := ih (fun e he => hes e (by simp [he])) (Nat.le_of_succ_le_succ hn)
    refine ⟨.inr ⟨hnarrow, fun _ => ih1⟩, ?_⟩
    rw [Scan, if_neg hne, ih2]
    simp

end

/-! ## Written maps

Which labels come before the issuer's, and in how many bytes they are written. Sorted labels
leave little room in front of 1.
-/

/-- A written label is narrow up to 23, is the issuer's when it is 1, and never stands in
    the way of a skip. -/
theorem writtenAs_label {k : Int64} {x : Item} (h : (i64Value k).WrittenAs x) :
    (IssKey x ↔ k = claimIss) ∧ (k.toInt ≤ 23 → NarrowKey x) ∧
      PeekCursor.Fits peekMaxDepth (peekMaxDepth + 1) x := by
  have hiss : k = claimIss ↔ k.toInt = 1 := by
    rw [← Int64.toInt_inj]; rfl
  have hlt := k.toInt_lt
  obtain rfl : x = if 0 ≤ k.toInt then .uint (.ofNat k.toInt.toNat)
      else .nint (.ofNat (-1 - k.toInt).toNat) := h
  rw [hiss]
  split
  · rename_i hk
    refine ⟨?_, fun hle => ?_, trivial⟩
    · rw [IssKey, Arg.val_ofNat (by omega)]; omega
    · have hsmall : k.toInt.toNat < 24 := by omega
      rw [NarrowKey, Arg.ofNat, dif_pos hsmall]
      exact hsmall
  · rename_i hk
    exact ⟨⟨False.elim, fun h => absurd h (by omega)⟩, fun _ => trivial, trivial⟩

/-- A map entry under a label, written. -/
def WrittenEntry (e : Int64 × Value) (x : Item × Item) : Prop :=
  (i64Value e.1).WrittenAs x.1 ∧ e.2.WrittenAs x.2

theorem WrittenEntry.fits_iff {e : Int64 × Value} {x : Item × Item} (h : WrittenEntry e x) :
    EntryFits x ↔ e.2.height ≤ peekMaxDepth := by
  rw [EntryFits, and_iff_right (writtenAs_label h.1).2.2, h.2.height]

theorem writtenAs_claimsValue {m : List (Int64 × Value)} {x : Item}
    (h : (claimsValue m).WrittenAs x) :
    ∃ xs, x = .map (.ofNat xs.length) xs ∧ xs.length < 2 ^ 64 ∧ List.Forall₂ WrittenEntry m xs := by
  obtain ⟨xs, rfl, hlen, hxs⟩ := h
  have hall : List.Forall₂ WrittenEntry m xs := by
    clear hlen
    induction m generalizing xs with
    | nil => obtain rfl : xs = [] := hxs; exact .nil
    | cons e m ih =>
      obtain ⟨y, z, ys, rfl, hy, hz, hys⟩ := hxs
      exact .cons ⟨hy, hz⟩ (ih ys hys)
  rw [List.length_map, hall.length_eq] at hlen
  refine ⟨xs, ?_, hlen, hall⟩
  rw [List.length_map, hall.length_eq]

theorem forall_fits_iff {m : List (Int64 × Value)} {xs : List (Item × Item)}
    (h : List.Forall₂ WrittenEntry m xs) :
    (∀ x ∈ xs, EntryFits x) ↔ ∀ e ∈ m, e.2.height ≤ peekMaxDepth := by
  induction h with
  | nil => simp
  | cons he _ ih => simp only [List.mem_cons, forall_eq_or_imp, ih, he.fits_iff]

theorem LabelSorted.length_le {α : Type} {m : List (Int64 × α)} (hm : LabelSorted m)
    (lo hi : Int) (h : ∀ e ∈ m, lo ≤ e.1.toInt ∧ e.1.toInt ≤ hi) :
    m.length ≤ (hi + 1 - lo).toNat := by
  have hnd : (m.map fun e => e.1.toInt).Nodup :=
    List.pairwise_map.mpr (hm.imp fun hlt heq => by omega)
  have hsub : (m.map fun e => e.1.toInt).toFinset ⊆ Finset.Icc lo hi := by
    intro n hn
    obtain ⟨e, he, rfl⟩ := List.mem_map.mp (List.mem_toFinset.mp hn)
    exact Finset.mem_Icc.mpr (h e he)
  have := Finset.card_le_card hsub
  rwa [List.toFinset_card_of_nodup hnd, List.length_map, Int.card_Icc] at this

/-- A sorted map that is in deterministic order has no negative label before another one. -/
theorem nonneg_of_ordered {α : Type} {m : List (Int64 × α)} (hm : LabelSorted m)
    (ho : (m.map Prod.fst).Pairwise fun a b => labelRank a < labelRank b)
    {m₁ m₂ : List (Int64 × α)} {a : Int64 × α} (h : m = m₁ ++ a :: m₂) :
    ∀ e ∈ m₁, 0 ≤ e.1.toInt := by
  subst h
  intro e he
  have hlt := (List.pairwise_append.mp hm).2.2 e he a (by simp)
  have hrank := (List.pairwise_append.mp (List.pairwise_map.mp ho)).2.2 e he a (by simp)
  have := a.1.toInt_lt
  unfold labelRank at hrank
  by_contra hneg
  split at hrank
  · omega
  · split at hrank <;> omega

/-! ## Encoded tokens

What is encoded under a small label besides the issuer: the other registered claims, and custom
claims.
-/

/-- No claim that is encoded under a label above 23. -/
structure NarrowLabels (t : CatToken) : Prop where
  cat : t.cat = {}
  catifdata : t.informational.catifdata = none
  catdpop : ∀ s ∈ t.dpop.catdpop, s = .new
  request : t.request = {}
  composite : t.composite = .default
  moqt : t.moqt = {}
  custom : ∀ e ∈ t.custom.entries, e.1.toInt ≤ 23

/-- The custom claims that the scan steps over — all of them without an issuer, the one under
    label 0 with one — are no higher than it can step over. -/
def PeekFits (t : CatToken) : Prop :=
  ∀ e ∈ t.custom.entries, (t.core.iss.isSome → e.1 = 0) → e.2.height ≤ peekMaxDepth

theorem whenSome_eq_some {α : Type} {x : Option α} {f : α → Except Failure Value} {v : Value}
    (h : whenSome x f = .ok (some v)) : ∃ a, x = some a ∧ f a = .ok v := by
  cases x with
  | none => cases h
  | some a =>
    obtain ⟨w, hw, heq⟩ := Except.map_eq_ok.mp h
    exact ⟨a, rfl, by rw [hw, Option.some.inj heq]⟩

theorem height_cnfMap (c : ConfirmationClaim) : (Value.map (cnfMap c)).height ≤ 1 := by
  unfold cnfMap
  cases c.ckt <;> cases c.jkt.isEmpty <;>
    simp [Value.height, Value.heightEntries, i64Value]

/-- Nothing is encoded under a label above 23, and nothing high. -/
def Small (k : Int64) (r : Encoded) : Prop :=
  ∀ v, r = .ok (some v) → k.toInt ≤ 23 ∧ v.height ≤ peekMaxDepth

theorem Small.absent {k : Int64} {α : Type} {x : Option α} {f : α → Except Failure Value}
    (hx : x = none) : Small k (whenSome x f) := by
  subst hx
  intro v h
  cases h

theorem Small.whenSome {k : Int64} {α : Type} {x : Option α} {f : α → Except Failure Value}
    (hk : k.toInt ≤ 23) (hf : ∀ a v, f a = .ok v → v.height ≤ peekMaxDepth) :
    Small k (whenSome x f) := by
  intro v h
  obtain ⟨a, -, ha⟩ := whenSome_eq_some h
  exact ⟨hk, hf a v ha⟩

/-- What a token without wide labels encodes besides its custom claims is small. -/
theorem small_claimEncoders {H : Host} {t : CatToken} (hn : NarrowLabels t) :
    ∀ p ∈ claimEncoders (compositeValues H t.composite), Small p.1 (p.2 t) := by
  have flat {α : Type} {f : α → Value} (hf : ∀ a, (f a).height = 0) (a : α) (v : Value)
      (h : (Except.ok (f a) : Except Failure Value) = .ok v) : v.height ≤ peekMaxDepth := by
    rw [← Except.ok.inj h, hf]; decide
  have hcat {α : Type} (get : CatClaims → Option α) (h : get {} = none) : get t.cat = none := by
    rw [hn.cat, h]
  have hcnf : Small claimCnf (encodeCnf t) := by
    intro v h
    refine ⟨by decide, ?_⟩
    unfold encodeCnf unlessEmpty at h
    split at h
    · cases h
    · rename_i c _
      split at h
      · cases h
      · obtain rfl := Option.some.inj (Except.ok.inj h)
        exact Nat.le_trans (height_cnfMap c) (by decide)
  have hcatdpop : Small claimCatdpop (encodeCatdpop t) := by
    intro v h
    unfold encodeCatdpop at h
    split at h
    · cases h
    · rename_i s hs
      rw [hn.catdpop s hs] at h
      cases h
  have hcomposite : compositeValues H t.composite = ⟨.ok none, .ok none, .ok none⟩ := by
    rw [hn.composite]; simp [compositeValues, CompositeClaims.default, encodeCompositeClaim?]
  have hnone (k : Int64) : Small k (.ok none) := fun v h => by cases h
  rw [hcomposite]
  simp only [claimEncoders, List.forall_mem_cons]
  refine ⟨.whenSome (by decide) (flat fun _ => rfl), ?aud, .whenSome (by decide) (flat fun _ => rfl),
    .whenSome (by decide) (flat fun _ => rfl), .whenSome (by decide) (flat fun _ => rfl),
    .absent (hcat (·.catreplay) rfl), .absent (hcat (·.catpor) rfl), .absent (hcat (·.catv) rfl),
    .absent (hcat (·.catnip) rfl), .absent (hcat (·.catu) rfl), .absent (hcat (·.catm) rfl),
    .absent (hcat (·.catalpn) rfl), .absent (hcat (·.cath) rfl),
    .absent (hcat (·.catgeoiso3166) rfl), .absent (hcat (·.catgeocoord) rfl),
    .absent (hcat (·.geohash) rfl), .absent (hcat (·.catgeoalt) rfl),
    .absent (hcat (·.cattpk) rfl), .whenSome (by decide) (flat fun _ => rfl),
    .whenSome (by decide) (flat fun _ => rfl), .absent hn.catifdata, hcnf, hcatdpop,
    .absent (by rw [hn.request]), .absent (by rw [hn.request]), .absent (by rw [hn.moqt]),
    .absent (by rw [hn.moqt]), hnone _, hnone _, hnone _, by simp⟩
  refine .whenSome (by decide) fun a v h => ?_
  rw [← Except.ok.inj h]
  exact Nat.le_trans (height_textArray a) (by decide)

/-! ## The issuer of an encoded token

Both readings of one payload, peeked and decoded, from the map that was written.
-/

section
variable {H : Host} {t : CatToken} {m : List (Int64 × Value)}

/-- What stands in front of the issuer is the custom claim under label 0, if any. -/
theorem before_issuer (hm : claimsMap (compositeValues H t.composite) t = .ok m)
    (ho : (m.map Prod.fst).Pairwise fun a b => labelRank a < labelRank b)
    {m₁ m₂ : List (Int64 × Value)} {v : Value} (hsplit : m = m₁ ++ (claimIss, v) :: m₂) :
    ∀ e, e ∈ m₁ ↔ e ∈ t.custom.entries ∧ e.1 = 0 := by
  obtain ⟨hsorted, hmem⟩ := claimsMap_ok hm
  have hnonneg := nonneg_of_ordered hsorted ho hsplit
  have hiss : claimIss.toInt = 1 := by decide
  have hzero (k : Int64) : k = 0 ↔ k.toInt = 0 := by rw [← Int64.toInt_inj]; rfl
  rw [hsplit] at hsorted
  obtain ⟨-, hpost, hlt⟩ := List.pairwise_append.mp hsorted
  have hbefore : ∀ e ∈ m₁, e.1.toInt < 1 := fun e he => by
    rw [← hiss]; exact hlt e he _ List.mem_cons_self
  -- label 0 has no encoder
  have hcustom (e : Int64 × Value) (h0 : e.1 = 0) : e ∈ m ↔ e ∈ t.custom.entries := by
    rw [show e = (e.1, e.2) from rfl, hmem]
    refine or_iff_left fun ⟨_, enc, henc, _⟩ => ?_
    have hlabel : e.1 ∈ claimLabels := List.mem_map_of_mem (f := Prod.fst) henc
    rw [h0] at hlabel
    exact absurd hlabel (by decide)
  intro e
  constructor
  · intro he
    have h0 : e.1 = 0 := (hzero _).mpr (by have := hnonneg e he; have := hbefore e he; omega)
    exact ⟨(hcustom e h0).mp (by rw [hsplit]; simp [he]), h0⟩
  · rintro ⟨he, h0⟩
    have hin : e ∈ m₁ ++ (claimIss, v) :: m₂ := by rw [← hsplit]; exact (hcustom e h0).mpr he
    rw [hzero] at h0
    rcases List.mem_append.mp hin with hin | hin
    · exact hin
    · rcases List.mem_cons.mp hin with rfl | hin
      · exact absurd h0 (by rw [hiss]; decide)
      · have := (List.pairwise_cons.mp hpost).1 e hin
        rw [hiss] at this
        omega

end

/-- An encoded token and its decoding, seen from the claim map: what the peek scans, and
    what the decoded issuer is. -/
structure Issued (H : Host) (t t' : CatToken) (b : Bytes) (m : List (Int64 × Value))
    (xs : List (Item × Item)) : Prop where
  map_eq : claimsMap (compositeValues H t.composite) t = .ok m
  ordered : (m.map Prod.fst).Pairwise fun a b => labelRank a < labelRank b
  written : List.Forall₂ WrittenEntry m xs
  peek : ScanNarrow (min xs.length peekMaxMapEntries) xs → ∀ o,
    peekIssuer b = .ok o ↔ Scan (min xs.length peekMaxMapEntries) xs o
  iss_some : ∀ s, (claimIss, .text s) ∈ m → t'.core.iss = some s
  iss_none : claimIss ∉ m.map Prod.fst → t'.core.iss = none

theorem issued {H : Host} {t t' : CatToken} {b : Bytes} (he : encodePayload H t = .ok b)
    (hd : decodePayload H b = .ok t') : ∃ m xs, Issued H t t' b m xs := by
  obtain ⟨m, hm, hw⟩ := encodePayload_ok he
  obtain ⟨es, ds, hdecodes⟩ := decodePayloadWithLimits_ok hd
  obtain ⟨hes, hlabels⟩ := hdecodes.of_written hw
  have ho := hdecodes.ordered
  rw [hlabels] at ho
  obtain ⟨x, hx, hb⟩ := H.cbor.write_sound hw
  obtain ⟨xs, rfl, hlen, hxs⟩ := writtenAs_claimsValue hx
  have hval : (Arg.ofNat xs.length).val = xs.length := Arg.val_ofNat hlen
  have hsize := hdecodes.length_lt
  rw [hb] at hsize
  refine ⟨m, xs, hm, ho, hxs, fun hscan o => ?_, fun s hs => ?_, fun hno => ?_⟩
  · rw [hb, peekIssuer_map hx.wf hsize (by rw [hval]; exact hscan), hval]
  · refine hdecodes.iss_eq ?_
    rw [hes]
    exact List.mem_map_of_mem (f := fun e : Int64 × Value => (i64Value e.1, e.2.readBack)) hs
  · exact hdecodes.iss_eq_none (by rw [hlabels]; exact hno)

section
variable {H : Host} {t t' : CatToken} {b : Bytes} {m : List (Int64 × Value)}
  {xs : List (Item × Item)}

theorem Issued.peek_some (h : Issued H t t' b m xs) {s : String} (hiss : t.core.iss = some s) :
    peekIssuer b = .ok t'.core.iss ↔ PeekFits t := by
  obtain ⟨hsorted, hmem⟩ := claimsMap_ok h.map_eq
  have hin : (claimIss, .text s) ∈ m := by
    refine (hmem _ _).mpr (.inr ⟨reserved_not_custom (by decide), encodeIss, by simp [claimEncoders], ?_⟩)
    rw [encodeIss, hiss]
    rfl
  obtain ⟨m₁, m₂, hsplit⟩ := List.append_of_mem hin
  have hfront := before_issuer h.map_eq h.ordered hsplit
  have hxs := h.written
  rw [hsplit] at hxs hsorted
  obtain ⟨xs₁, ⟨yk, yv⟩, xs₂, rfl, hxs₁, hyk, hyv⟩ := hxs.split
  obtain ⟨hc, rfl⟩ := hyv
  have hnarrow : ∀ z ∈ xs₁, ¬IssKey z.1 ∧ NarrowKey z.1 := by
    intro z hz
    obtain ⟨e, he, hez⟩ := hxs₁.exists_of_mem_right hz
    obtain ⟨hi, hnr, -⟩ := writtenAs_label hez.1
    have h0 := ((hfront e).mp he).2
    exact ⟨fun h => absurd (hi.mp h) (by rw [h0]; decide), hnr (by rw [h0]; decide)⟩
  have hfew : m₁.length ≤ 1 := by
    refine LabelSorted.length_le (List.pairwise_append.mp hsorted).1 0 0 fun e he => ?_
    rw [((hfront e).mp he).2]
    decide
  rw [hxs₁.length_eq] at hfew
  have hroom : xs₁.length < min (xs₁ ++ (yk, Item.text ⟨_, utf8 s, hc⟩) :: xs₂).length
      peekMaxMapEntries := by
    simp only [List.length_append, List.length_cons, peekMaxMapEntries]; omega
  obtain ⟨hscan, hiff⟩ := scan_issuer (c := ⟨_, utf8 s, hc⟩) ((writtenAs_label hyk).1.mpr rfl) rfl
    hnarrow hroom
  rw [h.iss_some s hin, h.peek hscan, hiff, forall_fits_iff hxs₁]
  unfold PeekFits
  rw [hiss]
  constructor
  · intro h e he h0
    exact h e ((hfront e).mpr ⟨he, h0 rfl⟩)
  · intro h e he
    obtain ⟨he, h0⟩ := (hfront e).mp he
    exact h e he fun _ => h0

theorem Issued.peek_none (h : Issued H t t' b m xs) (hiss : t.core.iss = none)
    (hn : NarrowLabels t) : peekIssuer b = .ok t'.core.iss ↔ PeekFits t := by
  obtain ⟨hsorted, hmem⟩ := claimsMap_ok h.map_eq
  have hsmall := small_claimEncoders (H := H) hn
  have hno : claimIss ∉ m.map Prod.fst := by
    intro hin
    obtain ⟨⟨k, v⟩, he, rfl⟩ := List.mem_map.mp hin
    rcases (hmem _ _).mp he with hc | ⟨-, enc, henc, hv⟩
    · have hreserved : isReservedClaimId claimIss = true := by decide
      exact reserved_not_custom hreserved (List.mem_map_of_mem hc)
    · have hmemIss : (claimIss, encodeIss) ∈ claimEncoders (compositeValues H t.composite) := by
        simp [claimEncoders]
      rw [claimEncoders_unique henc hmemIss, encodeIss, hiss] at hv
      cases hv
  have hle : ∀ e ∈ m, e.1.toInt ≤ 23 := by
    rintro ⟨k, v⟩ he
    rcases (hmem _ _).mp he with hc | ⟨-, enc, henc, hv⟩
    · exact hn.custom _ hc
    · exact (hsmall _ henc v hv).1
  have hnarrow : ∀ z ∈ xs, ¬IssKey z.1 ∧ NarrowKey z.1 := by
    intro z hz
    obtain ⟨e, he, hez⟩ := h.written.exists_of_mem_right hz
    obtain ⟨hi, hnr, -⟩ := writtenAs_label hez.1
    exact ⟨fun h => hno (hi.mp h ▸ List.mem_map_of_mem he), hnr (hle e he)⟩
  -- Two entries in wire order have no negative label, so all labels lie between 0 and 23.
  have hfew : m.length ≤ 24 := by
    match m, hsorted, hle, h.ordered with
    | [], _, _, _ => simp
    | [_], _, _, _ => simp
    | e₁ :: e₂ :: m, hs, hle, ho =>
      have h₁ := nonneg_of_ordered hs ho (show _ = [e₁] ++ e₂ :: m from rfl) e₁ (by simp)
      refine hs.length_le 0 23 fun e he => ⟨?_, hle e he⟩
      rcases List.mem_cons.mp he with rfl | he
      · exact h₁
      · exact Int.le_trans h₁ (Int.le_of_lt ((List.pairwise_cons.mp hs).1 e he))
  rw [h.written.length_eq] at hfew
  obtain ⟨hscan, hiff⟩ := scan_none hnarrow (Nat.le_refl _)
  have hmin : min xs.length peekMaxMapEntries = xs.length := by
    simp only [peekMaxMapEntries]; omega
  have hpeek := h.peek
  rw [hmin] at hpeek
  rw [h.iss_none hno, hpeek hscan, hiff, forall_fits_iff h.written]
  unfold PeekFits
  rw [hiss]
  constructor
  · rintro h ⟨k, v⟩ he -
    exact h _ ((hmem k v).mpr (.inl he))
  · rintro h ⟨k, v⟩ he
    rcases (hmem k v).mp he with hc | ⟨-, enc, henc, hv⟩
    · exact h _ hc (by simp)
    · exact (hsmall _ henc v hv).2

end

/-- **Peeking at an encoded token** that has an issuer or only narrow labels: the decoded
    issuer is found exactly when the custom claims in the way are not too high.

    For an encoded token the condition can be put in terms of the token. The labels matter because
    one above 23 does not fit in its initial byte, where the cursor loses its place; the heights
    because the skips of the cursor go down sixteen levels, and a custom claim may nest deeper
    inside a map key. Where there is an issuer, only a claim under label 0 stands before it. -/
theorem peekIssuer_encodePayload {H : Host} {t t' : CatToken} {b : Bytes}
    (he : encodePayload H t = .ok b) (hd : decodePayload H b = .ok t')
    (hn : t.core.iss = none → NarrowLabels t) :
    peekIssuer b = .ok t'.core.iss ↔ PeekFits t := by
  obtain ⟨m, xs, h⟩ := issued he hd
  cases hiss : t.core.iss with
  | some s => exact h.peek_some hiss
  | none => exact h.peek_none hiss (hn hiss)

/-- A token with an issuer and, behind it, a label above 255. -/
def replayTokenOfA : CatToken :=
  { CatToken.new with core := { iss := some "A" }, cat := { catreplay := some .prohibited } }

theorem peekIssuer_encodePayload_replayTokenOfA :
    ∃ b t', encodePayload .reference replayTokenOfA = .ok b ∧ decodePayload .reference b = .ok t' ∧
      (peekIssuer b = .ok t'.core.iss ↔ PeekFits replayTokenOfA) := by
  have he : encodePayload .reference replayTokenOfA =
      .ok [0xa2, 0x01, 0x61, 0x41, 0x19, 0x01, 0x34, 0x01] := by decide +kernel
  have hd : (decodePayload .reference [0xa2, 0x01, 0x61, 0x41, 0x19, 0x01, 0x34, 0x01]).map
      (·.core.iss) = .ok (some "A") := by decide +kernel
  obtain ⟨t', hd, -⟩ := Except.map_eq_ok.mp hd
  exact ⟨_, t', he, hd, peekIssuer_encodePayload he hd (by simp [replayTokenOfA])⟩

/-- A token without an issuer. -/
def replayToken : CatToken :=
  { CatToken.new with
    core := { aud := some ["x"], exp := some 5 }
    cat := { catreplay := some .prohibited } }

/-- After the argument of label 308 has been read twice, the value is missing. -/
theorem peekIssuer_encodePayload_fails :
    ¬∀ (H : Host) (t t' : CatToken) (b : Bytes), encodePayload H t = .ok b →
      decodePayload H b = .ok t' → peekIssuer b = .ok t'.core.iss := by
  intro h
  let b : Bytes := [0xa3, 0x03, 0x81, 0x61, 0x78, 0x04, 0x05, 0x19, 0x01, 0x34, 0x01]
  have he : encodePayload .reference replayToken = .ok b := by decide +kernel
  have hd : (decodePayload .reference b).map (·.core.iss) = .ok none := by decide +kernel
  obtain ⟨t', hd, -⟩ := Except.map_eq_ok.mp hd
  have hpeek : peekIssuer b = .error PeekCursor.truncated := by decide +kernel
  exact absurd (hpeek.symm.trans (h _ _ t' b he hd)) (by simp)

end Cat
