import Cat.ClaimSets
import Cat.Cwt.Ordering
import Cat.Lib.Cbor.Normal

/-!
# The claim sets of a payload

A payload holds claim maps in its composite claims, a token holds claim sets in its composites.
`decodePayload_sets` lays both out flat: the maps of the payload and the claim sets of the token
correspond one to one, and each claim set is what its map decodes to, as if it had come alone.
What is true of one decoded map is so true of all of them, with no recursion left.

The counters run through all the maps. A `Meter` is a reading of them that each claim moves by
its own weight; over a whole payload it moves by the weights of all claims.

The decoder re-enters itself by bytes: a claim set is written out and decoded again. That the
bytes are those of the value, up to folded tags, is what the codec gives, so the map that is
decoded inside is the map that stood there. The recursion is on fuel, and the flat statement has
none: by the time a payload has been decoded, it had enough.
-/

set_option autoImplicit false

namespace Cat

open Cbor

/-! ## On the wire

A claim set in a composite is a map, and whether it is a payload or stands for a nested
composite is seen by its only key. The recursion follows that: `setsBelow` goes from a map to
the maps in its composite claims, through as many operators as there are.
-/

/-- Whether a claim set in a composite stands for a composite of its own. -/
def isNestedComposite : List (Value × Value) → Bool
  | [(k, _)] => isCompositeKey k
  | _ => false

mutual
/-- The claim maps in the composite claims of a map. -/
def setsBelow : List (Value × Value) → List (List (Value × Value))
  | [] => []
  | (k, v) :: es => (if isCompositeKey k then setsOfComposite v else []) ++ setsBelow es
def setsOfComposite : Value → List (List (Value × Value))
  | .array vs => setsOfItems vs
  | _ => []
def setsOfItems : List Value → List (List (Value × Value))
  | [] => []
  | v :: vs => setsOfItem v ++ setsOfItems vs
def setsOfItem : Value → List (List (Value × Value))
  | .map es => (if isNestedComposite es then [] else [es]) ++ setsBelow es
  | _ => []
end

/-- The claim map of a payload and all those below it. -/
def claimMaps (es : List (Value × Value)) : List (List (Value × Value)) := es :: setsBelow es

theorem isCompositeKey_i64Value (id : Int64) :
    isCompositeKey (i64Value id) = true ↔ id = claimOr ∨ id = claimNor ∨ id = claimAnd := by
  show (decide _ || decide _ || decide _) = true ↔ _
  rw [show (Integer.ofI64 id).toI64?.getD 0 = id by rw [Integer.toI64?_ofI64]; rfl]
  simp only [Bool.or_eq_true, decide_eq_true_eq, or_assoc]

section
variable {H : Host} {limits : CwtLimits} {composite : CompositeDecoder}

theorem decodeClaim_or (n : Nat) (v : Value) :
    decodeClaim H limits composite n claimOr v = (do
      rejectUnexpectedTag v "composite"
      return .orClaim (← composite claimOr v 0)) := rfl

theorem decodeClaim_nor (n : Nat) (v : Value) :
    decodeClaim H limits composite n claimNor v = (do
      rejectUnexpectedTag v "composite"
      return .norClaim (← composite claimNor v 0)) := rfl

theorem decodeClaim_and (n : Nat) (v : Value) :
    decodeClaim H limits composite n claimAnd v = (do
      rejectUnexpectedTag v "composite"
      return .andClaim (← composite claimAnd v 0)) := rfl

/-- A composite label decodes to a composite. -/
theorem decodeClaim_composite {n : Nat} {id : Int64} {v : Value} {s s' : DecodeCounters}
    {d : DecodedClaim} (hid : isCompositeKey (i64Value id) = true)
    (h : decodeClaim H limits composite n id v s = .ok (d, s')) :
    ∃ c, composite id v 0 s = .ok (c, s') ∧ (d = .orClaim c ∨ d = .norClaim c ∨ d = .andClaim c) := by
  have harm : ∀ {f : CompositeClaim → DecodedClaim}, (do
      rejectUnexpectedTag v "composite"
      return f (← composite id v 0) : Decode DecodedClaim) s = .ok (d, s') →
      ∃ c, composite id v 0 s = .ok (c, s') ∧ d = f c := by
    intro f h
    obtain ⟨_, s₁, hlift, h⟩ := StateT.bind_eq_ok.mp h
    obtain ⟨-, rfl⟩ := StateT.lift_eq_ok.mp hlift
    obtain ⟨c, s₂, hc, h⟩ := StateT.bind_eq_ok.mp h
    obtain ⟨rfl, rfl⟩ := StateT.pure_eq_ok.mp h
    exact ⟨c, hc, rfl⟩
  rcases (isCompositeKey_i64Value id).mp hid with rfl | rfl | rfl
  · rw [decodeClaim_or] at h
    obtain ⟨c, hc, rfl⟩ := harm h
    exact ⟨c, hc, .inl rfl⟩
  · rw [decodeClaim_nor] at h
    obtain ⟨c, hc, rfl⟩ := harm h
    exact ⟨c, hc, .inr (.inl rfl)⟩
  · rw [decodeClaim_and] at h
    obtain ⟨c, hc, rfl⟩ := harm h
    exact ⟨c, hc, .inr (.inr rfl)⟩

end

/-! ## In the token

The same on the other side, where a composite claim brings its claim sets with it. Assigning
claims in turn gathers them in the order of the map, because each composite has a field of its
own that is assigned once.
-/

/-- The claim sets a claim brings in. -/
def DecodedClaim.claimSets : DecodedClaim → List CatToken
  | .orClaim c | .norClaim c | .andClaim c => c.claimSets
  | _ => []

/-- No composite claim of this rank or above it is in the token. -/
structure RoomFrom (r : Int) (t : CatToken) : Prop where
  orClaim : r ≤ labelRank claimOr → t.composite.orClaim = none
  norClaim : r ≤ labelRank claimNor → t.composite.norClaim = none
  andClaim : r ≤ labelRank claimAnd → t.composite.andClaim = none

theorem assign_composite_other (t : CatToken) {d : DecodedClaim}
    (h : isCompositeKey (i64Value d.label) = false) : (t.assign d).composite = t.composite := by
  rw [← Bool.not_eq_true, isCompositeKey_i64Value] at h
  unfold CatToken.assign
  split <;> first | rfl | exact absurd (.inl rfl) h | exact absurd (.inr (.inl rfl)) h |
    exact absurd (.inr (.inr rfl)) h

theorem claimSets_other {d : DecodedClaim} (h : isCompositeKey (i64Value d.label) = false) :
    d.claimSets = [] := by
  rw [← Bool.not_eq_true, isCompositeKey_i64Value] at h
  unfold DecodedClaim.claimSets
  split <;> first | rfl | exact absurd (.inl rfl) h | exact absurd (.inr (.inl rfl)) h |
    exact absurd (.inr (.inr rfl)) h

/-- A claim is assigned behind the claim sets there are, and leaves room after it. -/
theorem RoomFrom.assign {t : CatToken} {d : DecodedClaim} (h : RoomFrom (labelRank d.label) t) :
    (t.assign d).composite.claimSets = t.composite.claimSets ++ d.claimSets ∧
      ∀ r, labelRank d.label < r → RoomFrom r t → RoomFrom r (t.assign d) := by
  by_cases hc : isCompositeKey (i64Value d.label) = true
  · cases d with
    | orClaim c =>
      have ho := h.orClaim (Int.le_refl _)
      have hn := h.norClaim (by show labelRank claimOr ≤ _; decide)
      have ha := h.andClaim (by show labelRank claimOr ≤ _; decide)
      refine ⟨?_, fun r hr hroom => ⟨fun hle => absurd hr (Int.not_lt.mpr hle), hroom.norClaim,
        hroom.andClaim⟩⟩
      simp only [CatToken.assign, CompositeClaims.claimSets, ho, hn, ha, claimSets?,
        DecodedClaim.claimSets, List.append_nil, List.nil_append]
    | norClaim c =>
      have hn := h.norClaim (Int.le_refl _)
      have ha := h.andClaim (by show labelRank claimNor ≤ _; decide)
      refine ⟨?_, fun r hr hroom => ⟨hroom.orClaim, fun hle => absurd hr (Int.not_lt.mpr hle),
        hroom.andClaim⟩⟩
      simp only [CatToken.assign, CompositeClaims.claimSets, hn, ha, claimSets?,
        DecodedClaim.claimSets, List.append_nil]
    | andClaim c =>
      have ha := h.andClaim (Int.le_refl _)
      refine ⟨?_, fun r hr hroom => ⟨hroom.orClaim, hroom.norClaim,
        fun hle => absurd hr (Int.not_lt.mpr hle)⟩⟩
      simp only [CatToken.assign, CompositeClaims.claimSets, ha, claimSets?,
        DecodedClaim.claimSets, List.append_nil]
    | custom id hid v =>
      refine ⟨?_, fun r _ hroom => ⟨hroom.orClaim, hroom.norClaim, hroom.andClaim⟩⟩
      simp only [CatToken.assign, DecodedClaim.claimSets, List.append_nil]
    | _ =>
      rw [isCompositeKey_i64Value] at hc
      simp only [DecodedClaim.label] at hc
      exact absurd hc (by decide)
  · rw [Bool.not_eq_true] at hc
    have hcomp := assign_composite_other t hc
    rw [hcomp, claimSets_other hc, List.append_nil]
    exact ⟨rfl, fun r _ hroom => ⟨hcomp ▸ hroom.orClaim, hcomp ▸ hroom.norClaim,
      hcomp ▸ hroom.andClaim⟩⟩

theorem foldl_assign_claimSets {ds : List DecodedClaim} : ∀ {t : CatToken},
    (ds.map DecodedClaim.label).Pairwise (fun a b => labelRank a < labelRank b) →
    (∀ d ∈ ds, RoomFrom (labelRank d.label) t) →
    (ds.foldl CatToken.assign t).composite.claimSets =
      t.composite.claimSets ++ ds.flatMap DecodedClaim.claimSets := by
  induction ds with
  | nil => intro t _ _; simp
  | cons d ds ih =>
    intro t hord hroom
    rw [List.map_cons, List.pairwise_cons] at hord
    obtain ⟨hsets, hafter⟩ := (hroom d List.mem_cons_self).assign
    rw [List.foldl_cons, ih hord.2 fun d' hd' => ?_, hsets, List.flatMap_cons, List.append_assoc]
    exact hafter _ (hord.1 _ (List.mem_map_of_mem hd')) (hroom d' (List.mem_cons_of_mem _ hd'))

section
variable {H : Host} {limits : CwtLimits} {composite : CompositeDecoder}

/-- The claim sets of a decoded token: itself, and those its composite claims bring in. -/
theorem DecodesTo.claimSets_eq {b : Bytes} {es : List (Value × Value)} {ds : List DecodedClaim}
    {t : CatToken} (h : DecodesTo H limits composite b es ds t) :
    t.claimSets = t :: ds.flatMap DecodedClaim.claimSets := by
  have hroom : ∀ d ∈ ds, RoomFrom (labelRank d.label) .new :=
    fun d _ => ⟨fun _ => rfl, fun _ => rfl, fun _ => rfl⟩
  rw [CatToken.claimSets_eq]
  congr 1
  rw [h.token_eq, foldl_assign_claimSets h.ordered hroom]
  rfl

end

/-! ## Decoding

A run of the decoder is told by the two lists side by side (`SetsDecoded`) and by what it has
moved the counters. Runs compose by appending the lists. Which reading of the counters is taken,
and what a claim moves it by, is a parameter, since some results are about items and others
about patterns.
-/

section
variable (H : Host) (limits : CwtLimits)

/-- A claim map together with the claim set it decodes to. -/
structure DecodedSet where
  composite : CompositeDecoder
  bytes : Bytes
  entries : List (Value × Value)
  claims : List DecodedClaim
  token : CatToken
  decodes : DecodesTo H limits composite bytes entries claims token
  depth_le : walkDepth (.map entries) ≤ limits.maxNestingDepth
  checked : (Value.map entries).ValueMaps KeysChecked

/-- A reading of the counters that every claim moves by a weight of its own. -/
structure Meter where
  reading : DecodeCounters → Nat
  weigh : DecodedClaim → Nat
  countItem : ∀ {s s' : DecodeCounters} {u : Unit},
    DecodeCounters.countItem limits s = .ok (u, s') → reading s' = reading s
  claim : ∀ {composite : CompositeDecoder} {n : Nat} {v : Value} {s s' : DecodeCounters}
    {d : DecodedClaim}, DecodedFrom H limits composite n v s s' d →
      isCompositeKey (i64Value d.label) = false → reading s' = reading s + weigh d
  composite : ∀ {d : DecodedClaim}, isCompositeKey (i64Value d.label) = true → weigh d = 0

end

section
variable {H : Host} {limits : CwtLimits}

/-- What all claims of some claim sets weigh. -/
def Meter.total (m : Meter H limits) (sets : List (DecodedSet H limits)) : Nat :=
  (sets.map fun set => (set.claims.map m.weigh).sum).sum

/-- Between two states of the counters, these maps have been decoded to these claim sets. -/
def SetsDecoded (m : Meter H limits) (maps : List (List (Value × Value))) (ts : List CatToken)
    (s s' : DecodeCounters) : Prop :=
  ∃ sets : List (DecodedSet H limits), sets.map DecodedSet.entries = maps ∧
    sets.map DecodedSet.token = ts ∧ m.reading s' = m.reading s + m.total sets

variable {m : Meter H limits}

theorem Meter.total_append (m : Meter H limits) (sets sets' : List (DecodedSet H limits)) :
    m.total (sets ++ sets') = m.total sets + m.total sets' := by
  rw [total, total, total, List.map_append, List.sum_append]

theorem SetsDecoded.nil {s s' : DecodeCounters} (h : m.reading s' = m.reading s) :
    SetsDecoded m [] [] s s' := ⟨[], rfl, rfl, h⟩

theorem SetsDecoded.append {maps maps' : List (List (Value × Value))} {ts ts' : List CatToken}
    {s s₁ s' : DecodeCounters} (h : SetsDecoded m maps ts s s₁)
    (h' : SetsDecoded m maps' ts' s₁ s') : SetsDecoded m (maps ++ maps') (ts ++ ts') s s' := by
  obtain ⟨sets, rfl, rfl, hr⟩ := h
  obtain ⟨sets', rfl, rfl, hr'⟩ := h'
  refine ⟨sets ++ sets', List.map_append, List.map_append, ?_⟩
  rw [hr', hr, m.total_append, Nat.add_assoc]

/-- A decoder of composite claims whose claim sets are those of the value. -/
def DecodesSets (m : Meter H limits) (composite : CompositeDecoder) : Prop :=
  ∀ {id : Int64} {v : Value} {depth : Nat} {s s' : DecodeCounters} {c : CompositeClaim},
    v.Normal → composite id v depth s = .ok (c, s') →
      SetsDecoded m (setsOfComposite v) c.claimSets s s'

/-- One claim: what it weighs, and the claim sets it brings in. -/
theorem decodeClaim_sets {composite : CompositeDecoder} (hc : DecodesSets m composite) {n : Nat}
    {id : Int64} {v : Value} {s s' : DecodeCounters} {d : DecodedClaim} (hv : v.Normal)
    (h : decodeClaim H limits composite n id v s = .ok (d, s')) :
    ∃ sets : List (DecodedSet H limits),
      sets.map DecodedSet.entries =
        (if isCompositeKey (i64Value id) then setsOfComposite v else []) ∧
      sets.map DecodedSet.token = d.claimSets ∧
      m.reading s' = m.reading s + m.weigh d + m.total sets := by
  by_cases hk : isCompositeKey (i64Value id) = true
  · obtain ⟨c, hcomp, hd⟩ := decodeClaim_composite hk h
    obtain ⟨sets, hmaps, htoks, hr⟩ := hc hv hcomp
    refine ⟨sets, ?_, ?_, ?_⟩
    · rw [if_pos hk, hmaps]
    · rcases hd with rfl | rfl | rfl <;> exact htoks
    · rw [m.composite (by rw [decodeClaim_label h]; exact hk), hr, Nat.add_zero]
  · obtain ⟨rfl, hfrom⟩ := decodeClaim_ok h
    rw [Bool.not_eq_true] at hk
    refine ⟨[], ?_, (claimSets_other hk).symm, ?_⟩
    · rw [if_neg (by rw [hk]; exact Bool.false_ne_true)]; rfl
    · exact m.claim hfrom hk

/-- The loop over a claim map. -/
theorem decodeEntries_sets {composite : CompositeDecoder} (hc : DecodesSets m composite)
    {es : List (Value × Value)} : ∀ {t t' : CatToken} {s s' : DecodeCounters},
    (∀ e ∈ es, e.2.Normal) → decodeEntries H limits composite t es s = .ok (t', s') →
      ∃ ds, List.Forall₂ (EntryDecodes H limits composite) es ds ∧
        t' = ds.foldl CatToken.assign t ∧
        ∃ sets : List (DecodedSet H limits), sets.map DecodedSet.entries = setsBelow es ∧
          sets.map DecodedSet.token = ds.flatMap DecodedClaim.claimSets ∧
          m.reading s' = m.reading s + (ds.map m.weigh).sum + m.total sets := by
  induction es with
  | nil =>
    intro t t' s s' _ h
    obtain ⟨rfl, rfl⟩ := StateT.pure_eq_ok.mp h
    exact ⟨[], .nil, rfl, [], rfl, rfl, rfl⟩
  | cons e es ih =>
    intro t t' s s' hes h
    obtain ⟨⟨⟩, s₁, hcount, h₁⟩ := StateT.bind_eq_ok.mp h
    obtain ⟨id, s₂, hlift, h₂⟩ := StateT.bind_eq_ok.mp h₁
    obtain ⟨d, s₃, hd, h₃⟩ := StateT.bind_eq_ok.mp h₂
    obtain ⟨hid, rfl⟩ := StateT.lift_eq_ok.mp hlift
    have hkey := decodeClaimId_eq_ok.mp hid
    obtain ⟨sets, hmaps, htoks, hr⟩ := decodeClaim_sets hc (hes e List.mem_cons_self) hd
    obtain ⟨ds, hds, ht, sets', hmaps', htoks', hr'⟩ :=
      ih (fun e' he' => hes e' (List.mem_cons_of_mem _ he')) h₃
    obtain rfl := decodeClaim_label hd
    refine ⟨d :: ds, .cons ⟨hkey, _, _, _, hd⟩ hds, ht, sets ++ sets', ?_, ?_, ?_⟩
    · obtain ⟨k, v⟩ := e
      obtain rfl : k = i64Value d.label := hkey
      rw [List.map_append, hmaps, hmaps', setsBelow]
    · rw [List.map_append, htoks, htoks', List.flatMap_cons]
    · rw [hr', hr, m.countItem hcount, List.map_cons, List.sum_cons, m.total_append]
      omega

/-- A payload: its own map, and those below it. -/
theorem decodePayloadWith_sets {composite : CompositeDecoder} (hc : DecodesSets m composite)
    {b : Bytes} {t : CatToken} {s s' : DecodeCounters}
    (h : decodePayloadWith H limits composite b s = .ok (t, s')) :
    ∃ es, H.cbor.read cborMaxRecursionDepth b = .ok (.map es, []) ∧
      SetsDecoded m (claimMaps es) t.claimSets s s' := by
  obtain ⟨es, s₁, hlift, h₁⟩ := StateT.bind_eq_ok.mp h
  obtain ⟨hmap, rfl⟩ := StateT.lift_eq_ok.mp hlift
  obtain ⟨hsize, hread, hord⟩ := readClaimsMap_ok hmap
  have hchecked := validateCborMapOrderingLimited_eq_ok.mp hord
  have hnormal := Value.normal_map.mp (H.cbor.normal_of_read hread)
  obtain ⟨ds, hds, ht, sets, hmaps, htoks, hr⟩ :=
    decodeEntries_sets hc (fun e he => (hnormal e he).2) h₁
  have hchain := validateEntries_ordered (entryDecodes_keys hds) hord
  have hdecodes : DecodesTo H limits composite b es ds t :=
    ⟨hsize, hread, hds, List.isChain_iff_pairwise.mp hchain, ht⟩
  refine ⟨es, hread, ⟨composite, b, es, ds, t, hdecodes, hchecked.1, hchecked.2⟩ :: sets,
    ?_, ?_, ?_⟩
  · rw [List.map_cons, hmaps, claimMaps]
  · rw [List.map_cons, htoks, hdecodes.claimSets_eq]
  · rw [hr, Nat.add_assoc]
    rfl

/-! ## Composite claims

Where the lists grow: a member that is a payload adds its own map and what is below it. By
induction on the fuel of the decoder.
-/

/-- A claim set in a composite: a nested composite, or a payload of its own. -/
theorem decodeClaimSet_sets {nested : CompositeDecoder} {payload : Bytes → Decode CatToken}
    {composite : CompositeDecoder} (hn : DecodesSets m nested) (hc : DecodesSets m composite)
    (hp : payload = decodePayloadWith H limits composite) {depth : Nat} {item : Value}
    {s s' : DecodeCounters} {cs : ClaimSet} (hitem : item.Normal)
    (h : decodeClaimSet H limits nested payload depth item s = .ok (cs, s')) :
    SetsDecoded m (setsOfItem item) cs.claimSets s s' := by
  subst hp
  obtain ⟨⟨⟩, s₁, hcount, h₁⟩ := StateT.bind_eq_ok.mp h
  have hstart : m.reading s₁ = m.reading s := m.countItem hcount
  cases item with
  | map es =>
    -- A map that is no nested composite is written out and read again as a claim set of its own.
    have hset : isNestedComposite es = false → decodeClaimSet.decodeTokenSet H
        (decodePayloadWith H limits composite) (.map es) s₁ = .ok (cs, s') →
        SetsDecoded m (setsOfItem (.map es)) cs.claimSets s s' := by
      intro hnest h₂
      unfold decodeClaimSet.decodeTokenSet at h₂
      cases hw : H.cbor.write (.map es) with
      | error e => rw [hw] at h₂; exact absurd h₂ StateT.throw_ne_ok
      | ok buf =>
        rw [hw] at h₂
        obtain ⟨t, s₂, ht, h₃⟩ := StateT.bind_eq_ok.mp h₂
        obtain ⟨rfl, rfl⟩ := StateT.pure_eq_ok.mp h₃
        obtain ⟨es', hread, hsets⟩ := decodePayloadWith_sets hc ht
        -- The bytes just written are read back as the same entries.
        obtain rfl : es' = es := by
          have heq := (H.cbor.read_of_write hw hread).1
          rw [hitem] at heq
          exact Value.map.inj heq
        rw [setsOfItem, hnest]
        exact (SetsDecoded.nil hstart).append hsets
    match es with
    | [] => exact hset rfl h₁
    | e :: e' :: es => exact hset rfl h₁
    | [(k, v)] =>
      by_cases hk : isCompositeKey k = true
      · simp only [hk, if_true] at h₁
        -- The one key names a composite, which is decoded in place.
        obtain ⟨id, hid⟩ : ∃ id, (do return .composite (← nested id v (depth + 1)) :
            Decode ClaimSet) s₁ = .ok (cs, s') := by
          cases k with
          | integer i =>
            dsimp only at h₁
            cases hi : i.toI64? with
            | none =>
              rw [hi] at h₁
              obtain ⟨_, _, hthrow, -⟩ := StateT.bind_eq_ok.mp h₁
              exact absurd hthrow StateT.throw_ne_ok
            | some n => rw [hi] at h₁; exact ⟨n, h₁⟩
          | _ =>
            obtain ⟨_, _, hthrow, -⟩ := StateT.bind_eq_ok.mp h₁
            exact absurd hthrow StateT.throw_ne_ok
        obtain ⟨c, s₂, hcomp, h₂⟩ := StateT.bind_eq_ok.mp hid
        obtain ⟨rfl, rfl⟩ := StateT.pure_eq_ok.mp h₂
        have hv : v.Normal := (Value.normal_map.mp hitem _ List.mem_cons_self).2
        rw [setsOfItem, isNestedComposite, hk, setsBelow, hk, setsBelow, List.append_nil]
        exact (SetsDecoded.nil hstart).append (hn hv hcomp)
      · rw [Bool.not_eq_true] at hk
        simp only [hk, Bool.false_eq_true, if_false] at h₁
        exact hset hk h₁
  | _ => exact absurd h₁ StateT.throw_ne_ok

theorem decodeClaimSets_sets {nested : CompositeDecoder} {payload : Bytes → Decode CatToken}
    {composite : CompositeDecoder} (hn : DecodesSets m nested) (hc : DecodesSets m composite)
    (hp : payload = decodePayloadWith H limits composite) {depth : Nat} {items : List Value} :
    ∀ {s s' : DecodeCounters} {css : List ClaimSet}, (∀ item ∈ items, item.Normal) →
    items.mapM' (decodeClaimSet H limits nested payload depth) s = .ok (css, s') →
    SetsDecoded m (setsOfItems items) (claimSetsOf css) s s' := by
  induction items with
  | nil =>
    intro s s' css _ h
    obtain ⟨rfl, rfl⟩ := StateT.pure_eq_ok.mp h
    exact .nil rfl
  | cons item items ih =>
    intro s s' css hitems h
    obtain ⟨cs, s₁, hcs, h₁⟩ := StateT.bind_eq_ok.mp h
    obtain ⟨css', s₂, hcss, h₂⟩ := StateT.bind_eq_ok.mp h₁
    obtain ⟨rfl, rfl⟩ := StateT.pure_eq_ok.mp h₂
    rw [setsOfItems, claimSetsOf]
    exact (decodeClaimSet_sets hn hc hp (hitems item List.mem_cons_self) hcs).append
      (ih (fun i hi => hitems i (List.mem_cons_of_mem _ hi)) hcss)

theorem decodeCompositeClaimWith_sets {nested composite : CompositeDecoder}
    (hn : DecodesSets m nested) (hc : DecodesSets m composite) :
    DecodesSets m (decodeCompositeClaimWith H limits nested
      (decodePayloadWith H limits composite)) := by
  intro id v depth s s' c hv h
  unfold decodeCompositeClaimWith at h
  obtain ⟨-, h₁⟩ := StateT.guard_eq_ok.mp h
  obtain ⟨op, s₁, hop, h₂⟩ := StateT.bind_eq_ok.mp h₁
  obtain ⟨-, rfl⟩ := StateT.lift_eq_ok.mp hop
  cases v with
  | array vs =>
    obtain ⟨_, s₂, hvs, h₃⟩ := StateT.bind_eq_ok.mp h₂
    obtain ⟨rfl, rfl⟩ := StateT.pure_eq_ok.mp hvs
    obtain ⟨css, s₃, hcss, h₄⟩ := StateT.bind_eq_ok.mp h₃
    obtain ⟨rfl, rfl⟩ := StateT.pure_eq_ok.mp h₄
    rw [setsOfComposite, CompositeClaim.claimSets]
    exact decodeClaimSets_sets hn hc rfl (Value.normal_array.mp hv) hcss
  | _ =>
    obtain ⟨_, _, hthrow, -⟩ := StateT.bind_eq_ok.mp h₂
    exact absurd hthrow StateT.throw_ne_ok

/-- The recursion through composites, by the number of levels. -/
theorem decodeCompositeClaimWithCounters_sets (fuel : Nat) :
    DecodesSets m (decodeCompositeClaimWithCounters H limits fuel) := by
  induction fuel with
  | zero =>
    intro id v depth s s' c _ h
    exact absurd h StateT.throw_ne_ok
  | succ fuel ih => exact decodeCompositeClaimWith_sets ih ih

/-- **A decoded payload, laid out flat**: map by map the claim sets of the token, and the
    counters moved by what all claims weigh. -/
theorem decodePayload_sets (m : Meter H limits) {b : Bytes} {t : CatToken}
    (h : decodePayloadWithLimits H limits b = .ok t) :
    ∃ es s, H.cbor.read cborMaxRecursionDepth b = .ok (.map es, []) ∧
      decodePayloadWithLimitsAndCounters H limits b {} = .ok (t, s) ∧
      SetsDecoded m (claimMaps es) t.claimSets {} s := by
  obtain ⟨⟨t', s⟩, hd, rfl⟩ := Except.map_eq_ok.mp h
  obtain ⟨es, hread, hsets⟩ :=
    decodePayloadWith_sets (decodeCompositeClaimWithCounters_sets _) hd
  exact ⟨es, s, hread, hd, hsets⟩

end
end Cat
