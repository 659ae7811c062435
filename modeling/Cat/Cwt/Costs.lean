import Cat.Cwt.Acceptance
import Cat.Cwt.EncodedKeys

/-!
# What a payload costs

A step of the decoder may depend on what has been counted before it only by running into a
limit. Such a step is `Metered`: what it returned at some cost it returns at that cost wherever
the cost fits. All of the payload decoder is metered, the recursion through composites included,
so decoding can be taken apart without following the counters: `decodePayloadWithLimits_eq_ok`
says that a payload decodes exactly when its map is read and in order, every entry yields a
claim, and the costs of all entries fit together.

`Metered` is weaker than `Counts`, which has a relation for what a step returns and at what
cost. It needs no such relation, so it holds of the whole decoder without anybody having to say
what a composite claim decodes to, and it is proved by going through the `do` blocks and citing
that each step in them is metered. The two meet in `Yields`: what an entry yields by itself, at
its own cost, with counters at zero.

The number of custom claims is a limit too, and it is not a counter but a property of the token
so far. It is treated apart (`Room for custom claims`).
-/

set_option autoImplicit false

namespace Cat

open Cbor DecodeCounters

/-! ## Metered steps

What it is for a step to be metered, and that sequences and loops of metered steps are.
-/

section
variable {limits : CwtLimits} {α β : Type}

/-- The step returns `x` at this cost wherever the cost fits. -/
def Returns (limits : CwtLimits) (m : Decode α) (x : α) (c : DecodeCounters) : Prop :=
  ∀ s, Within limits (s + c) → m s = .ok (x, s + c)

/-- A step whose cost does not depend on what has been counted. -/
def Metered (limits : CwtLimits) (m : Decode α) : Prop := Counts limits m (Returns limits m)

variable {m : Decode α} {f : α → Decode β}

theorem Counts.metered {R : α → DecodeCounters → Prop} (h : Counts limits m R) :
    Metered limits m where
  sound hm := by
    obtain ⟨c, hc, hs⟩ := h.sound hm
    exact ⟨c, fun s => h.complete hc, hs⟩
  complete hc hs := hc _ hs

theorem Metered.bind (hm : Metered limits m) (hf : ∀ a, Metered limits (f a)) :
    Metered limits (m >>= f) := (hm.andThen hf).metered

theorem Metered.lift (e : Except CatError α) : Metered limits (monadLift e : Decode α) :=
  (Counts.lift e).metered

theorem Metered.ret (a : α) : Metered limits (pure a : Decode α) := (Counts.ret a).metered

theorem Metered.fail (e : CatError) : Metered limits (throw e : Decode α) :=
  (Counts.fail e).metered

theorem Returns.of_counts {R : α → DecodeCounters → Prop} (h : Counts limits m R) {x : α}
    {c : DecodeCounters} (hx : R x c) : Returns limits m x c := fun _ => h.complete hx

theorem Returns.ret (a : α) : Returns limits (pure a : Decode α) a 0 :=
  .of_counts (Counts.ret a) ⟨rfl, rfl⟩

theorem Returns.lift {e : Except CatError α} {x : α} (h : e = .ok x) :
    Returns limits (monadLift e : Decode α) x 0 := .of_counts (Counts.lift e) ⟨h, rfl⟩

theorem Returns.bind {x : α} {y : β} {c₁ c₂ : DecodeCounters} (hm : Returns limits m x c₁)
    (hf : Returns limits (f x) y c₂) : Returns limits (m >>= f) y (c₁ + c₂) := by
  intro s hs
  rw [← add_assoc] at hs ⊢
  exact StateT.bind_eq_ok.mpr ⟨x, s + c₁, hm s hs.of_add, hf _ hs⟩

/-- A loop whose steps return, at the sum of their costs. -/
theorem Returns.traverse {as : List α} {costs : List DecodeCounters}
    (h : List.Forall₂ (fun a c => ∃ y, Returns limits (f a) y c) as costs) :
    ∃ ys, Returns limits (as.mapM' f) ys costs.sum := by
  induction h with
  | nil => exact ⟨[], .ret []⟩
  | @cons a c as costs ha _ ih =>
    obtain ⟨y, hy⟩ := ha
    obtain ⟨ys, hys⟩ := ih
    have hrest := hys.bind (f := fun bs => pure (y :: bs)) (.ret (y :: ys))
    rw [add_zero] at hrest
    exact ⟨y :: ys, hy.bind (f := fun b => do
      let bs ← as.mapM' f
      pure (b :: bs)) hrest⟩

theorem Metered.traverse (hf : ∀ a, Metered limits (f a)) (as : List α) :
    Metered limits (as.mapM' f) := by
  induction as with
  | nil => exact .ret []
  | cons a as ih => exact (hf a).bind fun b => ih.bind fun bs => .ret (b :: bs)

end

/-! ## Entries

An entry by itself: what it is decoded to with counters at zero, and at what cost. Entries that
stand next to each other do not affect one another but by the sum.
-/

/-- Whether a claim is one from outside the profile. -/
def DecodedClaim.isCustom : DecodedClaim → Bool
  | .custom _ _ _ => true
  | _ => false

section
variable (H : Host) (limits : CwtLimits) (composite : CompositeDecoder)

/-- The value is decoded to the claim at this cost wherever the cost fits, a custom claim
    where there is room for one more. -/
def Yields (v : Value) (d : DecodedClaim) (c : DecodeCounters) : Prop :=
  ∀ n, (d.isCustom = true → n < limits.maxCustomClaims) →
    Returns limits (decodeClaim H limits composite n d.label v) d c

/-- Entries with the claims they yield and what these cost. -/
def YieldsEntries (es : List (Value × Value)) (xs : List (DecodedClaim × DecodeCounters)) : Prop :=
  List.Forall₂ (fun e x => e.1 = i64Value x.1.label ∧ Yields H limits composite e.2 x.1 x.2) es xs

/-- An item for every entry, and its claim. -/
def costOf (xs : List (DecodedClaim × DecodeCounters)) : DecodeCounters :=
  (xs.map fun x => itemCost 1 + x.2).sum

/-- The token that has been assigned these claims. -/
def tokenOf (xs : List (DecodedClaim × DecodeCounters)) : CatToken :=
  (xs.map Prod.fst).foldl CatToken.assign .new

end

theorem costOf_cons (x : DecodedClaim × DecodeCounters) (xs : List (DecodedClaim × DecodeCounters)) :
    costOf (x :: xs) = itemCost 1 + (x.2 + costOf xs) := by
  rw [costOf, List.map_cons, List.sum_cons, ← costOf, add_assoc]

section
variable {H : Host} {limits : CwtLimits} {composite : CompositeDecoder}

/-- A decoder of composite claims that is metered throughout. -/
def MeteredComposites (limits : CwtLimits) (composite : CompositeDecoder) : Prop :=
  ∀ id v depth, Metered limits (composite id v depth)

/-- A value in the form of its claim yields it. -/
theorem ClaimForm.yields {v : Value} {d : DecodedClaim} {c : DecodeCounters}
    (h : ClaimForm H limits v d c) (hd : isCompositeKey (i64Value d.label) = false) :
    Yields H limits composite v d c := by
  intro n hn s hs
  refine h.accepts hd n s (fun hres => ?_) hs
  cases d with
  | custom id hid x => exact hn rfl
  | orClaim x | norClaim x | andClaim x =>
    rw [DecodedClaim.label] at hd
    exact absurd hd (by decide)
  | _ =>
    rw [DecodedClaim.label] at hres
    exact absurd hres (by decide)

theorem Yields.form {v : Value} {d : DecodedClaim} {c : DecodeCounters}
    (h : Yields H limits composite v d c) (hd : isCompositeKey (i64Value d.label) = false)
    (hc : Within limits c) : ClaimForm H limits v d c := by
  have hrun := h 0 (fun _ => limits.custom_ok.1) 0 (by rwa [zero_add])
  obtain ⟨c', hform, hs, -⟩ := (decodeClaim_ok hrun).2.form hd
  rw [zero_add, zero_add] at hs
  rwa [hs]

/-- **What a claim was decoded to it yields.** -/
theorem decodeClaim_yields (hcomp : MeteredComposites limits composite) {n : Nat} {id : Int64}
    {v : Value} {s s' : DecodeCounters} {d : DecodedClaim}
    (h : decodeClaim H limits composite n id v s = .ok (d, s')) :
    d.label = id ∧ (d.isCustom = true → n < limits.maxCustomClaims) ∧
      ∃ c, Yields H limits composite v d c ∧ s' = s + c ∧ (Within limits s → Within limits s') := by
  obtain ⟨rfl, hfrom⟩ := decodeClaim_ok h
  refine ⟨rfl, fun hcustom => ?_, ?_⟩
  · cases d with
    | custom id hid x => exact hfrom.2.2
    | _ => exact absurd hcustom Bool.false_ne_true
  by_cases hd : isCompositeKey (i64Value d.label) = true
  · -- the arms of the composites do not look at the number of custom claims
    have harm : ∀ n, Metered limits (decodeClaim H limits composite n d.label v) := by
      intro n
      rcases (isCompositeKey_i64Value _).mp hd with hid | hid | hid
      · rw [hid, decodeClaim_or]
        exact (Metered.lift _).bind fun _ => (hcomp _ _ _).bind fun _ => .ret _
      · rw [hid, decodeClaim_nor]
        exact (Metered.lift _).bind fun _ => (hcomp _ _ _).bind fun _ => .ret _
      · rw [hid, decodeClaim_and]
        exact (Metered.lift _).bind fun _ => (hcomp _ _ _).bind fun _ => .ret _
    have hsame : ∀ n', decodeClaim H limits composite n' d.label v =
        decodeClaim H limits composite n d.label v := by
      intro n'
      rcases (isCompositeKey_i64Value _).mp hd with hid | hid | hid
      · rw [hid, decodeClaim_or, decodeClaim_or]
      · rw [hid, decodeClaim_nor, decodeClaim_nor]
      · rw [hid, decodeClaim_and, decodeClaim_and]
    obtain ⟨c, hc, hs⟩ := (harm n).sound h
    exact ⟨c, fun n' _ => hsame n' ▸ hc, hs⟩
  · rw [Bool.not_eq_true] at hd
    obtain ⟨c, hc, hs⟩ := hfrom.form hd
    exact ⟨c, hc.yields hd, hs⟩

/-! ## Room for custom claims

How many custom claims there may be depends on how many there are, so the entries are counted
along with the loop.
-/

theorem custom_len_insert (c : CustomClaims) {id : Int64} {v : Value}
    (h : isReservedClaimId id = false) (hid : id ∉ c.labels) :
    (c.insert id v h).len = c.len + 1 := by
  have hall : (c.entries.filter fun e => e.1 != id) = c.entries := by
    rw [List.filter_eq_self]
    intro e he
    rw [bne_iff_ne]
    rintro rfl
    exact hid (List.mem_map_of_mem he)
  show (c.entries.filter (fun e => e.1 != id) ++ [(id, v)]).length = _
  rw [hall, List.length_append]
  rfl

/-- Under a new label, a claim takes up the room of a custom claim if it is one. -/
theorem custom_len_assign_eq (t : CatToken) {d : DecodedClaim} (hd : d.label ∉ t.custom.labels) :
    (t.assign d).custom.len = t.custom.len + if d.isCustom then 1 else 0 := by
  cases d with
  | custom id h v => exact custom_len_insert t.custom h hd
  | catgeocoord x | geohash x | catifdata x | cnf x | catif x | catr x => cases x <;> rfl
  | _ => rfl

theorem mem_custom_labels_assign {t : CatToken} {d : DecodedClaim} {id : Int64}
    (h : id ∈ (t.assign d).custom.labels) : id ∈ t.custom.labels ∨ id = d.label := by
  have hother : (t.assign d).custom = t.custom → id ∈ t.custom.labels ∨ id = d.label :=
    fun heq => .inl (by rwa [heq] at h)
  cases d with
  | custom id' hid v =>
    obtain ⟨⟨k, w⟩, he, rfl⟩ := List.mem_map.mp h
    rcases (mem_insert hid).mp he with ⟨he, -⟩ | ⟨rfl, -⟩
    · exact .inl (List.mem_map_of_mem he)
    · exact .inr rfl
  | catgeocoord x | geohash x | catifdata x | cnf x | catif x | catr x => cases x <;> exact hother rfl
  | _ => exact hother rfl

/-! ## The claim map

The loop over the entries in terms of each of them.
-/

/-- The loop over the claim map, inverted. -/
theorem decodeEntries_yields (hcomp : MeteredComposites limits composite)
    {es : List (Value × Value)} : ∀ {t t' : CatToken} {s s' : DecodeCounters},
      decodeEntries H limits composite t es s = .ok (t', s') →
        ∃ xs, YieldsEntries H limits composite es xs ∧ s' = s + costOf xs ∧
          (Within limits s → Within limits s') ∧ t' = (xs.map Prod.fst).foldl CatToken.assign t ∧
          ((xs.map (·.1.label)).Nodup → (∀ x ∈ xs, x.1.label ∉ t.custom.labels) →
            t.custom.len ≤ limits.maxCustomClaims → t'.custom.len ≤ limits.maxCustomClaims) := by
  induction es with
  | nil =>
    intro t t' s s' h
    obtain ⟨rfl, rfl⟩ := StateT.pure_eq_ok.mp h
    exact ⟨[], .nil, (add_zero _).symm, id, rfl, fun _ _ => id⟩
  | cons e es ih =>
    obtain ⟨k, v⟩ := e
    intro t t' s s' h
    obtain ⟨_, s₁, hcount, h⟩ := StateT.bind_eq_ok.mp h
    obtain ⟨id, s₂, hlift, h⟩ := StateT.bind_eq_ok.mp h
    obtain ⟨d, s₃, hd, h⟩ := StateT.bind_eq_ok.mp h
    obtain ⟨hid, rfl⟩ := StateT.lift_eq_ok.mp hlift
    obtain ⟨_, rfl, rfl, hs₁⟩ := Counts.countItem.sound hcount
    obtain ⟨rfl, hroom, c, hc, rfl, hs₃⟩ := decodeClaim_yields hcomp hd
    obtain ⟨xs, hxs, rfl, hs', rfl, hlen⟩ := ih h
    refine ⟨(d, c) :: xs, .cons ⟨decodeClaimId_eq_ok.mp hid, hc⟩ hxs, ?_, ?_, rfl, ?_⟩
    · rw [costOf_cons]
      simp only [add_assoc]
    · exact fun hs => hs' (hs₃ (hs₁ hs))
    · intro hnd hnew ht
      rw [List.map_cons, List.nodup_cons] at hnd
      rw [List.forall_mem_cons] at hnew
      refine hlen hnd.2 (fun x hx hmem => ?_) ?_
      · rcases mem_custom_labels_assign hmem with hmem | heq
        · exact hnew.2 x hx hmem
        · exact hnd.1 (heq ▸ List.mem_map_of_mem hx)
      · rw [custom_len_assign_eq t hnew.1]
        by_cases hcustom : d.isCustom = true
        · rw [if_pos hcustom]
          exact hroom hcustom
        · rw [if_neg hcustom]
          exact ht

theorem custom_len_le_foldl {ds : List DecodedClaim} : ∀ {t : CatToken},
    (ds.map DecodedClaim.label).Nodup → (∀ d ∈ ds, d.label ∉ t.custom.labels) →
    t.custom.len ≤ (ds.foldl CatToken.assign t).custom.len := by
  induction ds with
  | nil => exact fun _ _ => Nat.le_refl _
  | cons d ds ih =>
    intro t hnd hnew
    rw [List.map_cons, List.nodup_cons] at hnd
    rw [List.forall_mem_cons] at hnew
    refine Nat.le_trans ?_ (ih hnd.2 fun d' hd' hmem => ?_)
    · rw [custom_len_assign_eq t hnew.1]
      exact Nat.le_add_right _ _
    · rcases mem_custom_labels_assign hmem with hmem | heq
      · exact hnew.2 d' hd' hmem
      · exact hnd.1 (heq ▸ List.mem_map_of_mem hd')

/-- And the way back. -/
theorem decodeEntries_of_yields {es : List (Value × Value)}
    {xs : List (DecodedClaim × DecodeCounters)} (h : YieldsEntries H limits composite es xs) :
    ∀ {t : CatToken} {s : DecodeCounters},
      (xs.map (·.1.label)).Nodup → (∀ x ∈ xs, x.1.label ∉ t.custom.labels) →
      ((xs.map Prod.fst).foldl CatToken.assign t).custom.len ≤ limits.maxCustomClaims →
      Within limits (s + costOf xs) →
      decodeEntries H limits composite t es s =
        .ok ((xs.map Prod.fst).foldl CatToken.assign t, s + costOf xs) := by
  induction h with
  | nil =>
    intro t s _ _ _ _
    show (Except.ok (t, s) : Except CatError (CatToken × DecodeCounters)) = .ok (t, s + 0)
    rw [add_zero]
  | @cons e x es xs hx _ ih =>
    obtain ⟨k, v⟩ := e
    obtain ⟨d, c⟩ := x
    obtain ⟨hk, hy⟩ := hx
    obtain rfl : k = i64Value d.label := hk
    intro t s hnd hnew hroom hs
    rw [List.map_cons, List.nodup_cons] at hnd
    rw [List.forall_mem_cons] at hnew
    have hnew' : ∀ x ∈ xs, x.1.label ∉ (t.assign d).custom.labels := by
      intro x hx hmem
      rcases mem_custom_labels_assign hmem with hmem | heq
      · exact hnew.2 x hx hmem
      · exact hnd.1 (heq ▸ List.mem_map_of_mem hx)
    rw [costOf_cons, ← add_assoc, ← add_assoc] at hs ⊢
    rw [decodeEntries_cons hs.of_add.of_add]
    · exact ih hnd.2 hnew' hroom hs
    · refine hy _ (fun hcustom => ?_) _ hs.of_add
      -- the token has this claim in the end, and no fewer custom claims than now
      have hlen := @custom_len_le_foldl (xs.map Prod.fst) (t.assign d)
        (by rw [List.map_map]; exact hnd.2) (by rw [List.forall_mem_map]; exact hnew')
      rw [custom_len_assign_eq t hnew.1, if_pos hcustom] at hlen
      exact Nat.lt_of_lt_of_le hlen hroom

/-! ## The payload

The recursion through composites is metered at every depth, by induction on the fuel; then the
whole decoder is.
-/

section
variable (H limits composite)

/-- How the bytes come to be the token, and at what cost. -/
structure PayloadYields (b : Bytes) (es : List (Value × Value))
    (xs : List (DecodedClaim × DecodeCounters)) : Prop where
  size_le : b.length ≤ limits.maxCborPayloadSize
  read_eq : H.cbor.read cborMaxRecursionDepth b = .ok (.map es, [])
  depth_le : walkDepth (.map es) ≤ limits.maxNestingDepth
  keys : (Value.map es).ValueMaps KeysChecked
  entries : YieldsEntries H limits composite es xs
  room : (tokenOf xs).custom.len ≤ limits.maxCustomClaims

end

theorem YieldsEntries.labels {es : List (Value × Value)}
    {xs : List (DecodedClaim × DecodeCounters)} (h : YieldsEntries H limits composite es xs) :
    es.map Prod.fst = (xs.map (·.1.label)).map i64Value := by
  induction h with
  | nil => rfl
  | cons hx _ ih => simp only [List.map_cons, ih, hx.1]

theorem YieldsEntries.nodup {es : List (Value × Value)}
    {xs : List (DecodedClaim × DecodeCounters)} (h : YieldsEntries H limits composite es xs)
    (hk : (Value.map es).ValueMaps KeysChecked) : (xs.map (·.1.label)).Nodup :=
  (Value.valueMaps_map.mp hk).1.labels_nodup h.labels

/-- **A payload is metered**, over composites that are. -/
theorem decodePayloadWith_counts (hcomp : MeteredComposites limits composite) (b : Bytes) :
    Counts limits (decodePayloadWith H limits composite b) fun t c =>
      ∃ es xs, PayloadYields H limits composite b es xs ∧ t = tokenOf xs ∧ c = costOf xs where
  sound := by
    intro s s' t h
    obtain ⟨es, s₁, hlift, h⟩ := StateT.bind_eq_ok.mp h
    obtain ⟨hmap, rfl⟩ := StateT.lift_eq_ok.mp hlift
    obtain ⟨hsize, hread, hord⟩ := readClaimsMap_ok hmap
    obtain ⟨hdepth, hkeys⟩ := validateCborMapOrderingLimited_eq_ok.mp hord
    obtain ⟨xs, hxs, hs', hwithin, rfl, hroom⟩ := decodeEntries_yields hcomp h
    refine ⟨costOf xs, ⟨es, xs, ⟨hsize, hread, hdepth, hkeys, hxs, ?_⟩, rfl, rfl⟩, hs', hwithin⟩
    exact hroom (hxs.nodup hkeys) (fun _ _ => List.not_mem_nil) (Nat.zero_le _)
  complete := by
    rintro s c t ⟨es, xs, hy, rfl, rfl⟩ hs
    have hord := validateCborMapOrderingLimited_eq_ok.mpr ⟨hy.depth_le, hy.keys⟩
    refine StateT.bind_eq_ok.mpr ⟨es, s, ?_, ?_⟩
    · exact StateT.lift_eq_ok.mpr ⟨readClaimsMap_eq_ok.mpr ⟨hy.size_le, hy.read_eq, hord⟩, rfl⟩
    · exact decodeEntries_of_yields hy.entries (hy.entries.nodup hy.keys)
        (fun _ _ => List.not_mem_nil) hy.room hs

theorem decodeTokenSet_metered {payload : Bytes → Decode CatToken}
    (hpayload : ∀ b, Metered limits (payload b)) (item : Value) :
    Metered limits (decodeClaimSet.decodeTokenSet H payload item) := by
  unfold decodeClaimSet.decodeTokenSet
  cases H.cbor.write item with
  | error e => exact .fail _
  | ok b => exact (hpayload b).bind fun t => .ret _

theorem decodeClaimSet_metered {nested : CompositeDecoder} {payload : Bytes → Decode CatToken}
    (hnested : MeteredComposites limits nested) (hpayload : ∀ b, Metered limits (payload b))
    (depth : Nat) (item : Value) :
    Metered limits (decodeClaimSet H limits nested payload depth item) := by
  unfold decodeClaimSet
  refine Counts.countItem.metered.bind fun _ => ?_
  cases item with
  | map es =>
    dsimp only
    split
    · rename_i k v
      split
      · cases k with
        | integer i =>
          dsimp only
          cases i.toI64? with
          | none => exact (Metered.fail _).bind fun _ => (hnested _ _ _).bind fun _ => .ret _
          | some id => exact (Metered.ret id).bind fun _ => (hnested _ _ _).bind fun _ => .ret _
        | _ => exact (Metered.fail _).bind fun _ => (hnested _ _ _).bind fun _ => .ret _
      · exact decodeTokenSet_metered hpayload _
    · exact decodeTokenSet_metered hpayload _
  | _ => exact .fail _

theorem decodeCompositeClaimWith_metered {nested : CompositeDecoder}
    {payload : Bytes → Decode CatToken} (hnested : MeteredComposites limits nested)
    (hpayload : ∀ b, Metered limits (payload b)) :
    MeteredComposites limits (decodeCompositeClaimWith H limits nested payload) := by
  intro id v depth
  refine (Counts.guard (Metered.bind (Metered.lift _) fun op => ?_)).metered
  have hrest (arr : List Value) : Metered limits (do
      let claims ← arr.mapM' (decodeClaimSet H limits nested payload depth)
      return (⟨op, claims⟩ : CompositeClaim)) :=
    (Metered.traverse (decodeClaimSet_metered hnested hpayload depth) arr).bind fun _ => .ret _
  cases v with
  | array vs => exact (Metered.ret vs).bind hrest
  | _ => exact (Metered.fail _).bind hrest

/-- **Composite claims are metered**, however deep they go. -/
theorem decodeCompositeClaimWithCounters_metered (H : Host) (limits : CwtLimits) (fuel : Nat) :
    MeteredComposites limits (decodeCompositeClaimWithCounters H limits fuel) := by
  induction fuel with
  | zero => exact fun _ _ _ => .fail _
  | succ fuel ih =>
    exact decodeCompositeClaimWith_metered ih fun b => (decodePayloadWith_counts ih b).metered

/-- The decoder of the composite claims of a payload. -/
abbrev payloadComposites (H : Host) (limits : CwtLimits) : CompositeDecoder :=
  decodeCompositeClaimWithCounters H limits (limits.maxNestingDepth + 2)

/-- **Decoding a payload**, with the counters left out of account until the end. -/
theorem decodePayloadWithLimitsAndCounters_eq_ok {b : Bytes} {t : CatToken} {c : DecodeCounters} :
    decodePayloadWithLimitsAndCounters H limits b {} = .ok (t, c) ↔
      ∃ es xs, PayloadYields H limits (payloadComposites H limits) b es xs ∧ t = tokenOf xs ∧
        c = costOf xs ∧ Within limits c := by
  have hcounts := decodePayloadWith_counts (H := H)
    (decodeCompositeClaimWithCounters_metered H limits (limits.maxNestingDepth + 2)) b
  have hzero : ({} : DecodeCounters) = 0 := rfl
  unfold decodePayloadWithLimitsAndCounters
  constructor
  · intro h
    obtain ⟨c', ⟨es, xs, hy, ht, rfl⟩, rfl, hs⟩ := hcounts.sound h
    rw [hzero, zero_add] at hs ⊢
    exact ⟨es, xs, hy, ht, rfl, hs (within_zero limits)⟩
  · rintro ⟨es, xs, hy, rfl, rfl, hs⟩
    have hrun := hcounts.complete (s := 0) ⟨es, xs, hy, rfl, rfl⟩ (by rwa [zero_add])
    rwa [zero_add] at hrun

theorem decodePayloadWithLimits_eq_ok {b : Bytes} {t : CatToken} :
    decodePayloadWithLimits H limits b = .ok t ↔
      ∃ es xs, PayloadYields H limits (payloadComposites H limits) b es xs ∧ t = tokenOf xs ∧
        Within limits (costOf xs) := by
  unfold decodePayloadWithLimits
  rw [Except.map_eq_ok]
  constructor
  · rintro ⟨⟨t', c⟩, h, rfl⟩
    obtain ⟨es, xs, hy, ht, rfl, hs⟩ := decodePayloadWithLimitsAndCounters_eq_ok.mp h
    exact ⟨es, xs, hy, ht, hs⟩
  · rintro ⟨es, xs, hy, rfl, hs⟩
    exact ⟨(tokenOf xs, costOf xs),
      decodePayloadWithLimitsAndCounters_eq_ok.mpr ⟨es, xs, hy, rfl, rfl, hs⟩, rfl⟩

end

end Cat
