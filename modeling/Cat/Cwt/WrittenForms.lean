import Cat.Cwt.Members
import Cat.Cwt.Written

/-!
# What the claims are read as

A claim that was written is read as `DecodedClaim.asRead` at the cost `DecodedClaim.cost`: as it
was, but for match rules, which come in the order of the wire, and for lists that are empty,
some of which are nothing (`reads_flat`). A token is therefore not read back as itself in
general, and `asRead` says by how much it is not: what is equal as a token of the profile, and
differs as a record.

The encoder does not look at everything the decoder asks. It refuses a double that is not
ordinary, but it writes a probability of 2, a zone beyond the poles or a renewal without a
period, which the decoder then refuses. What the decoder asks beyond the limits is
`DecodedClaim.Acceptable`, and what the limits ask of one claim by itself is
`DecodedClaim.Fits`; both are conditions on the claim as it was built, so they can be checked
before anything is signed.

The proof of `reads_flat` goes claim by claim: the encoder has one result (`written_eq`), that
value is its own normal form, so writing and reading leaves it as it is, and it is one of the
forms of `Forms` and `NumberForms`. Networks, scopes and composites are left out here. A network
may be written in a form that the decoder refuses, the other two nest, and each of the three has
a module.

The last part bounds the height of what is written: three levels for a claim of the profile. The
CBOR reader has a limit on depth of its own, and it is never what stops a flat token.
-/

set_option autoImplicit false

namespace Cat

open Cbor DecodeCounters

/-! ## Numbers

A number is written as an integer if it is one, and as a double otherwise; both forms are
accepted wherever a number is, so nothing depends on which of them it was. What has to be shown
is that the two conversions undo each other on the numbers that take that way.
-/

/-- **A number is read as it was written**, whichever of its two forms was shorter. -/
theorem numericValue_encodeNumberShortest {f : F64} (hf : f.Ordinary) :
    numericValue (encodeNumberShortest f) = some f := by
  unfold encodeNumberShortest
  split
  · rename_i h
    rw [Bool.and_eq_true, Bool.and_eq_true] at h
    obtain ⟨⟨-, hint⟩, hlt⟩ := h
    obtain ⟨hlo, hhi⟩ := F64.toInt_of_lt hf hint hlt
    show (Integer.toI64? _).map _ = some f
    rw [Integer.toI64?_ofI64, Option.map_some, Int64.toInt_ofInt_of_le (Int.le_of_lt hlo) hhi,
      F64.ofInt_toInt hf hint]
  · rfl

/-! ## Match rules

Rules and matches are maps on the wire, so they come back in the order of their labels. The
order has no meaning to a guard: a rule is met if one of its matches is.
-/

/-- In the order in which the labels stand in a map. The sort is stable, so rules with one label
    keep their order. -/
def inLabelOrder {α : Type} (label : α → Int64) (as : List α) : List α :=
  as.mergeSort fun a b => cborCanonicalKeyCmp (label a) (label b) ≠ .gt

theorem inLabelOrder_perm {α : Type} (label : α → Int64) (as : List α) :
    (inLabelOrder label as).Perm as := List.mergeSort_perm _ _

theorem integerSortKey_i64Value (n : Int64) : integerSortKey (i64Value n) = n := by
  show (Integer.ofI64 n).toI64?.getD _ = n
  rw [Integer.toI64?_ofI64]
  rfl

theorem sortIntegerKeyedMap_map {α : Type} {label : α → Int64} {f : α → Value × Value}
    (hf : ∀ a, (f a).1 = i64Value (label a)) (as : List α) :
    sortIntegerKeyedMap (as.map f) = (inLabelOrder label as).map f := by
  unfold sortIntegerKeyedMap inLabelOrder
  refine (List.map_mergeSort fun a _ b _ => ?_).symm
  rw [hf, hf, integerSortKey_i64Value, integerSortKey_i64Value]

/-- The matches of a rule as they are read. -/
def matchesAsRead (ms : List MatchValue) : List MatchValue := inLabelOrder MatchValue.matchType ms

def UriMatchRule.asRead (r : UriMatchRule) : UriMatchRule := ⟨r.component, matchesAsRead r.matches_⟩
def HeaderMatchRule.asRead (r : HeaderMatchRule) : HeaderMatchRule := ⟨r.name, matchesAsRead r.matches_⟩

def uriRulesAsRead (rs : List UriMatchRule) : List UriMatchRule :=
  (inLabelOrder UriMatchRule.component rs).map UriMatchRule.asRead

/-- What is written for the matches of a rule is what would be written for them in the order of the
    wire. -/
theorem encodeMatchMap_eq (ms : List MatchValue) :
    encodeMatchMap ms = matchEntries (matchesAsRead ms) := by
  unfold encodeMatchMap matchEntries matchesAsRead
  rw [sortIntegerKeyedMap_map encodeMatchValue_key]

theorem normal_matchEntries (ms : List MatchValue) : (matchEntries ms).Normal := by
  unfold matchEntries
  rw [Value.normal_map, List.forall_mem_map]
  intro m _
  rw [encodeMatchValue_key]
  exact ⟨rfl, (encodeMatchValue_flat m).readBack⟩

theorem catu_eq (rs : List UriMatchRule) :
    sortIntegerKeyedMap (rs.map fun rule => (i64Value rule.component, encodeMatchMap rule.matches_)) =
      (uriRulesAsRead rs).map uriRuleEntry := by
  have hkey : ∀ rule : UriMatchRule, (i64Value rule.component, encodeMatchMap rule.matches_).1 =
      i64Value rule.component := fun _ => rfl
  rw [sortIntegerKeyedMap_map hkey, uriRulesAsRead,
    List.map_map]
  exact List.map_congr_left fun r _ => Prod.ext rfl (encodeMatchMap_eq r.matches_)

theorem cath_eq (rs : List HeaderMatchRule) :
    (rs.map fun rule => (Value.text rule.name, encodeMatchMap rule.matches_)) =
      (rs.map HeaderMatchRule.asRead).map headerRuleEntry := by
  rw [List.map_map]
  exact List.map_congr_left fun r _ => Prod.ext rfl (encodeMatchMap_eq r.matches_)

theorem matchesCost_asRead (ms : List MatchValue) : matchesCost (matchesAsRead ms) = matchesCost ms :=
  ((inLabelOrder_perm _ ms).map matchCost).sum_eq

/-- The order of the rules costs nothing. -/
theorem uriRulesCost_asRead (rs : List UriMatchRule) :
    ((uriRulesAsRead rs).map uriRuleCost).sum = (rs.map uriRuleCost).sum := by
  unfold uriRulesAsRead
  rw [List.map_map, ((inLabelOrder_perm _ rs).map _).sum_eq]
  congr 1
  refine List.map_congr_left fun r _ => ?_
  show matchesCost (matchesAsRead r.matches_) + uriCost 1 = _
  rw [matchesCost_asRead]
  rfl

theorem headerRulesCost_asRead (rs : List HeaderMatchRule) :
    ((rs.map HeaderMatchRule.asRead).map headerRuleCost).sum = (rs.map headerRuleCost).sum := by
  rw [List.map_map]
  congr 1
  exact List.map_congr_left fun r _ => matchesCost_asRead r.matches_

/-! ## Claims

Three functions of one claim. `asRead` is what it comes back as, `Acceptable` what the decoder
asks of its value, and `Fits` what its limits ask. Each is by cases over the claims, and
everything after this section speaks of a claim without saying which.
-/

/-- A list that is nothing when it is empty. -/
def unlessNil {α : Type} (as : List α) : Option (List α) := if as.isEmpty then none else some as

/-- An action as it is read: an empty header map is none. -/
def CatIfAction.asRead (a : CatIfAction) : CatIfAction := { a with headers := a.headers.bind unlessNil }

/-- Actions as they are read: by claim key. -/
def catifAsRead (as : List (Int64 × CatIfAction)) : List (Int64 × CatIfAction) :=
  (as.mergeSort fun a b => a.1.toInt ≤ b.1.toInt).map fun e => (e.1, e.2.asRead)

/-- What a claim is read as once it is written. -/
def DecodedClaim.asRead : DecodedClaim → DecodedClaim
  | .catu rs => .catu (uriRulesAsRead rs)
  | .cath rs => .cath (rs.map HeaderMatchRule.asRead)
  | .catgeocoord x => .catgeocoord (x.bind unlessNil)
  | .geohash x => .geohash (x.bind unlessNil)
  | .catifdata x => .catifdata (x.bind unlessNil)
  | .catif x => .catif (x.bind fun as => unlessNil (catifAsRead as))
  | .custom id h v => .custom id h v.readBack
  | d => d

/-- What reading a claim moves the counters by. A single text in `geohash` or `catifdata` is not
    counted, as it is not an array. -/
def DecodedClaim.cost : DecodedClaim → DecodeCounters
  | .iss s | .sub s => stringCost (utf8 s).length
  | .aud ss => (ss.map audienceCost).sum
  | .catnip ns => itemCost ns.length
  | .catu rs => (rs.map uriRuleCost).sum
  | .catm ss | .catgeoiso3166 ss => itemCost ss.length
  | .catalpn as => itemCost as.length
  | .cath rs => (rs.map headerRuleCost).sum
  | .catgeocoord (some cs) => itemCost cs.length
  | .catifdata (some ss) => if ss.length = 1 then 0 else itemCost ss.length
  | .catif (some as) => itemCost as.length
  | .catr (some r) => itemCost (catrMap r).length
  | _ => 0

/-- What the decoder asks of an action. -/
structure CatIfAction.Acceptable (H : Host) (a : CatIfAction) : Prop where
  status : CatIfAction.new a.status = .ok ⟨a.status, none, none⟩
  headers : ∀ hs ∈ a.headers, ensureHeadersClean H hs = .ok ()

/-- What the decoder asks of a renewal: a period, which is positive, and ordinary doubles. The
    encoder writes a renewal without a period. -/
structure CatRenewal.Acceptable (r : CatRenewal) : Prop where
  expadd : ∃ ea, r.expadd = some ea ∧ F64.le ea (F64.ofInt 0) = false
  ordinary : ∀ f, r.expadd = some f ∨ r.deadline = some f → f.Ordinary

/-- What the decoder asks of a place: a latitude and a longitude. -/
def GeoCoordinate.InRange (c : GeoCoordinate) : Prop :=
  F64.lt (F64.ofInt 90) c.lat.abs = false ∧ F64.lt (F64.ofInt 180) c.lon.abs = false

/-- What the decoder asks of a claim, limits apart. -/
def DecodedClaim.Acceptable (H : Host) : DecodedClaim → Prop
  | .catpor p => F64.le (F64.ofInt 0) p.probability = true ∧ F64.le p.probability (F64.ofInt 1) = true
  | .catgeocoord (some cs) => ∀ c ∈ cs, c.InRange
  | .catdpop s => s.validateCrit = .ok ()
  | .catif (some as) => ∀ a ∈ as, a.2.Acceptable H
  | .catr (some r) => r.Acceptable
  | _ => True

/-- The limits on a claim by itself. -/
def DecodedClaim.Fits (limits : CwtLimits) : DecodedClaim → Prop
  | .iss s | .sub s => (utf8 s).length ≤ limits.maxStringClaimLength
  | .aud ss => ∀ s ∈ ss, (utf8 s).length ≤ limits.maxStringClaimLength
  | .catm ss => ss.length ≤ 50
  | .catalpn as => as.length ≤ 50
  | _ => True

/-- Everything but networks, scopes and composites, which have their own accounts. A custom claim is
    flat unless its key is that of a composite: then the decoder reads it as one. -/
def DecodedClaim.isFlat : DecodedClaim → Bool
  | .catnip _ | .moqt _ | .orClaim _ | .norClaim _ | .andClaim _ => false
  | .custom id _ _ => !isCompositeKey (i64Value id)
  | _ => true

/-! ## Members

`cnf`, `catdpop`, `catr` and `catif` are maps, so each needs a small loop of its own over the
members that are there.
-/

theorem decodeCnfMembers_cnfMap (c : ConfirmationClaim) :
    decodeCnfMembers [] none (cnfMap c) = .ok (c.jkt, c.ckt) := by
  obtain ⟨jkt, ckt⟩ := c
  cases ckt with
  | none => cases jkt <;> rfl
  | some k => cases jkt <;> rfl

theorem decodeCritKeys (ks : List Int64) : (ks.map i64Value).mapM' decodeCritKey = .ok ks := by
  rw [Except.mapM'_eq_ok, List.forall₂_map_left_iff, List.forall₂_same]
  intro k _
  simp [decodeCritKey, i64Value, Integer.toI64?_ofI64]

/-- One member after another. The loop stops at the first member it refuses, so what comes before
    must be read. -/
theorem decodeCatdpopMembers_append {s s' : CatDpopSettings} {es es' : List (Value × Value)}
    (h : decodeCatdpopMembers s es = .ok s') :
    decodeCatdpopMembers s (es ++ es') = decodeCatdpopMembers s' es' := by
  induction es generalizing s with
  | nil =>
    obtain rfl := Except.ok.inj h
    rfl
  | cons e es ih =>
    obtain ⟨k, v⟩ := e
    unfold decodeCatdpopMembers at h
    rw [List.cons_append, decodeCatdpopMembers]
    cases hm : decodeCatdpopMember s k v with
    | error e =>
      rw [hm] at h
      exact absurd h (by simp)
    | ok s₁ =>
      rw [hm] at h
      exact ih h

theorem decodeCatdpopMembers_singleton {s s' : CatDpopSettings} {k v : Value}
    (h : decodeCatdpopMember s k v = .ok s') : decodeCatdpopMembers s [(k, v)] = .ok s' := by
  rw [decodeCatdpopMembers, h]
  rfl

theorem decodeCatdpopMember_window (s : CatDpopSettings) {w : Int64}
    (hw : 1 ≤ w.toInt ∧ w.toInt ≤ catdpopMaxWindowSecs.toInt) :
    decodeCatdpopMember s (i64Value catdpopWindow) (i64Value w) =
      .ok (s.setWindowFromDecode w hw) := by
  unfold decodeCatdpopMember
  simp only [catdpopWindow, i64Value, Integer.toI64?_ofI64]
  exact dif_pos hw

theorem decodeCatdpopMember_honorJti (s : CatDpopSettings) (honor : Bool) :
    decodeCatdpopMember s (i64Value catdpopHonorJti) (i64Value (if honor then 1 else 0)) =
      .ok (s.setHonorJtiFromDecode honor) := by
  cases honor <;> rfl

theorem decodeCatdpopMember_crit (s : CatDpopSettings) (ks : List Int64) :
    decodeCatdpopMember s (i64Value catdpopCrit) (.array (ks.map i64Value)) =
      .ok (s.setCritFromDecode ks) := by
  show ((ks.map i64Value).mapM' decodeCritKey >>= fun ks => pure (s.setCritFromDecode ks)) = _
  rw [decodeCritKeys]
  rfl

theorem catdpopMap_eq (s : CatDpopSettings) : catdpopMap s =
    optMember catdpopWindow s.window i64Value ++
      (optMember catdpopHonorJti s.honorJti (fun honor => i64Value (if honor then 1 else 0)) ++
        optMember catdpopCrit s.crit fun crit => .array (crit.map i64Value)) := by
  obtain ⟨crit, window, honor, hw⟩ := s
  cases window <;> cases honor <;> cases crit <;> rfl

/-- **DPoP settings are read as they were written.** Each of the three members may be missing, and
    is then missing in what is read. -/
theorem decodeCatdpopMembers_catdpopMap (s : CatDpopSettings) :
    decodeCatdpopMembers .new (catdpopMap s) = .ok s := by
  rw [catdpopMap_eq]
  obtain ⟨crit, window, honor, hw⟩ := s
  have hwindow : decodeCatdpopMembers .new (optMember catdpopWindow window i64Value) =
      .ok ⟨none, window, none, hw⟩ := by
    cases window with
    | none => rfl
    | some w => exact decodeCatdpopMembers_singleton (decodeCatdpopMember_window _ (hw w rfl))
  have hhonor : decodeCatdpopMembers ⟨none, window, none, hw⟩ (optMember catdpopHonorJti honor
      fun honor => i64Value (if honor then 1 else 0)) = .ok ⟨none, window, honor, hw⟩ := by
    cases honor with
    | none => rfl
    | some b => exact decodeCatdpopMembers_singleton (decodeCatdpopMember_honorJti _ b)
  have hcrit : decodeCatdpopMembers ⟨none, window, honor, hw⟩ (optMember catdpopCrit crit
      fun crit => .array (crit.map i64Value)) = .ok ⟨crit, window, honor, hw⟩ := by
    cases crit with
    | none => rfl
    | some ks => exact decodeCatdpopMembers_singleton (decodeCatdpopMember_crit _ ks)
  rw [decodeCatdpopMembers_append hwindow, decodeCatdpopMembers_append hhonor]
  exact hcrit

/-- The loop over two runs of members, put together. -/
theorem CatrMembers.append {es es' : List (Value × Value)} : ∀ {p q r : CatrParts},
    CatrMembers p es q → CatrMembers q es' r → CatrMembers p (es ++ es') r := by
  induction es with
  | nil =>
    intro p q r h h'
    obtain rfl : p = q := h
    exact h'
  | cons e es ih =>
    obtain ⟨k, v⟩ := e
    rintro p q r ⟨key, p', hk, hp, h⟩ h'
    exact ⟨key, p', hk, hp, ih h h'⟩

/-- A member that may be missing. -/
theorem CatrMembers.optional {α : Type} {label : Int64} {x : Option α} {f : α → Value}
    {p q : CatrParts} (hnone : x = none → p = q)
    (hsome : ∀ a, x = some a → decodeCatrMember p label (f a) = .ok q) :
    CatrMembers p (optMember label x f) q := by
  cases x with
  | none => exact hnone rfl
  | some a => exact ⟨label, q, rfl, hsome a rfl, rfl⟩

theorem toU32?_u32Value (n : UInt32) : ∃ i, u32Value n = .integer i ∧ i.toU32? = some n :=
  ⟨_, rfl, integer_eq_u32Value.mp rfl⟩

/-- **The members of a renewal are read as they were written.** -/
theorem catrMembers_catrMap (r : CatRenewal)
    (hr : ∀ f, r.expadd = some f ∨ r.deadline = some f → f.Ordinary) :
    CatrMembers {} (catrMap r) ⟨some r.renewalType, r.expadd, r.deadline, r.cookieName,
      r.headerName, r.cookieParams, r.headerParams, r.statusCode⟩ := by
  obtain ⟨rt, ea, dl, cn, hn, cp, hp, sc⟩ := r
  -- each member is read as the part it was written from
  have hpart {p : CatrParts} {label : Int64} {v : Value} (part : CatrPart) (hlabel : part.label = label)
      (hform : part.Form v) : decodeCatrMember p label v = .ok (p.assign part) :=
    decodeCatrMember_eq_ok.mpr ⟨part, hlabel, hform, rfl⟩
  have htype : CatrMembers {} [(i64Value catrType, u32Value rt.toU32)]
      ⟨some rt, none, none, none, none, none, none, none⟩ :=
    ⟨catrType, _, rfl, hpart (.renewalType rt) rfl rfl, rfl⟩
  have hexpadd : CatrMembers ⟨some rt, none, none, none, none, none, none, none⟩
      (optMember catrExpadd ea encodeNumberShortest)
      ⟨some rt, ea, none, none, none, none, none, none⟩ :=
    .optional (by rintro rfl; rfl) fun f hf => hf ▸ hpart (.expadd f) rfl
      ⟨numericValue_encodeNumberShortest (hr f (.inl hf)), hr f (.inl hf)⟩
  have hdeadline : CatrMembers ⟨some rt, ea, none, none, none, none, none, none⟩
      (optMember catrDeadline dl encodeNumberShortest)
      ⟨some rt, ea, dl, none, none, none, none, none⟩ :=
    .optional (by rintro rfl; rfl) fun f hf => hf ▸ hpart (.deadline f) rfl
      ⟨numericValue_encodeNumberShortest (hr f (.inr hf)), hr f (.inr hf)⟩
  have hcookie : CatrMembers ⟨some rt, ea, dl, none, none, none, none, none⟩
      (optMember catrCookieName cn .text) ⟨some rt, ea, dl, cn, none, none, none, none⟩ :=
    .optional (by rintro rfl; rfl) fun s hs => hs ▸ hpart (.cookieName s) rfl rfl
  have hheader : CatrMembers ⟨some rt, ea, dl, cn, none, none, none, none⟩
      (optMember catrHeaderName hn .text) ⟨some rt, ea, dl, cn, hn, none, none, none⟩ :=
    .optional (by rintro rfl; rfl) fun s hs => hs ▸ hpart (.headerName s) rfl rfl
  have hcookies : CatrMembers ⟨some rt, ea, dl, cn, hn, none, none, none⟩
      (optMember catrAdditionalCookieParams cp textArray)
      ⟨some rt, ea, dl, cn, hn, cp, none, none⟩ :=
    .optional (by rintro rfl; rfl) fun ss hss => hss ▸ hpart (.cookieParams ss) rfl rfl
  have hheaders : CatrMembers ⟨some rt, ea, dl, cn, hn, cp, none, none⟩
      (optMember catrAdditionalHeaderParams hp textArray)
      ⟨some rt, ea, dl, cn, hn, cp, hp, none⟩ :=
    .optional (by rintro rfl; rfl) fun ss hss => hss ▸ hpart (.headerParams ss) rfl rfl
  have hstatus : CatrMembers ⟨some rt, ea, dl, cn, hn, cp, hp, none⟩
      (optMember catrStatusCode sc u32Value) ⟨some rt, ea, dl, cn, hn, cp, hp, sc⟩ :=
    .optional (by rintro rfl; rfl) fun n hn => hn ▸ hpart (.statusCode n) rfl rfl
  exact ((((((htype.append hexpadd).append hdeadline).append hcookie).append hheader).append
    hcookies).append hheaders).append hstatus

theorem decodeCatifHeaders_encode (hs : List (String × String)) :
    decodeCatifHeaders (.map (hs.map fun h => (.text h.1, .text h.2))) = .ok (unlessNil hs) := by
  cases hs with
  | nil => rfl
  | cons h hs =>
    show (((h :: hs).map fun h => (Value.text h.1, Value.text h.2)).mapM' decodeCatifHeader).map some =
      .ok (some (h :: hs))
    rw [Except.map_eq_ok]
    refine ⟨h :: hs, ?_, rfl⟩
    rw [Except.mapM'_eq_ok, List.forall₂_map_left_iff, List.forall₂_same]
    exact fun _ _ => rfl

theorem ok_bind {α β : Type} (a : α) (f : α → Except CatError β) : (Except.ok a >>= f) = f a := rfl

theorem decodeCatifAction_encode {H : Host} {a : CatIfAction} (ha : a.Acceptable H) :
    ∃ vs, encodeCatifAction a = .array vs ∧ decodeCatifAction H vs = .ok a.asRead := by
  obtain ⟨status, headers, kid⟩ := a
  obtain ⟨i, hi, hn⟩ := toU32?_u32Value status
  have hnew : CatIfAction.new status = .ok ⟨status, none, none⟩ := ha.status
  have hclean (hs : List (String × String)) (h : headers = some hs) :
      CatIfAction.withHeaders H ⟨status, none, none⟩ hs = .ok ⟨status, some hs, none⟩ := by
    unfold CatIfAction.withHeaders
    rw [ha.headers hs h]
    rfl
  refine ⟨_, rfl, ?_⟩
  cases headers with
  | none =>
    cases kid with
    | none => simp [decodeCatifAction, hi, hn, hnew, CatIfAction.asRead]
    | some k =>
      simp [decodeCatifAction, hi, hn, hnew, CatIfAction.asRead, decodeCatifHeaders, ok_bind]
  | some hs =>
    have hhs := hclean hs rfl
    have hback := decodeCatifHeaders_encode hs
    -- an empty header map is read as none, and then there are no headers to attach
    cases hs with
    | nil =>
      cases kid <;>
      simp [decodeCatifAction, hi, hn, hnew, CatIfAction.asRead, decodeCatifHeaders, unlessNil, ok_bind]
    | cons h hs =>
      rw [List.map_cons] at hback
      cases kid <;>
      simp [decodeCatifAction, hi, hn, hnew, hhs, hback, CatIfAction.asRead, unlessNil, ok_bind]

theorem normal_encodeCatifAction (a : CatIfAction) : (encodeCatifAction a).Normal := by
  have htexts (hs : List (String × String)) :
      (Value.map (hs.map fun h => (.text h.1, .text h.2))).Normal := by
    rw [Value.normal_map, List.forall_mem_map]
    exact fun _ _ => ⟨rfl, rfl⟩
  obtain ⟨status, headers, kid⟩ := a
  unfold encodeCatifAction
  rw [Value.normal_array]
  intro v hv
  rw [List.mem_append, List.mem_append] at hv
  rcases hv with (hv | hv) | hv
  · obtain rfl := List.mem_singleton.mp hv
    exact (flat_u32Value status).readBack
  · cases headers with
    | none => exact absurd hv List.not_mem_nil
    | some hs =>
      obtain rfl := List.mem_singleton.mp hv
      exact htexts hs
  · cases kid with
    | none => exact absurd hv List.not_mem_nil
    | some k =>
      rcases List.mem_append.mp hv with hv | hv
      · split at hv
        · obtain rfl := List.mem_singleton.mp hv
          exact htexts []
        · exact absurd hv List.not_mem_nil
      · obtain rfl := List.mem_singleton.mp hv
        rfl

/-- **Actions are read as they were written**, by claim key. -/
theorem catifForm_encode {H : Host} {as : List (Int64 × CatIfAction)}
    (has : ∀ a ∈ as, a.2.Acceptable H) {v : Value}
    (hv : v = .map ((as.mergeSort fun a b => a.1.toInt ≤ b.1.toInt).map
      fun e => (i64Value e.1, encodeCatifAction e.2))) :
    CatifForm H v.readBack (unlessNil (catifAsRead as)) (itemCost as.length) := by
  have hnormal : v.Normal := by
    rw [hv, Value.normal_map, List.forall_mem_map]
    exact fun e _ => ⟨rfl, normal_encodeCatifAction e.2⟩
  rw [hnormal]
  refine ⟨_, catifAsRead as, hv, ?_, rfl, ?_⟩
  · unfold catifAsRead
    rw [List.forall₂_map_left_iff, List.forall₂_map_right_iff, List.forall₂_same]
    intro e he
    obtain ⟨vs, hvs, hdec⟩ := decodeCatifAction_encode (has e (List.mem_mergeSort.mp he))
    exact ⟨rfl, vs, hvs, hdec⟩
  · rw [catifAsRead, List.length_map, List.length_mergeSort]

/-! ## Every claim

One lemma for each claim, from its form in `Forms`, and then the theorem that goes through them.
-/

section
variable {H : Host} {limits : CwtLimits}

/-- An encoder has one result. This is how each case below gets at the value: by naming it and
    letting `rfl` compare. -/
theorem written_eq {e : Encoded} {x v : Value} (he : e = .ok (some x)) (hv : e = .ok (some v)) :
    v = x := by
  rw [he] at hv
  exact (Option.some.inj (Except.ok.inj hv)).symm

/-- A claim that is not written has no value to be read. -/
theorem not_written {v : Value} : ¬(Except.ok none : Encoded) = .ok (some v) := by simp

theorem normal_textArray (ss : List String) : (textArray ss).Normal := (flat_textArray ss).readBack

theorem normal_i64s (ks : List Int64) : (Value.array (ks.map i64Value)).Normal := by
  rw [Value.normal_array, List.forall_mem_map]
  exact fun _ _ => rfl

theorem normal_cnfMap (c : ConfirmationClaim) : (Value.map (cnfMap c)).Normal := by
  obtain ⟨jkt, ckt⟩ := c
  cases ckt <;> cases jkt <;> rfl

theorem normal_optMember {α : Type} {label : Int64} {x : Option α} {f : α → Value}
    (hf : ∀ a, (f a).Normal) : ∀ e ∈ optMember label x f, e.1.Normal ∧ e.2.Normal := by
  intro e he
  cases x with
  | none => exact absurd he List.not_mem_nil
  | some a =>
    obtain rfl := List.mem_singleton.mp he
    exact ⟨rfl, hf a⟩

theorem normal_catdpopMap (s : CatDpopSettings) : (Value.map (catdpopMap s)).Normal := by
  rw [catdpopMap_eq, Value.normal_map, List.forall_mem_append, List.forall_mem_append]
  exact ⟨normal_optMember fun _ => rfl, normal_optMember fun _ => rfl, normal_optMember normal_i64s⟩

theorem normal_catrMap (r : CatRenewal) : (Value.map (catrMap r)).Normal := by
  have hnumber (f : F64) : (encodeNumberShortest f).Normal := (flat_encodeNumberShortest f).readBack
  unfold catrMap
  simp only [Value.normal_map, List.forall_mem_append, List.forall_mem_singleton]
  exact ⟨⟨⟨⟨⟨⟨⟨⟨rfl, rfl⟩, normal_optMember hnumber⟩, normal_optMember hnumber⟩,
    normal_optMember fun _ => rfl⟩, normal_optMember fun _ => rfl⟩,
    normal_optMember normal_textArray⟩, normal_optMember normal_textArray⟩,
    normal_optMember fun _ => rfl⟩

/-- What the encoder of a probability of rejection has looked at: that the probability is ordinary,
    and not that it is one. -/
theorem encode_catpor {p : ProbabilityOfRejection} {v : Value}
    (hv : (DecodedClaim.catpor p).encode H = .ok (some v)) : p.probability.Ordinary ∧
      v = .array ([encodeNumberShortest p.probability, .bytes p.id] ++
        (p.expiration.map i64Value).toList) := by
  have h' : encodeCatpor (CatToken.new.assign (.catpor p)) = .ok (some v) := hv
  obtain ⟨p', hp', h⟩ := whenSome_eq_ok.mp h'
  obtain rfl := Option.some.inj hp'
  obtain ⟨_, hord, h⟩ := Except.bind_eq_ok.mp h
  obtain rfl := Except.pure_eq_ok.mp h
  refine ⟨validateFloat_eq_ok.mp (Failure.lift_eq_ok.mp hord), ?_⟩
  cases p.expiration <;> rfl

theorem normal_catpor (p : ProbabilityOfRejection) :
    (Value.array ([encodeNumberShortest p.probability, .bytes p.id] ++
      (p.expiration.map i64Value).toList)).Normal := by
  rw [Value.normal_array]
  intro v hv
  rcases List.mem_append.mp hv with hv | hv
  · rw [List.mem_pair] at hv
    rcases hv with rfl | rfl
    · exact (flat_encodeNumberShortest p.probability).readBack
    · rfl
  · obtain ⟨n, -, rfl⟩ := Option.map_eq_some_iff.mp (Option.mem_toList.mp hv)
    rfl

theorem catporForm_encode {p : ProbabilityOfRejection} {v : Value}
    (hv : (DecodedClaim.catpor p).encode H = .ok (some v))
    (hp : F64.le (F64.ofInt 0) p.probability = true ∧ F64.le p.probability (F64.ofInt 1) = true) :
    CatporForm v.readBack p := by
  obtain ⟨hord, rfl⟩ := encode_catpor hv
  rw [normal_catpor]
  exact ⟨_, rfl, numericValue_encodeNumberShortest hord, hord, hp⟩

theorem zoneForm_encode {c : GeoCoordinate} (hlat : c.lat.Ordinary) (hlon : c.lon.Ordinary)
    (hc : c.InRange) :
    ZoneForm (.array [encodeNumberShortest c.lat, encodeNumberShortest c.lon, u32Value c.radius]) c :=
  ⟨_, _, _, rfl, numericValue_encodeNumberShortest hlat, numericValue_encodeNumberShortest hlon,
    .inl rfl, hlat, hlon, hc⟩

/-- What the encoder of zones has looked at. -/
theorem encode_catgeocoord {cs : List GeoCoordinate} {v : Value}
    (hv : (DecodedClaim.catgeocoord (some cs)).encode H = .ok (some v)) :
    (∀ c ∈ cs, c.lat.Ordinary ∧ c.lon.Ordinary) ∧ v = .array (cs.map fun c =>
      .array [encodeNumberShortest c.lat, encodeNumberShortest c.lon, u32Value c.radius]) := by
  have h' : encodeCatgeocoord (CatToken.new.assign (.catgeocoord (some cs))) = .ok (some v) := hv
  obtain ⟨cs', hcs', h⟩ := whenSome_eq_ok.mp h'
  obtain rfl := Option.some.inj hcs'
  obtain ⟨_, hall, h⟩ := Except.bind_eq_ok.mp h
  obtain rfl := Except.pure_eq_ok.mp h
  refine ⟨fun c hc => ?_, rfl⟩
  obtain ⟨_, hlat, hlon⟩ := Except.bind_eq_ok.mp (Except.forM_eq_ok.mp hall c hc)
  exact ⟨validateFloat_eq_ok.mp (Failure.lift_eq_ok.mp hlat),
    validateFloat_eq_ok.mp (Failure.lift_eq_ok.mp hlon)⟩

theorem catgeocoordForm_encode {cs : List GeoCoordinate} {v : Value}
    (hv : (DecodedClaim.catgeocoord (some cs)).encode H = .ok (some v)) (hcs : ∀ c ∈ cs, c.InRange) :
    CatgeocoordForm v.readBack (unlessNil cs) (itemCost cs.length) := by
  obtain ⟨hord, rfl⟩ := encode_catgeocoord hv
  have hnormal : (Value.array (cs.map fun c => .array [encodeNumberShortest c.lat,
      encodeNumberShortest c.lon, u32Value c.radius])).Normal := by
    rw [Value.normal_array, List.forall_mem_map]
    intro c _
    rw [Value.normal_array]
    have hnumber (f : F64) : (encodeNumberShortest f).readBack = encodeNumberShortest f :=
      (flat_encodeNumberShortest f).readBack
    simp [hnumber, (flat_u32Value c.radius).readBack, Value.Normal]
  rw [hnormal]
  refine ⟨_, cs, .inl ⟨rfl, fun _ => by simp⟩, ?_, rfl, rfl⟩
  rw [List.forall₂_map_left_iff, List.forall₂_same]
  exact fun c hc => zoneForm_encode (hord c hc).1 (hord c hc).2 (hcs c hc)

theorem catgeoaltForm_encode {a : GeoAltitude} {v : Value}
    (hv : (DecodedClaim.catgeoalt a).encode H = .ok (some v)) : CatgeoaltForm v.readBack a := by
  have h' : encodeCatgeoalt (CatToken.new.assign (.catgeoalt a)) = .ok (some v) := hv
  obtain ⟨a', ha', h⟩ := whenSome_eq_ok.mp h'
  obtain rfl := Option.some.inj ha'
  obtain ⟨_, halt, h⟩ := Except.bind_eq_ok.mp h
  obtain ⟨_, hdev, h⟩ := Except.bind_eq_ok.mp h
  obtain rfl := Except.pure_eq_ok.mp h
  have halt := validateFloat_eq_ok.mp (Failure.lift_eq_ok.mp halt)
  have hdev := validateFloat_eq_ok.mp (Failure.lift_eq_ok.mp hdev)
  refine ⟨encodeNumberShortest a.altitude, encodeNumberShortest a.deviation, .inl ⟨?_, fun x => ?_⟩,
    numericValue_encodeNumberShortest halt, numericValue_encodeNumberShortest hdev, halt, hdev⟩
  · have hnumber (f : F64) : (encodeNumberShortest f).readBack = encodeNumberShortest f :=
      (flat_encodeNumberShortest f).readBack
    simp [Value.readBack, Value.readBackList, hnumber]
  · simp [Value.readBack]

theorem moqtReval_encode {f : F64} {v : Value}
    (hv : (DecodedClaim.moqtReval f).encode H = .ok (some v)) :
    numericValue v.readBack = some f ∧ f.Ordinary := by
  have h' : encodeMoqtReval (CatToken.new.assign (.moqtReval f)) = .ok (some v) := hv
  obtain ⟨f', hf', h⟩ := whenSome_eq_ok.mp h'
  obtain rfl := Option.some.inj hf'
  obtain ⟨_, hord, h⟩ := Except.bind_eq_ok.mp h
  obtain rfl := Except.pure_eq_ok.mp h
  have hord := validateFloat_eq_ok.mp (Failure.lift_eq_ok.mp hord)
  rw [(flat_encodeNumberShortest f).readBack]
  exact ⟨numericValue_encodeNumberShortest hord, hord⟩

/-- One text is written as itself, any other number of them as an array. -/
theorem textsForm_encode (ss : List String) : TextsForm (textOrArray ss).readBack (unlessNil ss)
    (if ss.length = 1 then 0 else itemCost ss.length) := by
  rw [(flat_textOrArray ss).readBack]
  match ss with
  | [s] => exact .inl ⟨s, rfl, rfl, rfl⟩
  | [] => exact .inr ⟨[], rfl, rfl, rfl⟩
  | s :: s' :: ss => exact .inr ⟨s :: s' :: ss, rfl, rfl, if_neg (by simp)⟩

theorem geohashForm_encode (hs : List String) :
    GeohashForm (textOrArray hs).readBack (unlessNil hs) := by
  rw [(flat_textOrArray hs).readBack]
  match hs with
  | [s] => exact .inl ⟨s, rfl, .inl ⟨rfl, fun x => by simp [textOrArray]⟩⟩
  | [] => exact .inr ⟨[], rfl, .inl ⟨rfl, fun x => by simp [textOrArray, textArray]⟩⟩
  | s :: s' :: ss =>
    exact .inr ⟨s :: s' :: ss, rfl, .inl ⟨rfl, fun x => by simp [textOrArray, textArray]⟩⟩

/-- **A claim that was written is read as `asRead`**, if the decoder accepts it. -/
theorem reads_flat {d : DecodedClaim} {v : Value} (hv : d.encode H = .ok (some v))
    (hd : d.isFlat = true) (hok : d.Acceptable H) (hfits : d.Fits limits)
    (hw : Within limits d.cost) : ReadsAs H limits d d.asRead d.cost := by
  have hkey : isCompositeKey (i64Value d.label) = false := by
    -- claim by claim; the encoder's result is named, and then found among the forms of the claim
    cases d with
    | orClaim c | norClaim c | andClaim c | catnip c | moqt c => exact absurd hd Bool.false_ne_true
    | custom id hid x => rwa [DecodedClaim.isFlat, Bool.not_eq_true'] at hd
    | _ => simp only [DecodedClaim.label]; decide
  have hlabel : d.asRead.label = d.label := by cases d <;> rfl
  refine .of_form hv ?_ hlabel (hlabel ▸ hkey) hw
  cases d with
  | orClaim c | norClaim c | andClaim c | catnip c | moqt c => exact absurd hd Bool.false_ne_true
  | iss s | sub s =>
    obtain rfl := written_eq (x := .text s) rfl hv
    exact ⟨rfl, hfits, rfl⟩
  | aud ss =>
    obtain rfl := written_eq (x := textArray ss) rfl hv
    rw [normal_textArray]
    exact ⟨hfits, .inr ⟨rfl, rfl⟩⟩
  | exp n | nbf n | iat n =>
    obtain rfl := written_eq (x := i64Value n) rfl hv
    exact ⟨.inl rfl, rfl⟩
  | cti b | cattpk b =>
    obtain rfl := written_eq (x := .bytes b) rfl hv
    exact ⟨rfl, rfl⟩
  | catreplay r =>
    obtain rfl := written_eq (x := u32Value r.toU32) rfl hv
    exact ⟨rfl, rfl⟩
  | catpor p => exact ⟨catporForm_encode hv hok, rfl⟩
  | catv n =>
    obtain rfl := written_eq (x := u32Value n) rfl hv
    exact ⟨rfl, rfl⟩
  | catu rs =>
    obtain rfl := written_eq (x := .map (sortIntegerKeyedMap
      (rs.map fun rule : UriMatchRule =>
        (i64Value rule.component, encodeMatchMap rule.matches_)))) rfl hv
    rw [catu_eq]
    have hnormal : (Value.map ((uriRulesAsRead rs).map uriRuleEntry)).Normal := by
      rw [Value.normal_map, List.forall_mem_map]
      exact fun r _ => ⟨rfl, normal_matchEntries r.matches_⟩
    rw [hnormal]
    exact ⟨rfl, (uriRulesCost_asRead rs).symm⟩
  | catm ss =>
    obtain rfl := written_eq (x := textArray ss) rfl hv
    rw [normal_textArray]
    exact ⟨⟨rfl, hfits⟩, rfl⟩
  | catalpn as =>
    obtain rfl := written_eq (x := .array (as.map .bytes)) rfl hv
    have hnormal : (Value.array (as.map .bytes)).Normal := by
      rw [Value.normal_array, List.forall_mem_map]
      exact fun _ _ => rfl
    rw [hnormal]
    exact ⟨⟨rfl, hfits⟩, rfl⟩
  | cath rs =>
    obtain rfl := written_eq (x := .map (rs.map fun rule : HeaderMatchRule =>
      (.text rule.name, encodeMatchMap rule.matches_))) rfl hv
    rw [cath_eq]
    have hnormal : (Value.map ((rs.map HeaderMatchRule.asRead).map headerRuleEntry)).Normal := by
      rw [Value.normal_map, List.forall_mem_map]
      exact fun r _ => ⟨rfl, normal_matchEntries r.matches_⟩
    rw [hnormal]
    exact ⟨rfl, (headerRulesCost_asRead rs).symm⟩
  | catgeoiso3166 ss =>
    obtain rfl := written_eq (x := textArray ss) rfl hv
    rw [normal_textArray]
    exact ⟨rfl, rfl⟩
  | catgeocoord x =>
    cases x with
    | none => exact absurd hv not_written
    | some cs => exact catgeocoordForm_encode hv hok
  | geohash x =>
    cases x with
    | none => exact absurd hv not_written
    | some hs =>
      obtain rfl := written_eq (x := textOrArray hs) rfl hv
      exact ⟨geohashForm_encode hs, rfl⟩
  | catgeoalt a => exact ⟨catgeoaltForm_encode hv, rfl⟩
  | catifdata x =>
    cases x with
    | none => exact absurd hv not_written
    | some ss =>
      obtain rfl := written_eq (x := textOrArray ss) rfl hv
      exact textsForm_encode ss
  | cnf x =>
    cases x with
    | none => exact absurd hv not_written
    | some c =>
      have h' : unlessEmpty (cnfMap c) = .ok (some v) := hv
      obtain ⟨hne, rfl⟩ := unlessEmpty_eq_ok.mp h'
      rw [normal_cnfMap]
      refine ⟨⟨_, c.jkt, c.ckt, rfl, decodeCnfMembers_cnfMap c, ?_⟩, rfl⟩
      rw [Bool.or_comm, ← cnfMap_isEmpty, if_pos (by simpa using hne)]
  | catdpop s =>
    have h' : unlessEmpty (catdpopMap s) = .ok (some v) := hv
    obtain ⟨-, rfl⟩ := unlessEmpty_eq_ok.mp h'
    rw [normal_catdpopMap]
    exact ⟨⟨_, rfl, decodeCatdpopMembers_catdpopMap s, hok⟩, rfl⟩
  | catif x =>
    cases x with
    | none => exact absurd hv not_written
    | some as => exact catifForm_encode hok (written_eq rfl hv)
  | catr x =>
    cases x with
    | none => exact absurd hv not_written
    | some r =>
      obtain rfl := written_eq (x := .map (catrMap r)) rfl hv
      rw [normal_catrMap]
      obtain ⟨ea, hea, hpos⟩ := hok.expadd
      exact ⟨_, _, rfl, catrMembers_catrMap r hok.ordinary, ⟨ea, hea, hpos, rfl⟩, rfl⟩
  | moqtReval f => exact ⟨moqtReval_encode hv, rfl⟩
  | custom id hid x =>
    obtain rfl := Option.some.inj (Except.ok.inj hv)
    exact ⟨rfl, rfl⟩

/-! ## Heights

How far a value nests. Only custom claims can nest without bound.
-/

theorem height_map {es : List (Value × Value)} {n : Nat}
    (h : ∀ e ∈ es, e.1.height ≤ n ∧ e.2.height ≤ n) : (Value.map es).height ≤ 1 + n := by
  rw [Value.height]
  exact Nat.add_le_add_left (Value.heightEntries_le.mpr h) 1

theorem height_number (f : F64) : (encodeNumberShortest f).height = 0 := by
  unfold encodeNumberShortest
  split <;> rfl

theorem height_textOrArray (ss : List String) : (textOrArray ss).height ≤ 1 := by
  unfold textOrArray
  split
  · exact Nat.zero_le _
  · exact height_textArray _

theorem height_optMember {α : Type} {label : Int64} {x : Option α} {f : α → Value} {n : Nat}
    (hf : ∀ a, (f a).height ≤ n) : ∀ e ∈ optMember label x f, e.1.height ≤ n ∧ e.2.height ≤ n := by
  intro e he
  cases x with
  | none => exact absurd he List.not_mem_nil
  | some a =>
    obtain rfl := List.mem_singleton.mp he
    exact ⟨Nat.zero_le _, hf a⟩

theorem height_matchEntries (ms : List MatchValue) : (matchEntries ms).height ≤ 1 := by
  refine height_map (n := 0) ?_
  rw [List.forall_mem_map]
  intro m _
  cases m <;> exact ⟨Nat.le_refl 0, Nat.le_refl 0⟩

theorem height_encodeCatifAction (a : CatIfAction) : (encodeCatifAction a).height ≤ 2 := by
  have htexts (hs : List (String × String)) :
      (Value.map (hs.map fun h => (.text h.1, .text h.2))).height ≤ 1 := by
    refine height_map (n := 0) ?_
    rw [List.forall_mem_map]
    exact fun _ _ => ⟨Nat.le_refl 0, Nat.le_refl 0⟩
  obtain ⟨status, headers, kid⟩ := a
  refine Value.height_array fun v hv => ?_
  rw [List.mem_append, List.mem_append] at hv
  rcases hv with (hv | hv) | hv
  · obtain rfl := List.mem_singleton.mp hv
    exact Nat.zero_le _
  · cases headers with
    | none => exact absurd hv List.not_mem_nil
    | some hs =>
      obtain rfl := List.mem_singleton.mp hv
      exact htexts hs
  · cases kid with
    | none => exact absurd hv List.not_mem_nil
    | some k =>
      rcases List.mem_append.mp hv with hv | hv
      · split at hv
        · obtain rfl := List.mem_singleton.mp hv
          exact htexts []
        · exact absurd hv List.not_mem_nil
      · obtain rfl := List.mem_singleton.mp hv
        exact Nat.zero_le _

/-- The claims of the profile are not nested deep, composites and scopes apart. -/
theorem height_flat {d : DecodedClaim} {v : Value} (hv : d.encode H = .ok (some v))
    (hd : d.isFlat = true) (hcustom : d.isCustom = false) : v.height ≤ 3 := by
  have htext (s : String) : (Value.text s).height ≤ 3 := Nat.zero_le _
  have hpair (k : Int64) {w : Value} {n : Nat} (hw : w.height ≤ n) :
      (i64Value k).height ≤ n ∧ w.height ≤ n := ⟨Nat.zero_le _, hw⟩
  cases d with
  | orClaim c | norClaim c | andClaim c | catnip c | moqt c => exact absurd hd Bool.false_ne_true
  | custom id hid x => exact absurd hcustom.symm Bool.false_ne_true
  | iss s | sub s =>
    obtain rfl := written_eq (x := .text s) rfl hv
    exact Nat.zero_le _
  | aud ss | catm ss | catgeoiso3166 ss =>
    obtain rfl := written_eq (x := textArray ss) rfl hv
    exact (height_textArray ss).trans (by decide)
  | exp n | nbf n | iat n =>
    obtain rfl := written_eq (x := i64Value n) rfl hv
    exact Nat.zero_le _
  | cti b | cattpk b =>
    obtain rfl := written_eq (x := .bytes b) rfl hv
    exact Nat.zero_le _
  | catreplay r =>
    obtain rfl := written_eq (x := u32Value r.toU32) rfl hv
    exact Nat.zero_le _
  | catv n =>
    obtain rfl := written_eq (x := u32Value n) rfl hv
    exact Nat.zero_le _
  | catpor p =>
    have h' : encodeCatpor (CatToken.new.assign (.catpor p)) = .ok (some v) := hv
    obtain ⟨p', -, h⟩ := whenSome_eq_ok.mp h'
    obtain ⟨_, -, h⟩ := Except.bind_eq_ok.mp h
    obtain rfl := Except.pure_eq_ok.mp h
    refine (Value.height_array (n := 0) ?_).trans (by decide)
    intro w hw
    obtain ⟨probability, id, expiration⟩ := p'
    rcases List.mem_append.mp hw with hw | hw
    · simp only [List.mem_cons, List.not_mem_nil, or_false] at hw
      rcases hw with rfl | rfl
      · exact (height_number _).le
      · exact Nat.zero_le _
    · cases expiration with
      | none => exact absurd hw List.not_mem_nil
      | some e =>
        obtain rfl := List.mem_singleton.mp hw
        exact Nat.zero_le _
  | catu rs =>
    obtain rfl := written_eq (x := .map (sortIntegerKeyedMap (rs.map fun rule : UriMatchRule =>
        (i64Value rule.component, encodeMatchMap rule.matches_)))) rfl hv
    rw [catu_eq]
    refine (height_map (n := 1) ?_).trans (by decide)
    rw [List.forall_mem_map]
    exact fun r _ => hpair _ (height_matchEntries r.matches_)
  | catalpn as =>
    obtain rfl := written_eq (x := .array (as.map .bytes)) rfl hv
    refine (Value.height_array (n := 0) ?_).trans (by decide)
    rw [List.forall_mem_map]
    exact fun _ _ => Nat.zero_le _
  | cath rs =>
    obtain rfl := written_eq (x := .map (rs.map fun rule : HeaderMatchRule =>
      (.text rule.name, encodeMatchMap rule.matches_))) rfl hv
    rw [cath_eq]
    refine (height_map (n := 1) ?_).trans (by decide)
    rw [List.forall_mem_map]
    exact fun r _ => ⟨Nat.zero_le _, height_matchEntries r.matches_⟩
  | catgeocoord x =>
    cases x with
    | none => exact absurd hv not_written
    | some cs =>
      obtain ⟨-, rfl⟩ := encode_catgeocoord hv
      refine (Value.height_array (n := 1) ?_).trans (by decide)
      rw [List.forall_mem_map]
      intro c _
      refine Value.height_array (n := 0) ?_
      simp [height_number, u32Value, natValue, Value.height]
  | geohash x | catifdata x =>
    cases x with
    | none => exact absurd hv not_written
    | some hs =>
      obtain rfl := written_eq (x := textOrArray hs) rfl hv
      exact (height_textOrArray hs).trans (by decide)
  | catgeoalt a =>
    have h' : encodeCatgeoalt (CatToken.new.assign (.catgeoalt a)) = .ok (some v) := hv
    obtain ⟨a', -, h⟩ := whenSome_eq_ok.mp h'
    obtain ⟨_, -, h⟩ := Except.bind_eq_ok.mp h
    obtain ⟨_, -, h⟩ := Except.bind_eq_ok.mp h
    obtain rfl := Except.pure_eq_ok.mp h
    refine (Value.height_array (n := 0) ?_).trans (by decide)
    simp [height_number]
  | cnf x =>
    cases x with
    | none => exact absurd hv not_written
    | some c =>
      have h' : unlessEmpty (cnfMap c) = .ok (some v) := hv
      obtain ⟨-, rfl⟩ := unlessEmpty_eq_ok.mp h'
      obtain ⟨jkt, ckt⟩ := c
      cases ckt <;> cases jkt <;> exact Nat.le_of_ble_eq_true rfl
  | catdpop s =>
    have h' : unlessEmpty (catdpopMap s) = .ok (some v) := hv
    obtain ⟨-, rfl⟩ := unlessEmpty_eq_ok.mp h'
    rw [catdpopMap_eq]
    refine (height_map (n := 1) ?_).trans (by decide)
    rw [List.forall_mem_append, List.forall_mem_append]
    refine ⟨height_optMember fun _ => Nat.zero_le _, height_optMember fun _ => Nat.zero_le _,
      height_optMember fun ks => Value.height_array ?_⟩
    rw [List.forall_mem_map]
    exact fun _ _ => Nat.zero_le _
  | catif x =>
    cases x with
    | none => exact absurd hv not_written
    | some as =>
      have hv' := written_eq (x := .map ((as.mergeSort fun a b => a.1.toInt ≤ b.1.toInt).map
        fun e : Int64 × CatIfAction => (i64Value e.1, encodeCatifAction e.2))) rfl hv
      rw [hv']
      refine height_map (n := 2) ?_
      rw [List.forall_mem_map]
      exact fun e _ => hpair _ (height_encodeCatifAction e.2)
  | catr x =>
    cases x with
    | none => exact absurd hv not_written
    | some r =>
      obtain rfl := written_eq (x := .map (catrMap r)) rfl hv
      refine (height_map (n := 1) ?_).trans (by decide)
      unfold catrMap
      simp only [List.forall_mem_append, List.forall_mem_singleton]
      have hzero {w : Value} (hw : w.height = 0) : w.height ≤ 1 := hw.le.trans (by decide)
      exact ⟨⟨⟨⟨⟨⟨⟨⟨Nat.zero_le _, Nat.zero_le _⟩,
        height_optMember fun f => hzero (height_number f)⟩,
        height_optMember fun f => hzero (height_number f)⟩,
        height_optMember fun _ => Nat.zero_le _⟩, height_optMember fun _ => Nat.zero_le _⟩,
        height_optMember height_textArray⟩, height_optMember height_textArray⟩,
        height_optMember fun _ => Nat.zero_le _⟩
  | moqtReval f =>
    have h' : encodeMoqtReval (CatToken.new.assign (.moqtReval f)) = .ok (some v) := hv
    obtain ⟨f', -, h⟩ := whenSome_eq_ok.mp h'
    obtain ⟨_, -, h⟩ := Except.bind_eq_ok.mp h
    obtain rfl := Except.pure_eq_ok.mp h
    exact (height_number f').le.trans (by decide)

end

end Cat
