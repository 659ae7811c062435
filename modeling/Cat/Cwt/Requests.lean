import Cat.Cwt.CustomFrame
import Cat.Cwt.WrittenForms
import Cat.Lib.Cbor.Size

/-!
# Request claims on the wire

`CatIfAction` and `CatRenewal` can only be made by their constructors and builder methods, which
look at the status, the headers and the numbers they are given. The encoder looks at nothing
more, the decoder does: it wants an `expadd` in every renewal, takes an empty list of actions or
of headers for none at all, and refuses a key it has seen. `RequestClaims.Expressible` is what
is left to ask of request claims that were built for them to come back.

The builders are modelled as chains, like the builder of scopes, and `Built` is what any chain
leaves behind: what was looked at at some time and cannot have changed since. The decoder makes
the same checks again, and on built claims they pass; it is the remaining ones that make up the
condition, and each of them is one the builders could have made.
-/

set_option autoImplicit false

namespace Cat

open Cbor DecodeCounters

/-! ## Builders

As in the source, one function for each method. A builder that can refuse does so before it has
changed anything.
-/

def validateRenewalNumber (name : String) (v : F64) : Except CatError F64 :=
  if v.isNan then .error (.invalidClaimValue s!"catr {name}: NaN is not permitted")
  else if v.isInfinite then .error (.invalidClaimValue s!"catr {name}: infinity is not permitted")
  else if v.scaled = 0 ∧ v.negative then
    .error (.invalidClaimValue s!"catr {name}: negative zero is not permitted")
  else .ok v

namespace CatRenewal

def automatic : CatRenewal := ⟨.automatic, none, none, none, none, none, none, none⟩
def cookie (name : String) : CatRenewal := ⟨.cookie, none, none, some name, none, none, none, none⟩
def header (name : String) : CatRenewal := ⟨.header, none, none, none, some name, none, none, none⟩
def redirect (code : UInt32) : CatRenewal :=
  ⟨.redirect, none, none, none, none, none, none, some code⟩

def withExpadd (r : CatRenewal) (seconds : F64) : Except CatError CatRenewal := do
  return { r with expadd := some (← validateRenewalNumber "expadd" seconds) }
def withDeadline (r : CatRenewal) (timestamp : F64) : Except CatError CatRenewal := do
  return { r with deadline := some (← validateRenewalNumber "deadline" timestamp) }

def withCookieName (r : CatRenewal) (name : String) : CatRenewal :=
  { r with cookieName := some name }
def withHeaderName (r : CatRenewal) (name : String) : CatRenewal :=
  { r with headerName := some name }
def withCookieParams (r : CatRenewal) (params : List String) : CatRenewal :=
  { r with cookieParams := some params }
def withHeaderParams (r : CatRenewal) (params : List String) : CatRenewal :=
  { r with headerParams := some params }
def withStatusCode (r : CatRenewal) (code : UInt32) : CatRenewal :=
  { r with statusCode := some code }

/-- What the constructors and the builder methods make. -/
inductive Built : CatRenewal → Prop
  | automatic : Built automatic
  | cookie (name : String) : Built (cookie name)
  | header (name : String) : Built (header name)
  | redirect (code : UInt32) : Built (redirect code)
  | withExpadd {r r' : CatRenewal} {seconds : F64} (h : Built r)
      (hr : r.withExpadd seconds = .ok r') : Built r'
  | withDeadline {r r' : CatRenewal} {timestamp : F64} (h : Built r)
      (hr : r.withDeadline timestamp = .ok r') : Built r'
  | withCookieName {r : CatRenewal} (h : Built r) (name : String) : Built (r.withCookieName name)
  | withHeaderName {r : CatRenewal} (h : Built r) (name : String) : Built (r.withHeaderName name)
  | withCookieParams {r : CatRenewal} (h : Built r) (params : List String) :
      Built (r.withCookieParams params)
  | withHeaderParams {r : CatRenewal} (h : Built r) (params : List String) :
      Built (r.withHeaderParams params)
  | withStatusCode {r : CatRenewal} (h : Built r) (code : UInt32) : Built (r.withStatusCode code)

end CatRenewal

def CatIfAction.withKid (a : CatIfAction) (kid : String) : CatIfAction := { a with kid := some kid }

/-- What the constructor and the builder methods make. -/
inductive CatIfAction.Built (H : Host) : CatIfAction → Prop
  | new {status : UInt32} {a : CatIfAction} (h : CatIfAction.new status = .ok a) : Built H a
  | withHeaders {a a' : CatIfAction} {headers : List (String × String)} (h : Built H a)
      (ha : a.withHeaders H headers = .ok a') : Built H a'
  | withKid {a : CatIfAction} (h : Built H a) (kid : String) : Built H (a.withKid kid)

/-- Request claims whose actions and renewal were built. -/
structure RequestClaims.Built (H : Host) (r : RequestClaims) : Prop where
  catif : ∀ as, r.catif = some as → ∀ a ∈ as, a.2.Built H
  catr : ∀ x, r.catr = some x → x.Built

/-! ## What the builders have looked at

By induction on the chain of calls: each call keeps what the ones before it have made sure of.
-/

theorem validateRenewalNumber_eq_ok {name : String} {f g : F64} :
    validateRenewalNumber name f = .ok g ↔ f.Ordinary ∧ g = f := by
  unfold validateRenewalNumber F64.Ordinary
  cases f.isNan with
  | true => simp
  | false =>
    cases f.isInfinite with
    | true => simp
    | false =>
      simp only [Bool.false_eq_true, if_false, true_and]
      split
      · rename_i h
        simp [h]
      · rename_i h
        refine ⟨fun heq => ⟨h, (Except.ok.inj heq).symm⟩, ?_⟩
        rintro ⟨-, rfl⟩
        rfl

/-- The numbers of a renewal that was built are ordinary. -/
theorem CatRenewal.Built.ordinary {r : CatRenewal} (h : r.Built) :
    ∀ f, r.expadd = some f ∨ r.deadline = some f → f.Ordinary := by
  induction h with
  | automatic | cookie name | header name | redirect code =>
    rintro f (hf | hf) <;> cases hf
  | withExpadd h hr ih =>
    obtain ⟨g, hg, heq⟩ := Except.bind_eq_ok.mp hr
    obtain ⟨hord, rfl⟩ := validateRenewalNumber_eq_ok.mp hg
    obtain rfl := Except.pure_eq_ok.mp heq
    rintro f (hf | hf)
    · obtain rfl := Option.some.inj hf
      exact hord
    · exact ih f (.inr hf)
  | withDeadline h hr ih =>
    obtain ⟨g, hg, heq⟩ := Except.bind_eq_ok.mp hr
    obtain ⟨hord, rfl⟩ := validateRenewalNumber_eq_ok.mp hg
    obtain rfl := Except.pure_eq_ok.mp heq
    rintro f (hf | hf)
    · exact ih f (.inl hf)
    · obtain rfl := Option.some.inj hf
      exact hord
  | withCookieName h name ih | withHeaderName h name ih | withCookieParams h params ih
  | withHeaderParams h params ih | withStatusCode h code ih => exact ih

theorem catIfAction_new_eq_ok {status : UInt32} {a : CatIfAction}
    (h : CatIfAction.new status = .ok a) : a = ⟨status, none, none⟩ := by
  unfold CatIfAction.new at h
  split at h
  · exact (Except.ok.inj h).symm
  · cases h

/-- An action that was built is one that the decoder takes. -/
theorem CatIfAction.Built.acceptable {H : Host} {a : CatIfAction} (h : a.Built H) :
    a.Acceptable H := by
  induction h with
  | new h =>
    obtain rfl := catIfAction_new_eq_ok h
    exact ⟨h, fun hs hhs => absurd hhs (by simp)⟩
  | withHeaders h ha ih =>
    obtain ⟨_, hclean, rfl⟩ := Except.map_eq_ok.mp ha
    refine ⟨ih.status, fun hs hhs => ?_⟩
    obtain rfl := Option.some.inj hhs
    exact hclean
  | withKid h kid ih => exact ⟨ih.status, ih.headers⟩

/-! ## One claim

The decoder's conditions on `catr` and `catif`, reduced to those that building does not give.
-/

section
variable {H : Host} {limits : CwtLimits}

theorem eq_catr_of_label {d : DecodedClaim} (h : d.label = claimCatr) : ∃ x, d = .catr x := by
  cases d with
  | catr x => exact ⟨x, rfl⟩
  | custom id hid v =>
    obtain rfl : id = claimCatr := h
    exact absurd hid (by decide)
  | _ => exact absurd h (by simp only [DecodedClaim.label]; decide)

/-- Members are read in one way. -/
theorem CatrMembers.unique {es : List (Value × Value)} : ∀ {p q q' : CatrParts},
    CatrMembers p es q → CatrMembers p es q' → q = q' := by
  induction es with
  | nil => exact fun h h' => h.symm.trans h'
  | cons e es ih =>
    obtain ⟨k, v⟩ := e
    rintro p q q' ⟨key, p', hk, hp, h⟩ ⟨key', p'', hk', hp', h'⟩
    obtain rfl := i64Value_inj.mp (hk.symm.trans hk')
    obtain rfl := Except.ok.inj (hp.symm.trans hp')
    exact ih h h'

/-- A renewal that was read has a positive `expadd`. -/
theorem expadd_of_reads {r : CatRenewal} (hr : r.Built) {d : DecodedClaim} {c : DecodeCounters}
    (h : ReadsAs H limits (.catr (some r)) d c) :
    ∃ ea, r.expadd = some ea ∧ F64.le ea (F64.ofInt 0) = false := by
  obtain ⟨x, rfl⟩ := eq_catr_of_label h.label
  obtain ⟨es, p, heq, hmembers, hmade, -⟩ :=
    h.form (v := .map (catrMap r)) rfl (by simp only [DecodedClaim.label]; decide)
  rw [normal_catrMap] at heq
  obtain rfl := Value.map.inj heq
  obtain rfl := hmembers.unique (catrMembers_catrMap r hr.ordinary)
  obtain ⟨ea, hea, hpos, -⟩ := hmade
  exact ⟨ea, hea, hpos⟩

theorem length_catrMap_le (r : CatRenewal) : (catrMap r).length ≤ 8 := by
  have hopt {α : Type} (label : Int64) (x : Option α) (f : α → Value) :
      (optMember label x f).length ≤ 1 := by
    cases x <;> simp [optMember]
  unfold catrMap
  simp only [List.length_append, List.length_singleton]
  have hexpadd := hopt catrExpadd r.expadd encodeNumberShortest
  have hdeadline := hopt catrDeadline r.deadline encodeNumberShortest
  have hcookie := hopt catrCookieName r.cookieName .text
  have hheader := hopt catrHeaderName r.headerName .text
  have hcookies := hopt catrAdditionalCookieParams r.cookieParams textArray
  have hheaders := hopt catrAdditionalHeaderParams r.headerParams textArray
  have hstatus := hopt catrStatusCode r.statusCode u32Value
  omega

/-! ## Tokens

With the two claims in a token by themselves, so that nothing else in it can be the reason why
the payload is refused.
-/

/-- The token with these request claims and nothing else. -/
def requestsToken (r : RequestClaims) : CatToken := { CatToken.new with request := r }

variable {r : RequestClaims}

theorem requestsToken_claims (r : RequestClaims) : (requestsToken r).claims =
    (r.catif.toList.map fun as => .catif (some as)) ++
      r.catr.toList.map fun x => .catr (some x) := by
  obtain ⟨catif, catr⟩ := r
  cases catif <;> cases catr <;> rfl

theorem mem_requestsToken_claims {d : DecodedClaim} : d ∈ (requestsToken r).claims ↔
    (∃ as, r.catif = some as ∧ d = .catif (some as)) ∨
      ∃ x, r.catr = some x ∧ d = .catr (some x) := by
  rw [requestsToken_claims, List.mem_append, List.mem_map, List.mem_map]
  simp only [Option.mem_toList, eq_comm]

/-- What is asked of request claims that were built for them to come back as they are. -/
structure RequestClaims.Expressible (r : RequestClaims) : Prop where
  nonempty : r.catif ≠ some []
  keys : ∀ as, r.catif = some as → (as.map (·.1)).Nodup ∧ NegativeAlone (as.map (·.1))
  headers : ∀ as, r.catif = some as → ∀ a ∈ as, ∀ hs, a.2.headers = some hs →
    hs ≠ [] ∧ (hs.map (·.1)).Nodup
  expadd : ∀ x, r.catr = some x → ∃ ea, x.expadd = some ea ∧ F64.le ea (F64.ofInt 0) = false

theorem requestsToken_keysGiven : (requestsToken r).KeysGiven ↔
    ∀ as, r.catif = some as → (as.map (·.1)).Nodup ∧ NegativeAlone (as.map (·.1)) ∧
      ∀ a ∈ as, ∀ hs ∈ a.2.headers, (hs.map (·.1)).Nodup := by
  rw [keysGiven_iff]
  constructor
  · exact fun h => h.1.catif
  · intro h
    refine ⟨⟨negativeAlone_of_no_custom rfl, ?_, ?_, h, ?_⟩, fun _ => trivial, fun _ => trivial,
      fun _ => trivial⟩
    · exact fun _ h => absurd h (by simp [requestsToken, CatToken.new])
    · exact fun _ h => absurd h (by simp [requestsToken, CatToken.new])
    · exact fun _ h => absurd h List.not_mem_nil

variable {b : Bytes}

/-- A payload has two bytes for every action in it. -/
theorem length_catif_le (h : encodePayload H (requestsToken r) = .ok b)
    {as : List (Int64 × CatIfAction)} (has : r.catif = some as) : 2 * as.length ≤ b.length := by
  obtain ⟨m, hm, hw⟩ := encodePayload_ok h
  have hd : DecodedClaim.catif (some as) ∈ (requestsToken r).claims :=
    mem_requestsToken_claims.mpr (.inl ⟨as, has, rfl⟩)
  have he := (mem_claimsMap hm).mpr ⟨_, hd, rfl, rfl⟩
  have hlen := H.cbor.entries_le hw (List.mem_map_of_mem he)
  rwa [List.length_map, List.length_mergeSort] at hlen

/-- **What was built is read**, in a payload of the right size, when the renewal has its
    `expadd`. -/
theorem reads_requests (hr : r.Built H) (h : encodePayload H (requestsToken r) = .ok b)
    (hsize : b.length ≤ CwtLimits.default.maxCborPayloadSize)
    (hexpadd : ∀ x, r.catr = some x → ∃ ea, x.expadd = some ea ∧ F64.le ea (F64.ofInt 0) = false)
    {d : DecodedClaim} (hd : d ∈ (requestsToken r).claims) :
    ReadsAs H .default d d.asRead d.cost := by
  obtain ⟨m, hm, -⟩ := encodePayload_ok h
  obtain ⟨v, hv⟩ := encode_of_mem_claims hm hd
  rcases mem_requestsToken_claims.mp hd with ⟨as, has, rfl⟩ | ⟨x, hx, rfl⟩
  · refine reads_flat hv rfl (fun a ha => (hr.catif as has a ha).acceptable) trivial ?_
    have hlen : 2 * as.length ≤ 16 * 1024 := (length_catif_le h has).trans hsize
    have hitems : as.length ≤ 10000 := by omega
    exact ⟨hitems, Nat.zero_le _, Nat.zero_le _, Nat.zero_le _⟩
  · have hitems : (catrMap x).length ≤ 10000 := (length_catrMap_le x).trans (by decide)
    exact reads_flat hv rfl ⟨hexpadd x hx, (hr.catr x hx).ordinary⟩ trivial
      ⟨hitems, Nat.zero_le _, Nat.zero_le _, Nat.zero_le _⟩

/-- The request claims of a token that was read. -/
theorem requests_read (hr : r.Built H) (h : encodePayload H (requestsToken r) = .ok b)
    {t : CatToken} (hdec : decodePayload H b = .ok t) :
    t.request.catif = (r.catif.bind fun as => unlessNil (catifAsRead as)) ∧
      t.request.catr = r.catr := by
  obtain ⟨hok, hhas⟩ := decode_written_ok h hdec
  have hexpadd (x : CatRenewal) (hx : r.catr = some x) :
      ∃ ea, x.expadd = some ea ∧ F64.le ea (F64.ofInt 0) = false := by
    obtain ⟨d, c, hd⟩ := hok.reads _ (mem_requestsToken_claims.mpr (.inr ⟨x, hx, rfl⟩))
    exact expadd_of_reads (hr.catr x hx) hd
  have hreads {d : DecodedClaim} (hd : d ∈ (requestsToken r).claims) :=
    reads_requests hr h hok.size_le hexpadd hd
  have hread (d' : DecodedClaim) :
      t.Has d' ↔ (∃ d ∈ (requestsToken r).claims, d.asRead = d') ∧ d'.IsSet := by
    rw [hhas]
    refine and_congr_left' (exists_congr fun d => and_congr_right fun hd => ?_)
    constructor
    · rintro ⟨c, hc⟩
      exact ((hreads hd).unique hc).1
    · rintro rfl
      exact ⟨_, hreads hd⟩
  constructor
  · refine Option.ext fun as' => (hread (.catif (some as'))).trans ?_
    rw [and_iff_left (show (DecodedClaim.catif (some as')).IsSet from trivial),
      Option.bind_eq_some_iff]
    constructor
    · rintro ⟨d, hd, heq⟩
      rcases mem_requestsToken_claims.mp hd with ⟨as, has, rfl⟩ | ⟨x, -, rfl⟩
      · exact ⟨as, has, DecodedClaim.catif.inj heq⟩
      · cases heq
    · rintro ⟨as, has, heq⟩
      exact ⟨_, mem_requestsToken_claims.mpr (.inl ⟨as, has, rfl⟩), congrArg DecodedClaim.catif heq⟩
  · refine Option.ext fun x' => (hread (.catr (some x'))).trans ?_
    rw [and_iff_left (show (DecodedClaim.catr (some x')).IsSet from trivial)]
    constructor
    · rintro ⟨d, hd, heq⟩
      rcases mem_requestsToken_claims.mp hd with ⟨as, -, rfl⟩ | ⟨x, hx, rfl⟩
      · cases heq
      · rw [hx]
        exact DecodedClaim.catr.inj heq
    · exact fun hx => ⟨_, mem_requestsToken_claims.mpr (.inr ⟨x', hx, rfl⟩), rfl⟩

/-- Values of request claims are not nested deep. -/
theorem height_requests {d : DecodedClaim} (hd : d ∈ (requestsToken r).claims) {v : Value}
    (hv : d.encode H = .ok (some v)) : v.height ≤ 3 := by
  rcases mem_requestsToken_claims.mp hd with ⟨as, -, rfl⟩ | ⟨x, -, rfl⟩
  · exact height_flat hv rfl rfl
  · exact height_flat hv rfl rfl

/-- The items of request claims: one for each claim and each of its entries. -/
theorem cost_requests (r : RequestClaims) :
    ((requestsToken r).claims.map fun d => itemCost 1 + d.cost).sum =
      itemCost ((r.catif.elim 0 fun as => 1 + as.length) +
        r.catr.elim 0 fun x => 1 + (catrMap x).length) := by
  obtain ⟨catif, catr⟩ := r
  rw [requestsToken_claims]
  cases catif <;> cases catr <;>
  · apply ext_counts <;> simp [itemCost, DecodedClaim.cost]

/-- **Request claims are decoded** when the renewal has its `expadd` and no key is repeated. -/
theorem decode_requests (hr : r.Built H) (h : encodePayload H (requestsToken r) = .ok b)
    (hsize : b.length ≤ CwtLimits.default.maxCborPayloadSize) (hok : r.Expressible) :
    ∃ t, decodePayload H b = .ok t := by
  have hreads {d : DecodedClaim} (hd : d ∈ (requestsToken r).claims) :=
    reads_requests hr h hsize hok.expadd hd
  have hkeys : (requestsToken r).KeysGiven := requestsToken_keysGiven.mpr fun as has =>
    ⟨(hok.keys as has).1, (hok.keys as has).2, fun a ha hs hhs =>
      (hok.headers as has a ha hs hhs).2⟩
  refine (decode_written_iff h).mpr ⟨hsize, readable_of_height h fun d hd v hv => ?_,
    fun d hd v hv => ?_, hkeys, fun d hd => ⟨_, _, hreads hd⟩, ?_, ?_⟩
  · exact Nat.lt_of_le_of_lt (Nat.succ_le_succ (height_requests hd hv)) (by decide)
  · exact Nat.lt_of_le_of_lt ((walkDepth_readBack_le v).trans (height_requests hd hv)) (by decide)
  · rw [List.countP_eq_zero.mpr]
    · exact Nat.zero_le _
    · intro d hd
      rcases mem_requestsToken_claims.mp hd with ⟨as, -, rfl⟩ | ⟨x, -, rfl⟩
      · exact Bool.false_ne_true
      · exact Bool.false_ne_true
  · have hcost : (requestsToken r).readCost H .default =
        ((requestsToken r).claims.map fun d => itemCost 1 + d.cost).sum := by
      unfold CatToken.readCost
      congr 1
      exact List.map_congr_left fun d hd => by rw [(hreads hd).cost_eq]
    rw [hcost, cost_requests]
    have hcatif : (r.catif.elim 0 fun as => 1 + as.length) ≤ 1 + 8 * 1024 := by
      cases has : r.catif with
      | none => exact Nat.zero_le _
      | some as =>
        have hlen : 2 * as.length ≤ 16 * 1024 := (length_catif_le h has).trans hsize
        exact Nat.add_le_add_left (by omega) 1
    have hcatr : (r.catr.elim 0 fun x => 1 + (catrMap x).length) ≤ 1 + 8 := by
      cases r.catr with
      | none => exact Nat.zero_le _
      | some x => exact Nat.add_le_add_left (length_catrMap_le x) 1
    have hitems := (Nat.add_le_add hcatif hcatr).trans (show 1 + 8 * 1024 + (1 + 8) ≤ 10000 by decide)
    exact ⟨hitems, Nat.zero_le _, Nat.zero_le _, Nat.zero_le _⟩

theorem catifAsRead_eq_nil {as : List (Int64 × CatIfAction)} : catifAsRead as = [] ↔ as = [] := by
  rw [← List.length_eq_zero_iff, ← List.length_eq_zero_iff, catifAsRead, List.length_map,
    List.length_mergeSort]

theorem asRead_headers_ne_nil (a : CatIfAction) : a.asRead.headers ≠ some [] := by
  obtain ⟨status, headers, kid⟩ := a
  intro h
  cases headers with
  | none => cases h
  | some hs => cases hs <;> cases h

theorem asRead_eq_self {a : CatIfAction} (h : a.headers ≠ some []) : a.asRead = a := by
  obtain ⟨status, headers, kid⟩ := a
  cases headers with
  | none => rfl
  | some hs =>
    cases hs with
    | nil => exact absurd rfl h
    | cons _ _ => rfl

/-- Actions are read as they are, up to the order of the claim keys, when they have no empty
    list of headers. -/
theorem catifAsRead_perm_iff {as : List (Int64 × CatIfAction)} :
    (catifAsRead as).Perm as ↔ ∀ a ∈ as, a.2.headers ≠ some [] := by
  have hperm : (catifAsRead as).Perm (as.map fun e => (e.1, e.2.asRead)) :=
    (List.mergeSort_perm as _).map _
  constructor
  · intro h a ha
    obtain ⟨e, -, rfl⟩ := List.mem_map.mp ((h.symm.trans hperm).mem_iff.mp ha)
    exact asRead_headers_ne_nil e.2
  · intro h
    have heq : (as.map fun e => (e.1, e.2.asRead)) = as := by
      refine (List.map_congr_left fun e he => ?_).trans (List.map_id as)
      exact Prod.ext rfl (asRead_eq_self (h e he))
    rwa [heq] at hperm

/-- **Request claims come back as they were built** exactly when the payload has the right size
    and they are expressible.

    Constructors and builder methods leave open what the decoder insists on: an `expadd`, and one
    greater than zero. The maps of `catif` are sorted by number where the decoder expects the
    encoded order, and lists become maps without a check for repeated names. -/
theorem requests_roundTrip_iff (hr : r.Built H) (h : encodePayload H (requestsToken r) = .ok b) :
    (∃ t, decodePayload H b = .ok t ∧ Option.Rel List.Perm t.request.catif r.catif ∧
        t.request.catr = r.catr) ↔
      b.length ≤ CwtLimits.default.maxCborPayloadSize ∧ r.Expressible := by
  constructor
  · rintro ⟨t, hdec, hsame, -⟩
    obtain ⟨hok, -⟩ := decode_written_ok h hdec
    have hkeys := requestsToken_keysGiven.mp hok.keys
    -- an empty list of actions is read as none, and none is not what was built
    have hread {as : List (Int64 × CatIfAction)} (has : r.catif = some as) :
        as ≠ [] ∧ (catifAsRead as).Perm as := by
      rw [(requests_read hr h hdec).1, has, Option.bind_some, unlessNil] at hsame
      split at hsame
      · cases hsame
      · rename_i hne
        rw [List.isEmpty_iff, catifAsRead_eq_nil] at hne
        cases hsame with
        | some hperm => exact ⟨hne, hperm⟩
    refine ⟨hok.size_le, fun hnil => (hread hnil).1 rfl, fun as has => ?_,
      fun as has a ha hs hhs => ?_, fun x hx => ?_⟩
    · exact ⟨(hkeys as has).1, (hkeys as has).2.1⟩
    · refine ⟨?_, (hkeys as has).2.2 a ha hs hhs⟩
      rintro rfl
      exact catifAsRead_perm_iff.mp (hread has).2 a ha hhs
    · obtain ⟨d, c, hd⟩ := hok.reads _ (mem_requestsToken_claims.mpr (.inr ⟨x, hx, rfl⟩))
      exact expadd_of_reads (hr.catr x hx) hd
  · rintro ⟨hsize, hok⟩
    obtain ⟨t, ht⟩ := decode_requests hr h hsize hok
    obtain ⟨hcatif, hcatr⟩ := requests_read hr h ht
    refine ⟨t, ht, ?_, hcatr⟩
    rw [hcatif]
    cases has : r.catif with
    | none => exact .none
    | some as =>
      have hne : as ≠ [] := by
        rintro rfl
        exact hok.nonempty has
      rw [Option.bind_some, unlessNil, if_neg (by rwa [List.isEmpty_iff, catifAsRead_eq_nil])]
      refine .some (catifAsRead_perm_iff.mpr fun a ha hnil => ?_)
      exact (hok.headers as has a ha [] hnil).1 rfl

end

/-- An action and a renewal of an hour. -/
def hourRequests : RequestClaims where
  catif := some [(claimExp, ⟨401, none, none⟩)]
  catr := some ⟨.automatic, some (F64.ofInt 3600), none, none, none, none, none, none⟩

theorem hourRequests_built : hourRequests.Built .reference := by
  constructor
  · intro as has a ha
    obtain rfl := Option.some.inj has
    obtain rfl := List.mem_singleton.mp ha
    exact @CatIfAction.Built.new _ 401 _ rfl
  · intro x hx
    obtain rfl := Option.some.inj hx
    exact @CatRenewal.Built.withExpadd _ _ (F64.ofInt 3600) .automatic (by decide +kernel)

def hourPayload : Bytes := [0xa2, 0x19, 0x01, 0x42, 0xa1, 0x04, 0x81, 0x19, 0x01, 0x91, 0x19, 0x01,
  0x43, 0xa2, 0x00, 0x00, 0x01, 0x19, 0x0e, 0x10]

theorem requests_roundTrip_iff_hour :
    (∃ t, decodePayload .reference hourPayload = .ok t ∧
        Option.Rel List.Perm t.request.catif hourRequests.catif ∧
        t.request.catr = hourRequests.catr) ↔
      hourPayload.length ≤ CwtLimits.default.maxCborPayloadSize ∧ hourRequests.Expressible :=
  requests_roundTrip_iff hourRequests_built (by decide +kernel)

/-- A renewal as its constructor makes it is written, and then refused for want of an `expadd`. -/
theorem requests_not_roundTrip :
    ¬∀ (H : Host) (r : RequestClaims) (b : Bytes), r.Built H →
      encodePayload H (requestsToken r) = .ok b →
      ∃ t, decodePayload H b = .ok t ∧ Option.Rel List.Perm t.request.catif r.catif ∧
        t.request.catr = r.catr := by
  intro h
  have hbuilt : RequestClaims.Built .reference { catr := some .automatic } := by
    constructor
    · exact fun as has => absurd has (by simp)
    · intro x hx
      obtain rfl := Option.some.inj hx
      exact .automatic
  obtain ⟨t, ht, -⟩ := h .reference { catr := some .automatic }
    [0xa1, 0x19, 0x01, 0x43, 0xa1, 0x00, 0x00] hbuilt (by decide +kernel)
  have hrefused : (decodePayload .reference [0xa1, 0x19, 0x01, 0x43, 0xa1, 0x00, 0x00]).isOk =
      false := by decide +kernel
  rw [ht] at hrefused
  cases hrefused

end Cat
