import Cat.Cwt.Ordering
import Cat.Cwt.RecordForms
import Cat.Lib.FiniteMaps

/-!
# Members of claims

A renewal and the DPoP settings of a token are records in turn, filled from the members of the
claim's map. The decoder goes through the map and assigns one part of the record for each
member; what it makes of a map is a fold. Read as a fold, the record depends on the order of the
members, and a second member under one label would win over the first.

Neither shows in what is accepted. The map has been checked for repeated keys by the time its
members are read, so each part of the record is what the one member under its label says. This
is the general fact `Record.has_iff` of `Lib.FiniteMaps`, and the module's work is to show that
a renewal is such a record (`catrRecord`) and that the loop of the source reads each member as
one part of it (`decodeCatrMember_eq_ok`). A member under a label that is not known is skipped,
and is the part `unknown`, which leaves the record as it is.

What the rest of the development uses are the last three results: the parts of a renewal are
those of its members, and in both directions, a part has a member and a member is a part.
-/

set_option autoImplicit false

namespace Cat

open Cbor

/-! ## Renewals

A renewal is read member by member into a record, whose laws are those of `Record`. That the
record ends up with what its members say is a result of the library; here are the four laws.
-/

/-- A member of a `catr` map. A label that the profile does not have is a part too, so that every
    member is one. -/
inductive CatrPart where
  | renewalType (rt : CatRenewalType)
  | expadd (f : F64)
  | deadline (f : F64)
  | cookieName (s : String)
  | headerName (s : String)
  | cookieParams (ss : List String)
  | headerParams (ss : List String)
  | statusCode (n : UInt32)
  | unknown (key : Int64)

namespace CatrPart

def labels : List Int64 := [catrType, catrExpadd, catrDeadline, catrCookieName, catrHeaderName,
  catrAdditionalCookieParams, catrAdditionalHeaderParams, catrStatusCode]

def label : CatrPart → Int64
  | renewalType _ => catrType
  | expadd _ => catrExpadd
  | deadline _ => catrDeadline
  | cookieName _ => catrCookieName
  | headerName _ => catrHeaderName
  | cookieParams _ => catrAdditionalCookieParams
  | headerParams _ => catrAdditionalHeaderParams
  | statusCode _ => catrStatusCode
  | unknown key => key

def IsSet : CatrPart → Prop
  | unknown _ => False
  | _ => True

/-- The values a member decodes from. A member under another label decodes from anything. -/
def Form (v : Value) : CatrPart → Prop
  | renewalType rt => v = u32Value rt.toU32
  | expadd f | deadline f => numericValue v = some f ∧ f.Ordinary
  | cookieName s | headerName s => v = .text s
  | cookieParams ss | headerParams ss => v = textArray ss
  | statusCode n => v = u32Value n
  | unknown key => key ∉ labels

end CatrPart

def CatrParts.assign (p : CatrParts) : CatrPart → CatrParts
  | .renewalType rt => { p with renewalType := some rt }
  | .expadd f => { p with expadd := some f }
  | .deadline f => { p with deadline := some f }
  | .cookieName s => { p with cookieName := some s }
  | .headerName s => { p with headerName := some s }
  | .cookieParams ss => { p with cookieParams := some ss }
  | .headerParams ss => { p with headerParams := some ss }
  | .statusCode n => { p with statusCode := some n }
  | .unknown _ => p

def CatrParts.Has (p : CatrParts) : CatrPart → Prop
  | .renewalType rt => p.renewalType = some rt
  | .expadd f => p.expadd = some f
  | .deadline f => p.deadline = some f
  | .cookieName s => p.cookieName = some s
  | .headerName s => p.headerName = some s
  | .cookieParams ss => p.cookieParams = some ss
  | .headerParams ss => p.headerParams = some ss
  | .statusCode n => p.statusCode = some n
  | .unknown _ => False

/-- A renewal as a record of members. The four laws are what the fold needs: assigning a part sets
    it and no other one. -/
def catrRecord : Record CatrParts CatrPart Int64 where
  assign := CatrParts.assign
  label := CatrPart.label
  Has := CatrParts.Has
  IsSet := CatrPart.IsSet
  isSet_of_has := by
    intro p part h
    cases part with
    | unknown key => exact h
    | _ => trivial
  has_assign_self := by
    intro p part h
    cases part with
    | unknown key => exact h
    | _ => rfl
  has_assign_other := by
    intro p part part' h
    cases part <;> cases part' <;> first | exact Iff.rfl | exact absurd rfl h
  eq_of_has_assign := by
    intro p part part' h hn
    cases part <;> cases part' <;> first
      | exact absurd h hn
      | (obtain rfl := Option.some.inj h; rfl)

theorem not_has_default (part : CatrPart) : ¬({} : CatrParts).Has part := by
  cases part <;> simp [CatrParts.Has]

theorem fromU32_eq_some {n : UInt32} {rt : CatRenewalType} :
    CatRenewalType.fromU32 n = some rt ↔ n = rt.toU32 := by
  rw [← UInt32.toNat_inj]
  unfold CatRenewalType.fromU32
  split
  · rename_i h; rw [h]; cases rt <;> simp [CatRenewalType.toU32]
  · rename_i h; rw [h]; cases rt <;> simp [CatRenewalType.toU32]
  · rename_i h; rw [h]; cases rt <;> simp [CatRenewalType.toU32]
  · rename_i h; rw [h]; cases rt <;> simp [CatRenewalType.toU32]
  · rename_i h0 h1 h2 h3
    cases rt <;> simp_all [CatRenewalType.toU32]

/-- A number, and a double among the numbers must be ordinary. -/
theorem decodeCatrNumber_eq_ok {name : String} {v : Value} {f : F64} :
    decodeCatrNumber name v = .ok f ↔ numericValue v = some f ∧ f.Ordinary := by
  unfold decodeCatrNumber
  constructor
  · intro h
    obtain ⟨g, hg, h₁⟩ := Except.bind_eq_ok.mp h
    have hg := decodeNumber_eq_ok.mp hg
    cases v with
    | float g' =>
      obtain ⟨u, hord, h₂⟩ := Except.bind_eq_ok.mp h₁
      obtain rfl := Except.pure_eq_ok.mp h₂
      exact ⟨hg, (ordinary_check_eq_ok hg).mp hord⟩
    | integer i =>
      obtain rfl := Except.pure_eq_ok.mp h₁
      exact ⟨hg, ordinary_of_numericValue_integer hg⟩
    | _ => exact absurd hg (by simp [numericValue])
  · rintro ⟨hg, hord⟩
    refine Except.bind_eq_ok.mpr ⟨f, decodeNumber_eq_ok.mpr hg, ?_⟩
    cases v with
    | float g' => exact Except.bind_eq_ok.mpr ⟨(), (ordinary_check_eq_ok hg).mpr hord, rfl⟩
    | integer i => rfl
    | _ => exact absurd hg (by simp [numericValue])

theorem decodeCatrText_eq_ok {name : String} {v : Value} {s : String} :
    decodeCatrText name v = .ok s ↔ v = .text s := by
  cases v <;> simp [decodeCatrText]

theorem decodeTextArray_eq_ok {context : String} {v : Value} {ss : List String} :
    decodeTextArray v context = .ok ss ↔ v = textArray ss := by
  cases v with
  | array vs => rw [decodeTextArray, decodeTexts_eq_ok, textArray, Value.array.injEq]
  | _ => simp [decodeTextArray, textArray]

/-- The type a member names. -/
theorem decodeCatrMember_type {p p' : CatrParts} {v : Value} :
    decodeCatrMember p catrType v = .ok p' ↔
      ∃ rt, v = u32Value rt.toU32 ∧ p' = { p with renewalType := some rt } := by
  have hform : ∀ rt : CatRenewalType, v = u32Value rt.toU32 ↔
      ∃ i : Integer, v = .integer i ∧ i.toU32? = some rt.toU32 := fun rt => by
    cases v with
    | integer i => rw [integer_eq_u32Value]; simp
    | _ => simp [u32Value, natValue]
  simp only [hform]
  cases v with
  | integer i =>
    unfold decodeCatrMember
    rw [if_pos rfl]
    dsimp only
    cases hi : i.toU32? with
    | none => simp [hi]
    | some n =>
      dsimp only
      cases hn : CatRenewalType.fromU32 n with
      | none =>
        simp only [Except.throw_ne_ok, false_iff]
        rintro ⟨rt, ⟨i', heq, hi'⟩, -⟩
        obtain rfl := Value.integer.inj heq
        rw [hi, Option.some.injEq] at hi'
        rw [fromU32_eq_some.mpr hi'] at hn
        exact absurd hn (by simp)
      | some rt =>
        obtain rfl := fromU32_eq_some.mp hn
        rw [Except.pure_eq_ok]
        constructor
        · rintro rfl
          exact ⟨rt, ⟨i, rfl, hi⟩, rfl⟩
        · rintro ⟨rt', ⟨i', heq, hi'⟩, rfl⟩
          obtain rfl := Value.integer.inj heq
          rw [hi, Option.some.injEq] at hi'
          have := fromU32_eq_some.mpr hi'
          rw [hn, Option.some.injEq] at this
          rw [this]
  | _ => exact iff_of_false (by simp [decodeCatrMember]) (by simp)

/-- The status code is any `u32`; what codes make sense is left to validation. -/
theorem decodeCatrMember_status {p p' : CatrParts} {v : Value} :
    decodeCatrMember p catrStatusCode v = .ok p' ↔
      ∃ n, v = u32Value n ∧ p' = { p with statusCode := some n } := by
  cases v with
  | integer i =>
    simp only [integer_eq_u32Value]
    have hmember : decodeCatrMember p catrStatusCode (.integer i) =
        i.toU32?.elim (throw (.invalidClaimValue "Invalid catr status_code value"))
          fun c => pure { p with statusCode := some c } := by
      cases hi : i.toU32? <;> simp +decide [decodeCatrMember, hi]
    rw [hmember]
    cases hi : i.toU32? with
    | none => simp
    | some n =>
      rw [Option.elim_some, Except.pure_eq_ok]
      constructor
      · rintro rfl
        exact ⟨n, rfl, rfl⟩
      · rintro ⟨n', hn, rfl⟩
        rw [Option.some.inj hn]
  | _ =>
    refine iff_of_false ?_ (by simp [u32Value, natValue])
    exact Except.throw_ne_ok

/-- A member whose value is decoded on its own. -/
theorem memberOf_eq_ok {α : Type} {m : Except CatError α} {P : α → Prop} {f : α → CatrParts}
    {p' : CatrParts} (hm : ∀ a, m = .ok a ↔ P a) :
    (do return f (← m) : Except CatError CatrParts) = .ok p' ↔ ∃ a, P a ∧ p' = f a := by
  rw [Except.bind_eq_ok]
  constructor
  · rintro ⟨a, ha, hp⟩
    exact ⟨a, (hm a).mp ha, (Except.pure_eq_ok.mp hp).symm⟩
  · rintro ⟨a, ha, rfl⟩
    exact ⟨a, (hm a).mpr ha, rfl⟩

/-- A member under another label is not looked at. -/
theorem decodeCatrMember_unknown {p : CatrParts} {key : Int64} {v : Value}
    (h : key ∉ CatrPart.labels) : decodeCatrMember p key v = .ok p := by
  -- One label for each part, none of them twice.
  simp only [CatrPart.labels, List.mem_cons, List.not_mem_nil, or_false, not_or] at h
  obtain ⟨h0, h1, h2, h3, h4, h5, h6, h7⟩ := h
  unfold decodeCatrMember
  rw [if_neg h0, if_neg h1, if_neg h2, if_neg h3, if_neg h4, if_neg h5, if_neg h6, if_neg h7]
  rfl

/-- **A member is read as one of the parts.** -/
theorem decodeCatrMember_eq_ok {p p' : CatrParts} {key : Int64} {v : Value} :
    decodeCatrMember p key v = .ok p' ↔
      ∃ part : CatrPart, part.label = key ∧ part.Form v ∧ p' = p.assign part := by
  have hnumber : ∀ {name : String} (f : F64), decodeCatrNumber name v = .ok f ↔
      numericValue v = some f ∧ f.Ordinary := fun _ => decodeCatrNumber_eq_ok
  have htext : ∀ {name : String} (s : String), decodeCatrText name v = .ok s ↔ v = .text s :=
    fun _ => decodeCatrText_eq_ok
  have htexts : ∀ {context : String} (ss : List String),
      decodeTextArray v context = .ok ss ↔ v = textArray ss := fun _ => decodeTextArray_eq_ok
  constructor
  · intro h
    by_cases hk : key ∈ CatrPart.labels
    · simp only [CatrPart.labels, List.mem_cons, List.not_mem_nil, or_false] at hk
      rcases hk with rfl | rfl | rfl | rfl | rfl | rfl | rfl | rfl
      · obtain ⟨rt, hv, rfl⟩ := decodeCatrMember_type.mp h
        exact ⟨.renewalType rt, rfl, hv, rfl⟩
      · obtain ⟨f, hf, rfl⟩ := (memberOf_eq_ok hnumber).mp h
        exact ⟨.expadd f, rfl, hf, rfl⟩
      · obtain ⟨f, hf, rfl⟩ := (memberOf_eq_ok hnumber).mp h
        exact ⟨.deadline f, rfl, hf, rfl⟩
      · obtain ⟨s, hs, rfl⟩ := (memberOf_eq_ok htext).mp h
        exact ⟨.cookieName s, rfl, hs, rfl⟩
      · obtain ⟨s, hs, rfl⟩ := (memberOf_eq_ok htext).mp h
        exact ⟨.headerName s, rfl, hs, rfl⟩
      · obtain ⟨ss, hss, rfl⟩ := (memberOf_eq_ok htexts).mp h
        exact ⟨.cookieParams ss, rfl, hss, rfl⟩
      · obtain ⟨ss, hss, rfl⟩ := (memberOf_eq_ok htexts).mp h
        exact ⟨.headerParams ss, rfl, hss, rfl⟩
      · obtain ⟨n, hv, rfl⟩ := decodeCatrMember_status.mp h
        exact ⟨.statusCode n, rfl, hv, rfl⟩
    · rw [decodeCatrMember_unknown hk] at h
      obtain rfl := Except.ok.inj h
      exact ⟨.unknown key, rfl, hk, rfl⟩
  · rintro ⟨part, rfl, hform, rfl⟩
    cases part with
    | renewalType rt => exact decodeCatrMember_type.mpr ⟨rt, hform, rfl⟩
    | expadd f => exact (memberOf_eq_ok hnumber).mpr ⟨f, hform, rfl⟩
    | deadline f => exact (memberOf_eq_ok hnumber).mpr ⟨f, hform, rfl⟩
    | cookieName s => exact (memberOf_eq_ok htext).mpr ⟨s, hform, rfl⟩
    | headerName s => exact (memberOf_eq_ok htext).mpr ⟨s, hform, rfl⟩
    | cookieParams ss => exact (memberOf_eq_ok htexts).mpr ⟨ss, hform, rfl⟩
    | headerParams ss => exact (memberOf_eq_ok htexts).mpr ⟨ss, hform, rfl⟩
    | statusCode n => exact decodeCatrMember_status.mpr ⟨n, hform, rfl⟩
    | unknown key => exact decodeCatrMember_unknown hform

/-- A member of the map and the part it is. -/
def CatrEntry (e : Value × Value) (part : CatrPart) : Prop :=
  e.1 = i64Value part.label ∧ part.Form e.2

/-- The loop over the members is the fold of the parts they are read as. By induction on the
    members, for any record that the loop starts with. -/
theorem catrMembers_iff {es : List (Value × Value)} : ∀ {p q : CatrParts},
    CatrMembers p es q ↔ ∃ parts, List.Forall₂ CatrEntry es parts ∧
      q = parts.foldl CatrParts.assign p := by
  induction es with
  | nil =>
    intro p q
    constructor
    · rintro rfl
      exact ⟨[], .nil, rfl⟩
    · rintro ⟨parts, hparts, rfl⟩
      cases hparts
      rfl
  | cons e es ih =>
    obtain ⟨k, v⟩ := e
    intro p q
    constructor
    · rintro ⟨key, p', hk, hp, hq⟩
      obtain ⟨part, rfl, hform, rfl⟩ := decodeCatrMember_eq_ok.mp hp
      obtain ⟨parts, hparts, rfl⟩ := ih.mp hq
      exact ⟨part :: parts, .cons ⟨hk, hform⟩ hparts, rfl⟩
    · rintro ⟨parts, hparts, rfl⟩
      cases hparts with
      | @cons _ part _ parts hpart hparts =>
        exact ⟨part.label, _, hpart.1, decodeCatrMember_eq_ok.mpr ⟨part, rfl, hpart.2, rfl⟩,
          ih.mpr ⟨parts, hparts, rfl⟩⟩

theorem forall₂_keys {α : Type} {label : α → Int64} {P : Value × Value → α → Prop}
    {es : List (Value × Value)} {as : List α}
    (h : List.Forall₂ (fun e a => e.1 = i64Value (label a) ∧ P e a) es as) :
    es.map Prod.fst = (as.map label).map i64Value := by
  induction h with
  | nil => rfl
  | cons hea _ ih => rw [List.map_cons, List.map_cons, List.map_cons, hea.1, ih]

/-- **The parts of a renewal are those of its members.** -/
theorem CatrMembers.has_iff {es : List (Value × Value)} {p : CatrParts}
    (h : CatrMembers {} es p) (hkeys : KeysChecked es) :
    ∃ parts, List.Forall₂ CatrEntry es parts ∧ ∀ part, p.Has part ↔ part ∈ parts ∧ part.IsSet := by
  obtain ⟨parts, hparts, rfl⟩ := catrMembers_iff.mp h
  refine ⟨parts, hparts, fun part => ?_⟩
  exact catrRecord.has_foldl (hkeys.labels_nodup (forall₂_keys hparts)) not_has_default

theorem CatrMembers.entry_of_has {es : List (Value × Value)} {p : CatrParts}
    (h : CatrMembers {} es p) (hkeys : KeysChecked es) (part : CatrPart) (hhas : p.Has part) :
    ∃ v, (i64Value part.label, v) ∈ es ∧ part.Form v := by
  obtain ⟨parts, hparts, hiff⟩ := h.has_iff hkeys
  obtain ⟨⟨k, v⟩, he, hk, hform⟩ := hparts.exists_of_mem_right ((hiff part).mp hhas).1
  obtain rfl : k = i64Value part.label := hk
  exact ⟨v, he, hform⟩

theorem CatrMembers.part_of_entry {es : List (Value × Value)} {p : CatrParts}
    (h : CatrMembers {} es p) (hkeys : KeysChecked es) {key : Int64} {v : Value}
    (hv : (i64Value key, v) ∈ es) :
    ∃ part : CatrPart, part.label = key ∧ part.Form v ∧ (part.IsSet → p.Has part) := by
  obtain ⟨parts, hparts, hiff⟩ := h.has_iff hkeys
  obtain ⟨part, hpart, hk, hform⟩ := hparts.exists_of_mem_left hv
  exact ⟨part, (i64Value_inj.mp hk).symm, hform, fun hset => (hiff part).mpr ⟨hpart, hset⟩⟩

/-- The part under a label that is known. A known label is not the label of an unknown part, since
    the form of that one excludes it. -/
theorem CatrPart.of_label {part : CatrPart} {v : Value} (hform : part.Form v) :
    (part.label = catrType → ∃ rt, part = renewalType rt) ∧
    (part.label = catrExpadd → ∃ f, part = expadd f) ∧
    (part.label = catrDeadline → ∃ f, part = deadline f) := by
  cases part with
  | unknown key =>
    have hknown : ∀ {id}, id ∈ labels → key = id → False := fun hid h => hform (h ▸ hid)
    exact ⟨fun h => (hknown (by decide) h).elim, fun h => (hknown (by decide) h).elim,
      fun h => (hknown (by decide) h).elim⟩
  | renewalType x | expadd x | deadline x | cookieName x | headerName x | cookieParams x
  | headerParams x | statusCode x =>
    simp [label, catrType, catrExpadd, catrDeadline, catrCookieName, catrHeaderName,
      catrAdditionalCookieParams, catrAdditionalHeaderParams, catrStatusCode]

end Cat
