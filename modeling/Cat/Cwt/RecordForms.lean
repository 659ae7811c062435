import Cat.Cwt.NumberForms

/-!
# The accepted forms: maps with members

The claims whose value is a map or an array of optional members: confirmations, DPoP settings,
failure actions, renewal and MOQT scopes. Some of these decoders skip members they do not know,
so that what they decode to does not determine the value.

For these the form is therefore not an equation. It says that the value is a map of entries and
that the loop over the entries, as the source has it, ends in the record: the loop stays in the
relation, and what it does to members that are known is proved where it is used, in `Members`
and `WrittenForms`. The renewal is the one loop that counts, an item for each member, and its
relation is stated as steps from one partial record to the next (`CatrMembers`).
-/

set_option autoImplicit false

namespace Cat

open Cbor DecodeCounters

/-! ## DPoP claims

Maps of few members, read by the loops of `Members`.
-/

section
variable {limits : CwtLimits}

/-- A map of thumbprints; without any it is nothing. -/
def CnfForm (v : Value) (r : Option ConfirmationClaim) : Prop :=
  ∃ es jkt ckt, v = .map es ∧ decodeCnfMembers [] none es = .ok (jkt, ckt) ∧
    r = if !jkt.isEmpty || ckt.isSome then some ⟨jkt, ckt⟩ else none

theorem decodeCnf_counts (v : Value) :
    Counts limits (decodeCnf v) fun r c => CnfForm v r ∧ c = 0 := by
  refine Counts.untagged ?_ (by rintro s c ⟨⟨es, jkt, ckt, rfl, -⟩, -⟩ t w; simp)
  cases v with
  | map es =>
    refine ((Counts.lift _).andThen fun p => Counts.ret _).congr fun r c => ?_
    constructor
    · rintro ⟨⟨jkt, ckt⟩, _, _, ⟨h, rfl⟩, ⟨rfl, rfl⟩, rfl⟩
      exact ⟨⟨es, jkt, ckt, rfl, h, rfl⟩, add_zero _⟩
    · rintro ⟨⟨es', jkt, ckt, heq, h, rfl⟩, rfl⟩
      obtain rfl := Value.map.inj heq
      exact ⟨(jkt, ckt), 0, 0, ⟨h, rfl⟩, ⟨rfl, rfl⟩, (add_zero _).symm⟩
  | _ =>
    refine Counts.refuse fun x c h => ?_
    obtain ⟨⟨es, _, _, heq, -⟩, -⟩ := h
    exact absurd heq (by simp)

def CatdpopForm (v : Value) (settings : CatDpopSettings) : Prop :=
  ∃ es, v = .map es ∧ decodeCatdpopMembers .new es = .ok settings ∧
    settings.validateCrit = .ok ()

theorem decodeCatdpop_counts (v : Value) :
    Counts limits (decodeCatdpop v) fun r c => CatdpopForm v r ∧ c = 0 := by
  refine Counts.untagged ?_ (by rintro s c ⟨⟨es, rfl, -⟩, -⟩ t w; simp)
  cases v with
  | map es =>
    refine ((Counts.lift _).andThen fun p => (Counts.lift _).andThen fun _ =>
      Counts.ret p).congr fun r c => ?_
    constructor
    · rintro ⟨p, _, _, ⟨h, rfl⟩, ⟨_, _, _, ⟨hcrit, rfl⟩, ⟨rfl, rfl⟩, rfl⟩, rfl⟩
      exact ⟨⟨es, rfl, h, hcrit⟩, by rw [add_zero, add_zero]⟩
    · rintro ⟨⟨es', heq, h, hcrit⟩, rfl⟩
      obtain rfl := Value.map.inj heq
      exact ⟨r, 0, 0, ⟨h, rfl⟩, ⟨(), 0, 0, ⟨hcrit, rfl⟩, ⟨rfl, rfl⟩, (add_zero _).symm⟩,
        (add_zero _).symm⟩
  | _ =>
    refine Counts.refuse fun x c h => ?_
    obtain ⟨⟨es, heq, -⟩, -⟩ := h
    exact absurd heq (by simp)

/-! ## Request claims

`catif` is a map from claim keys to actions, `catr` a record.
-/

theorem decodeMemberKey_eq_ok {name : String} {k : Value} {n : Int64} :
    decodeMemberKey name k = .ok n ↔ k = i64Value n := by
  unfold decodeMemberKey
  cases k with
  | integer i => rw [integer_eq_i64Value]; dsimp only; cases i.toI64? <;> simp
  | _ => simp [i64Value]

def CatifEntryForm (H : Host) (e : Value × Value) (x : Int64 × CatIfAction) : Prop :=
  e.1 = i64Value x.1 ∧ ∃ vs, e.2 = .array vs ∧ decodeCatifAction H vs = .ok x.2

theorem decodeCatifEntry_counts (H : Host) (e : Value × Value) :
    Counts limits (decodeCatifEntry H limits e) fun x c =>
      CatifEntryForm H e x ∧ c = itemCost 1 := by
  obtain ⟨k, v⟩ := e
  cases v with
  | array vs =>
    refine (Counts.countItem.andThen fun _ => (Counts.lift _).andThen fun key =>
      (Counts.lift _).andThen fun a => Counts.ret (key, a)).congr fun x c => ?_
    simp only [decodeMemberKey_eq_ok]
    constructor
    · rintro ⟨_, _, _, rfl, ⟨key, _, _, ⟨hk, rfl⟩, ⟨a, _, _, ⟨ha, rfl⟩, ⟨rfl, rfl⟩, rfl⟩, rfl⟩, rfl⟩
      exact ⟨⟨hk, vs, rfl, ha⟩, by rw [add_zero, add_zero, add_zero]⟩
    · rintro ⟨⟨hk, vs', heq, ha⟩, rfl⟩
      obtain rfl := Value.array.inj heq
      exact ⟨(), _, 0, rfl, ⟨x.1, 0, 0, ⟨hk, rfl⟩, ⟨x.2, 0, 0, ⟨ha, rfl⟩, ⟨rfl, rfl⟩,
        (add_zero _).symm⟩, (add_zero _).symm⟩, (add_zero _).symm⟩
  | _ =>
    refine (Counts.countItem.andThen fun _ => (Counts.lift _).andThen fun key =>
      Counts.fail _).congr fun x c => ?_
    constructor
    · rintro ⟨_, _, _, _, ⟨_, _, _, _, hfalse, _⟩, _⟩
      exact hfalse.elim
    · rintro ⟨⟨-, vs, heq, -⟩, -⟩
      exact absurd heq (by simp)

/-- A map of actions; an empty one is nothing. -/
def CatifForm (H : Host) (v : Value) (r : Option (List (Int64 × CatIfAction)))
    (c : DecodeCounters) : Prop :=
  ∃ es as, v = .map es ∧ List.Forall₂ (CatifEntryForm H) es as ∧
    r = (if as.isEmpty then none else some as) ∧ c = itemCost as.length

theorem decodeCatif_counts (H : Host) (v : Value) :
    Counts limits (decodeCatif H limits v) (CatifForm H v) := by
  refine Counts.untagged ?_ (by rintro s c ⟨es, as, rfl, -⟩ t w; simp)
  cases v with
  | map es =>
    refine ((Counts.traverse (decodeCatifEntry_counts H) es).andThen fun as =>
      Counts.ret _).congr fun r c => ?_
    simp only [sum_itemCost]
    constructor
    · rintro ⟨as, _, _, ⟨has, rfl⟩, ⟨rfl, rfl⟩, rfl⟩
      exact ⟨es, as, rfl, has, rfl, add_zero _⟩
    · rintro ⟨es', as, heq, has, rfl, rfl⟩
      obtain rfl := Value.map.inj heq
      exact ⟨as, _, 0, ⟨has, rfl⟩, ⟨rfl, rfl⟩, (add_zero _).symm⟩
  | _ =>
    refine Counts.refuse fun x c h => ?_
    obtain ⟨es, as, heq, -⟩ := h
    exact absurd heq (by simp)

/-- The members of a renewal, read in turn. -/
def CatrMembers (p : CatrParts) : List (Value × Value) → CatrParts → Prop
  | [], q => p = q
  | (k, v) :: es, q => ∃ key p', k = i64Value key ∧ decodeCatrMember p key v = .ok p' ∧
      CatrMembers p' es q

/-- Each member is counted before it is read. By induction on the members, for any record so far. -/
theorem decodeCatrMembers_counts (es : List (Value × Value)) : ∀ p,
    Counts limits (decodeCatrMembers limits p es) fun q c =>
      CatrMembers p es q ∧ c = itemCost es.length := by
  induction es with
  | nil =>
    intro p
    exact (Counts.ret p).congr fun q c => Iff.rfl
  | cons e es ih =>
    obtain ⟨k, v⟩ := e
    intro p
    refine (Counts.countItem.andThen fun _ => (Counts.lift _).andThen fun key =>
      (Counts.lift _).andThen fun p' => ih p').congr fun q c => ?_
    have hcost : itemCost ((k, v) :: es).length = itemCost 1 + itemCost es.length := by
      apply ext_counts <;> simp [itemCost, Nat.add_comm]
    simp only [decodeMemberKey_eq_ok]
    rw [hcost]
    constructor
    · rintro ⟨_, _, _, rfl, ⟨key, _, _, ⟨hk, rfl⟩, ⟨p', _, _, ⟨hp, rfl⟩, ⟨hq, rfl⟩, rfl⟩, rfl⟩, rfl⟩
      exact ⟨⟨key, p', hk, hp, hq⟩, by rw [zero_add, zero_add]⟩
    · rintro ⟨⟨key, p', hk, hp, hq⟩, rfl⟩
      exact ⟨(), _, _, rfl, ⟨key, 0, _, ⟨hk, rfl⟩, ⟨p', 0, _, ⟨hp, rfl⟩, ⟨hq, rfl⟩,
        (zero_add _).symm⟩, (zero_add _).symm⟩, rfl⟩

/-- What the members make: nothing without a type, and with one only if they have a positive
    `expadd`. -/
def CatrMade (p : CatrParts) (r : Option CatRenewal) : Prop :=
  match p.renewalType with
  | none => r = none
  | some rt => ∃ ea, p.expadd = some ea ∧ F64.le ea (F64.ofInt 0) = false ∧
      r = some ⟨rt, p.expadd, p.deadline, p.cookieName, p.headerName, p.cookieParams,
        p.headerParams, p.statusCode⟩

def CatrForm (v : Value) (r : Option CatRenewal) (c : DecodeCounters) : Prop :=
  ∃ es p, v = .map es ∧ CatrMembers {} es p ∧ CatrMade p r ∧ c = itemCost es.length

theorem decodeCatr_counts (v : Value) :
    Counts limits (decodeCatr limits v) (CatrForm v) := by
  refine Counts.untagged ?_ (by rintro s c ⟨es, p, rfl, -⟩ t w; simp)
  cases v with
  | map es =>
    refine ((decodeCatrMembers_counts es {}).andThen (S := fun p r c => CatrMade p r ∧ c = 0)
      fun p => ?_).congr fun r c => ?_
    · unfold CatrMade
      cases p.renewalType with
      | none => exact (Counts.ret none).congr fun r c => and_congr_left' eq_comm
      | some rt =>
        cases p.expadd with
        | none =>
          refine ((Counts.fail _).andThen fun _ => Counts.ret _).congr fun r c => ?_
          constructor
          · rintro ⟨_, _, _, hfalse, -⟩
            exact hfalse.elim
          · rintro ⟨⟨ea, hea, -⟩, -⟩
            exact absurd hea (by simp)
        | some ea =>
          refine (Counts.guard (p := F64.le ea (F64.ofInt 0) = true) (Counts.ret _)).congr
            fun r c => ?_
          rw [Bool.not_eq_true]
          constructor
          · rintro ⟨hpos, rfl, rfl⟩
            exact ⟨⟨ea, rfl, hpos, rfl⟩, rfl⟩
          · rintro ⟨⟨ea', heq, hpos, rfl⟩, rfl⟩
            obtain rfl := Option.some.inj heq
            exact ⟨hpos, rfl, rfl⟩
    · constructor
      · rintro ⟨p, _, _, ⟨hp, rfl⟩, ⟨hr, rfl⟩, rfl⟩
        exact ⟨es, p, rfl, hp, hr, add_zero _⟩
      · rintro ⟨es', p, heq, hp, hr, rfl⟩
        obtain rfl := Value.map.inj heq
        exact ⟨p, _, 0, ⟨hp, rfl⟩, ⟨hr, rfl⟩, (add_zero _).symm⟩
  | _ =>
    refine Counts.refuse fun x c h => ?_
    obtain ⟨es, p, heq, -⟩ := h
    exact absurd heq (by simp)

/-! ## MOQT scopes

An array of scopes, each of which is decoded by itself and counts for nothing.
-/

def MoqtForm (limits : CwtLimits) (v : Value) (ss : List MoqtScope) : Prop :=
  ∃ vs, v = .array vs ∧ vs.length ≤ limits.maxMoqtScopes ∧
    vs.mapM' (decodeScope limits) = .ok ss

/-- Scopes are not counted as items; there is a limit on their number. -/
theorem decodeMoqt_counts (v : Value) :
    Counts limits (decodeMoqt limits v) fun ss c => MoqtForm limits v ss ∧ c = 0 := by
  refine Counts.untagged ?_ (by rintro s c ⟨⟨vs, rfl, -⟩, -⟩ t w; simp)
  cases v with
  | array vs =>
    refine (Counts.guard (p := vs.length > limits.maxMoqtScopes) (Counts.lift _)).congr
      fun ss c => ?_
    constructor
    · rintro ⟨hlen, h, rfl⟩
      exact ⟨⟨vs, rfl, Nat.le_of_not_lt hlen, h⟩, rfl⟩
    · rintro ⟨⟨vs', heq, hlen, h⟩, rfl⟩
      obtain rfl := Value.array.inj heq
      exact ⟨Nat.not_lt.mpr hlen, h, rfl⟩
  | _ =>
    refine Counts.refuse fun x c h => ?_
    obtain ⟨⟨vs, heq, -⟩, -⟩ := h
    exact absurd heq (by simp)

end
end Cat
