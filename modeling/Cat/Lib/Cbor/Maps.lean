import Cat.Lib.Cbor.Value

/-!
# Maps inside values

RFC 8949 leaves it to the application what to do about a map with the same key twice (§5.6), and
about one whose keys are not in deterministic order (§4.2.1). `AllMaps` says something of every
map in a value, those inside keys included; `ValueMaps` only of the maps that a walk through the
values comes to. `KeysSound` is what a map should be.

The difference between the two readings is what a validator that walks values leaves out, and
`allMaps_iff_valueMaps` says how much it is: the maps inside keys, asked of each map on the way.
So a validator can be judged by what it knows of one map at a time.

Values recurse through lists of values and lists of entries. Each property is defined for the
three together, and proved for the three together, following the constructors.
-/

set_option autoImplicit false

namespace Cbor

/-! ## Every map -/

mutual
/-- Of every map in the value, at any depth. -/
def Value.AllMaps (P : List (Value × Value) → Prop) : Value → Prop
  | .map es => P es ∧ Value.AllMapsEntries P es
  | .array vs => Value.AllMapsList P vs
  | .tag _ v => v.AllMaps P
  | _ => True
def Value.AllMapsList (P : List (Value × Value) → Prop) : List Value → Prop
  | [] => True
  | v :: vs => v.AllMaps P ∧ Value.AllMapsList P vs
def Value.AllMapsEntries (P : List (Value × Value) → Prop) : List (Value × Value) → Prop
  | [] => True
  | (k, v) :: es => k.AllMaps P ∧ v.AllMaps P ∧ Value.AllMapsEntries P es
end

mutual
/-- Of every map in the value that is not inside the key of one. -/
def Value.ValueMaps (P : List (Value × Value) → Prop) : Value → Prop
  | .map es => P es ∧ Value.ValueMapsEntries P es
  | .array vs => Value.ValueMapsList P vs
  | .tag _ v => v.ValueMaps P
  | _ => True
def Value.ValueMapsList (P : List (Value × Value) → Prop) : List Value → Prop
  | [] => True
  | v :: vs => v.ValueMaps P ∧ Value.ValueMapsList P vs
def Value.ValueMapsEntries (P : List (Value × Value) → Prop) : List (Value × Value) → Prop
  | [] => True
  | (_, v) :: es => v.ValueMaps P ∧ Value.ValueMapsEntries P es
end

section
variable {P Q R : List (Value × Value) → Prop}

theorem Value.allMapsEntries_iff {es : List (Value × Value)} :
    Value.AllMapsEntries P es ↔ ∀ e ∈ es, e.1.AllMaps P ∧ e.2.AllMaps P := by
  induction es with
  | nil => simp [AllMapsEntries]
  | cons e es ih => simp [AllMapsEntries, ih, and_assoc]

theorem Value.valueMapsList_iff {vs : List Value} :
    Value.ValueMapsList P vs ↔ ∀ v ∈ vs, v.ValueMaps P := by
  induction vs with
  | nil => simp [ValueMapsList]
  | cons v vs ih => simp [ValueMapsList, ih]

theorem Value.valueMapsEntries_iff {es : List (Value × Value)} :
    Value.ValueMapsEntries P es ↔ ∀ e ∈ es, e.2.ValueMaps P := by
  induction es with
  | nil => simp [ValueMapsEntries]
  | cons e es ih => simp [ValueMapsEntries, ih]

theorem Value.allMaps_map {es : List (Value × Value)} :
    (Value.map es).AllMaps P ↔ P es ∧ ∀ e ∈ es, e.1.AllMaps P ∧ e.2.AllMaps P := by
  rw [AllMaps, allMapsEntries_iff]

theorem Value.valueMaps_map {es : List (Value × Value)} :
    (Value.map es).ValueMaps P ↔ P es ∧ ∀ e ∈ es, e.2.ValueMaps P := by
  rw [ValueMaps, valueMapsEntries_iff]

theorem Value.valueMaps_array {vs : List Value} :
    (Value.array vs).ValueMaps P ↔ ∀ v ∈ vs, v.ValueMaps P := by
  rw [ValueMaps, valueMapsList_iff]

mutual
/-- A walk through the values sees all maps if it is told of those inside the keys. -/
theorem Value.allMaps_iff_valueMaps : (v : Value) →
    (v.AllMaps P ↔ v.ValueMaps fun es => P es ∧ ∀ e ∈ es, e.1.AllMaps P)
  | .map es => by
    have hes := Value.allMapsEntries_iff_valueMaps es
    rw [allMapsEntries_iff, valueMapsEntries_iff] at hes
    rw [allMaps_map, valueMaps_map]
    constructor
    · intro ⟨hp, h⟩
      exact ⟨⟨hp, fun e he => (h e he).1⟩, (hes.mp h).2⟩
    · intro ⟨⟨hp, hk⟩, h⟩
      exact ⟨hp, hes.mpr ⟨hk, h⟩⟩
  | .array vs => by
    rw [AllMaps, ValueMaps]
    exact Value.allMapsList_iff_valueMaps vs
  | .tag _ v => by
    rw [AllMaps, ValueMaps]
    exact Value.allMaps_iff_valueMaps v
  | .integer _ | .bytes _ | .float _ | .text _ | .bool _ | .null => by
    simp only [AllMaps, ValueMaps]
theorem Value.allMapsList_iff_valueMaps : (vs : List Value) →
    (Value.AllMapsList P vs ↔
      Value.ValueMapsList (fun es => P es ∧ ∀ e ∈ es, e.1.AllMaps P) vs)
  | [] => by rw [AllMapsList, ValueMapsList]
  | v :: vs => by
    rw [AllMapsList, ValueMapsList, Value.allMaps_iff_valueMaps v,
      Value.allMapsList_iff_valueMaps vs]
theorem Value.allMapsEntries_iff_valueMaps : (es : List (Value × Value)) →
    (Value.AllMapsEntries P es ↔ (∀ e ∈ es, e.1.AllMaps P) ∧
      Value.ValueMapsEntries (fun es => P es ∧ ∀ e ∈ es, e.1.AllMaps P) es)
  | [] => by simp [AllMapsEntries, ValueMapsEntries]
  | (k, v) :: es => by
    rw [AllMapsEntries, ValueMapsEntries, Value.allMaps_iff_valueMaps v,
      Value.allMapsEntries_iff_valueMaps es, List.forall_mem_cons]
    constructor
    · intro ⟨hk, hv, hks, hes⟩
      exact ⟨⟨hk, hks⟩, hv, hes⟩
    · intro ⟨⟨hk, hks⟩, hv, hes⟩
      exact ⟨hk, hv, hks, hes⟩
end

mutual
theorem Value.ValueMaps.imp (h : ∀ es, P es → Q es → R es) : {v : Value} → v.ValueMaps P →
    v.ValueMaps Q → v.ValueMaps R
  | .map _, hp, hq => ⟨h _ hp.1 hq.1, Value.ValueMapsEntries.imp h hp.2 hq.2⟩
  | .array _, hp, hq => Value.ValueMapsList.imp h hp hq
  | .tag _ v, hp, hq => Value.ValueMaps.imp (v := v) h hp hq
  | .integer _, _, _ | .bytes _, _, _ | .float _, _, _ | .text _, _, _ | .bool _, _, _
  | .null, _, _ => trivial
theorem Value.ValueMapsList.imp (h : ∀ es, P es → Q es → R es) : {vs : List Value} →
    Value.ValueMapsList P vs → Value.ValueMapsList Q vs → Value.ValueMapsList R vs
  | [], _, _ => trivial
  | _ :: _, hp, hq =>
    ⟨Value.ValueMaps.imp h hp.1 hq.1, Value.ValueMapsList.imp h hp.2 hq.2⟩
theorem Value.ValueMapsEntries.imp (h : ∀ es, P es → Q es → R es) :
    {es : List (Value × Value)} → Value.ValueMapsEntries P es → Value.ValueMapsEntries Q es →
      Value.ValueMapsEntries R es
  | [], _, _ => trivial
  | (_, _) :: _, hp, hq =>
    ⟨Value.ValueMaps.imp h hp.1 hq.1, Value.ValueMapsEntries.imp h hp.2 hq.2⟩
end

/-- What is the same for every map of a kind is the same for a value whose maps are. -/
theorem Value.ValueMaps.congr {v : Value} (hv : v.ValueMaps P)
    (h : ∀ es, P es → (Q es ↔ R es)) : v.ValueMaps Q ↔ v.ValueMaps R :=
  ⟨Value.ValueMaps.imp (fun es hp => (h es hp).mp) hv,
    Value.ValueMaps.imp (fun es hp => (h es hp).mpr) hv⟩

end

/-! ## No map -/

mutual
/-- Without maps and tags. -/
def Value.Flat : Value → Prop
  | .map _ | .tag _ _ => False
  | .array vs => Value.FlatList vs
  | _ => True
def Value.FlatList : List Value → Prop
  | [] => True
  | v :: vs => v.Flat ∧ Value.FlatList vs
end

theorem Value.flat_array {vs : List Value} : (Value.array vs).Flat ↔ ∀ v ∈ vs, v.Flat := by
  rw [Flat]
  induction vs with
  | nil => simp [FlatList]
  | cons v vs ih => simp [FlatList, ih]

mutual
theorem Value.Flat.valueMaps {P : List (Value × Value) → Prop} : {v : Value} → v.Flat →
    v.ValueMaps P
  | .map _, h => h.elim
  | .tag _ _, h => h.elim
  | .array _, h => Value.FlatList.valueMaps h
  | .integer _, _ | .bytes _, _ | .float _, _ | .text _, _ | .bool _, _ | .null, _ => trivial
theorem Value.FlatList.valueMaps {P : List (Value × Value) → Prop} : {vs : List Value} →
    Value.FlatList vs → Value.ValueMapsList P vs
  | [], _ => trivial
  | _ :: _, h => ⟨Value.Flat.valueMaps h.1, Value.FlatList.valueMaps h.2⟩
end

mutual
theorem Value.Flat.readBack : {v : Value} → v.Flat → v.readBack = v
  | .map _, h => h.elim
  | .tag _ _, h => h.elim
  | .array _, h => by rw [Value.readBack, Value.FlatList.readBack h]
  | .integer _, _ | .bytes _, _ | .float _, _ | .text _, _ | .bool _, _ | .null, _ => rfl
theorem Value.FlatList.readBack : {vs : List Value} → Value.FlatList vs →
    Value.readBackList vs = vs
  | [], _ => rfl
  | _ :: _, h => by
    rw [Value.readBackList, Value.Flat.readBack h.1, Value.FlatList.readBack h.2]
end

/-! ## Keys -/

/-- The integer keys of a map, in order. -/
def intKeys (es : List (Value × Value)) : List Integer :=
  es.filterMap fun e => match e.1 with
    | .integer i => some i
    | _ => none

/-- Where deterministic order puts an integer: as its encoding sorts bytewise, that is, the
    negative ones after all others and then by size. -/
def Integer.rank (i : Integer) : Int := if 0 ≤ i.val then i.val else 2 ^ 64 - 1 - i.val

/-- No key twice, and the integer keys in deterministic order. -/
structure KeysSound (es : List (Value × Value)) : Prop where
  distinct : (es.map Prod.fst).Nodup
  ordered : (intKeys es).Pairwise fun a b => a.rank < b.rank

theorem intKeys_cons_integer (i : Integer) (v : Value) (es : List (Value × Value)) :
    intKeys ((.integer i, v) :: es) = i :: intKeys es := rfl

theorem intKeys_cons_other {k : Value} (hk : ∀ i, k ≠ .integer i) (v : Value)
    (es : List (Value × Value)) : intKeys ((k, v) :: es) = intKeys es := by
  cases k with
  | integer i => exact absurd rfl (hk i)
  | _ => rfl

end Cbor
