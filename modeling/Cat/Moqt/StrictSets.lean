import Cat.Lib.BoundedSets
import Cat.Moqt.StrictStores

/-!
# The strict stores are bounded sets

Either strict store accepts a key that is short enough, is not retained and finds room, and
retains it then. That is all that the results about many calls ask of a store, and `BoundedSet`
is the name for it: a set of keys, those it admits, and a limit.

The two stores differ inside. One is sharded, with a count of all entries beside the shards, and
the other one is a single map behind a lock; the order of their checks differs and so do the
counters they keep of refusals. None of that is visible through `BoundedSet`, which is how a
result about calls on both kinds of relay is stated once. A store without a limit has room for
any number of keys (`roomFor none = ⊤`).

The sharded store needs its invariant, that the count is the number of entries, and the
statement is about sound stores for that reason.
-/

set_option autoImplicit false

namespace Cat

open Cbor

/-- A key that a store of identifiers may enter: 256 bytes, counted in UTF-8. -/
def AdmitsJti (key : String) : Prop := (utf8 key).length ≤ maxJtiLengthBytes

/-- How many keys a store has room for. -/
def roomFor (maxEntries : Option Nat) : ℕ∞ := maxEntries.elim ⊤ (↑)

theorem lt_roomFor {maxEntries : Option Nat} {n : Nat} :
    (n : ℕ∞) < roomFor maxEntries ↔ ∀ max ∈ maxEntries, n < max := by
  cases maxEntries with
  | none => simp [roomFor]
  | some max => simp [roomFor]

namespace InMemoryStrictJtiStore

variable {s : InMemoryStrictJtiStore} {maxEntries : Option Nat}

/-- When the sharded store accepts. -/
theorem Sound.accepts_iff (h : s.Sound) (key : String) (iat : Int64) :
    (s.checkAndInsert key iat).1 = .ok () ↔
      BoundedSet.Accepts AdmitsJti (roomFor s.maxEntries) s.retainedKeys key := by
  have hheld : key ∈ s.retainedKeys ↔ key ∈ (s.shards (s.shardFor key)).keys := by
    rw [h.mem_retainedKeys, KeyedList.mem_keys]
    rfl
  have hroom : ((s.retainedKeys : Set String).encard < roomFor s.maxEntries) ↔
      s.overCapacity = none := by
    rw [Set.encard_coe_eq_coe_finsetCard, ← h.total_eq_card, lt_roomFor, overCapacity,
      Option.filter_eq_none_iff]
    simp
  have hparts : BoundedSet.Accepts AdmitsJti (roomFor s.maxEntries) s.retainedKeys key ↔
      (utf8 key).length ≤ maxJtiLengthBytes ∧ key ∉ (s.shards (s.shardFor key)).keys ∧
        s.overCapacity = none := by
    rw [← hheld, ← hroom, BoundedSet.accepts_iff_parts]
    rfl
  rw [hparts]
  unfold InMemoryStrictJtiStore.checkAndInsert
  by_cases hlong : (utf8 key).length > maxJtiLengthBytes
  · simp [hlong]
  · cases hfull : s.overCapacity with
    | some max => simp [hlong]
    | none =>
      by_cases hkey : key ∈ (s.shards (s.shardFor key)).keys
      · simp [hlong, hkey]
      · simp [hlong, hkey, Nat.not_lt.mp hlong]

/-- A replay is one. -/
theorem checkAndInsert_replay (h : s.Sound) {key : String} {iat : Int64}
    (hreplay : (s.checkAndInsert key iat).1 = .error .replayAttackDetected) :
    key ∈ s.retainedKeys := by
  unfold checkAndInsert at hreplay
  split at hreplay
  · exact absurd hreplay (by simp)
  · split at hreplay
    · exact absurd hreplay (by simp)
    · split at hreplay
      · rename_i hkey
        exact h.mem_retainedKeys.mpr (KeyedList.mem_keys.mp hkey)
      · exact absurd hreplay (by simp)

theorem boundedSet (maxEntries : Option Nat) :
    BoundedSet (fun s => s.Sound ∧ s.maxEntries = maxEntries)
      (fun s => (s.retainedKeys : Set String)) AdmitsJti (roomFor maxEntries)
      store.checkAndInsert where
  accepts_iff now key iat s hs := by
    obtain ⟨hsound, rfl⟩ := hs
    exact hsound.accepts_iff key iat
  accepted now key iat s hs hok := by
    obtain ⟨hsound, -⟩ := hs
    have haccepted : s.checkAndInsert key iat = (.ok (), (s.checkAndInsert key iat).2) :=
      Prod.ext hok rfl
    ext k
    show k ∈ (s.checkAndInsert key iat).2.retainedKeys ↔ _
    rw [(hsound.checkAndInsert key iat).mem_retainedKeys, Set.mem_insert_iff, Finset.mem_coe,
      hsound.mem_retainedKeys]
    simp only [(checkAndInsert_ok haccepted).2.2, Prod.mk.injEq, exists_or, exists_and_left,
      exists_eq, and_true]
  refused now key iat s e hs herror := by
    obtain ⟨hshards, -, -⟩ := checkAndInsert_error
      (Prod.ext herror rfl : s.checkAndInsert key iat = (.error e, _))
    show ((s.checkAndInsert key iat).2.retainedKeys : Set String) = s.retainedKeys
    rw [retainedKeys, retainedKeys, hshards]
  valid_next now key iat s hs := by
    obtain ⟨hsound, hmax⟩ := hs
    exact ⟨hsound.checkAndInsert key iat,
      (s.call_settings (.shared (.checkAndInsert key iat))).1.trans hmax⟩
  finite _ := Finset.finite_toSet _

end InMemoryStrictJtiStore

namespace AsyncInMemoryStrictJtiStore

/-- When the store behind one lock accepts. -/
theorem accepts_iff (s : AsyncInMemoryStrictJtiStore) (key : String) (iat : Int64) :
    (s.checkAndInsert key iat).1 = .ok () ↔
      BoundedSet.Accepts AdmitsJti (roomFor s.maxEntries) s.retainedKeys key := by
  have hheld : key ∈ s.retainedKeys ↔ key ∈ s.entries.keys := List.mem_toFinset
  have hroom : ((s.retainedKeys : Set String).encard < roomFor s.maxEntries) ↔
      (s.maxEntries.filter fun max => s.entries.entries.length ≥ max) = none := by
    rw [Set.encard_coe_eq_coe_finsetCard, card_retainedKeys, lt_roomFor,
      Option.filter_eq_none_iff]
    simp
  have hparts : BoundedSet.Accepts AdmitsJti (roomFor s.maxEntries) s.retainedKeys key ↔
      (utf8 key).length ≤ maxJtiLengthBytes ∧ key ∉ s.entries.keys ∧
        (s.maxEntries.filter fun max => s.entries.entries.length ≥ max) = none := by
    rw [← hheld, ← hroom, BoundedSet.accepts_iff_parts]
    rfl
  rw [hparts]
  unfold checkAndInsert
  by_cases hlong : (utf8 key).length > maxJtiLengthBytes
  · simp [hlong]
  · by_cases hkey : key ∈ s.entries.keys
    · simp [hlong, hkey]
    · cases hfull : s.maxEntries.filter fun max => s.entries.entries.length ≥ max with
      | some max => simp [hlong, hkey]
      | none => simp [hlong, hkey, Nat.not_lt.mp hlong]

/-- An insertion is refused with no change but to the count of refusals, or enters the key. -/
theorem checkAndInsert_cases (s : AsyncInMemoryStrictJtiStore) (key : String) (iat : Int64) :
    (∃ e refused, s.checkAndInsert key iat =
        (.error e, { s with rejectedOverCapacity := refused })) ∨
      ∃ hnew, s.checkAndInsert key iat =
        (.ok (), { s with entries := s.entries.insertNew key iat hnew }) := by
  unfold checkAndInsert
  by_cases hlong : (utf8 key).length > maxJtiLengthBytes
  · rw [if_pos hlong]
    exact .inl ⟨_, _, rfl⟩
  · rw [if_neg hlong]
    by_cases hkey : key ∈ s.entries.keys
    · rw [dif_pos hkey]
      exact .inl ⟨_, _, rfl⟩
    · rw [dif_neg hkey]
      cases s.maxEntries.filter fun max => s.entries.entries.length ≥ max with
      | some max => exact .inl ⟨_, _, rfl⟩
      | none => exact .inr ⟨hkey, rfl⟩

theorem boundedSet (maxEntries : Option Nat) :
    BoundedSet (fun s : AsyncInMemoryStrictJtiStore => s.maxEntries = maxEntries)
      (fun s => (s.retainedKeys : Set String)) AdmitsJti (roomFor maxEntries)
      store.checkAndInsert where
  accepts_iff now key iat s hs := by
    obtain rfl := hs
    exact s.accepts_iff key iat
  accepted now key iat s hs hok := by
    show ((s.checkAndInsert key iat).2.retainedKeys : Set String) = _
    cases s.checkAndInsert_cases key iat with
    | inl hrefused =>
      obtain ⟨e, refused, heq⟩ := hrefused
      have hok : (s.checkAndInsert key iat).1 = .ok () := hok
      rw [heq] at hok
      exact absurd hok (by simp)
    | inr hnew =>
      obtain ⟨hnew, heq⟩ := hnew
      rw [heq]
      ext k
      simp [retainedKeys]
  refused now key iat s e hs herror := by
    show ((s.checkAndInsert key iat).2.retainedKeys : Set String) = _
    cases s.checkAndInsert_cases key iat with
    | inl hrefused =>
      obtain ⟨e, refused, heq⟩ := hrefused
      rw [heq]
      rfl
    | inr hnew =>
      obtain ⟨hnew, heq⟩ := hnew
      have herror : (s.checkAndInsert key iat).1 = .error e := herror
      rw [heq] at herror
      exact absurd herror (by simp)
  valid_next now key iat s hs := by
    show (s.checkAndInsert key iat).2.maxEntries = maxEntries
    rcases s.checkAndInsert_cases key iat with ⟨e, refused, heq⟩ | ⟨hnew, heq⟩
    · rw [heq]
      exact hs
    · rw [heq]
      exact hs
  finite _ := Finset.finite_toSet _

end AsyncInMemoryStrictJtiStore
end Cat
