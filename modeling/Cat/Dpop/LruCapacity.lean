import Cat.Dpop.LruJtiStore
import Cat.Lib.BoundedSets

/-!
# The capacity of the store that evicts

The shards of `LruJtiStore` divide the capacity with no slot lost or added. No operation changes
what a shard has room for, and each key stays in its own shard (`LruJtiStore.Divided`), so that
over any run of inserts and cleanups the length of the store is the number of keys it retains,
within the capacity.

The division has a remainder, which the source gives to the first shards, one slot each. There
are never more shards than slots, so each has one at least. The statements are for every
capacity and every number of shards, and for every hash: where a hash puts all keys into one
shard, the store holds as many as that shard, and the rest of the capacity is idle.

The invariant is about keys and shards and says nothing of recency. Which entry a full shard
gives up is in `Lib.Lru`.
-/

set_option autoImplicit false

namespace Cat

open Cbor

/-- `a - b` on `i64`: with overflow checks it panics where it wraps without them. -/
def subtract (overflowChecks : Bool) (a b : Int64) : Option Int64 :=
  if overflowChecks then a.checkedSub b else some (a - b)

inductive LruOp where
  | checkAndInsert (c : TimedInsert)
  | cleanup (now : ClockReading) (maxAgeSeconds : Int64)

namespace LruJtiStore

/-- The keys to take out of a shard, if no age panics on the way. -/
def expiredKeys (overflowChecks : Bool) (now maxAgeSeconds : Int64) :
    List (String × Int64) → Option (List String)
  | [] => some []
  | (key, iat) :: entries => do
    let age ← subtract overflowChecks now iat
    let keys ← expiredKeys overflowChecks now maxAgeSeconds entries
    return if age ≥ maxAgeSeconds then key :: keys else keys

/-- The loop over the shards. A panic lets go of the lock with nothing taken out. -/
def cleanupShards {n : Nat} (overflowChecks : Bool) (now maxAgeSeconds : Int64) :
    List (Fin n) → (Fin n → Lru String Int64) → Option Unit × (Fin n → Lru String Int64)
  | [], shards => (some (), shards)
  | i :: is, shards =>
    match expiredKeys overflowChecks now maxAgeSeconds (shards i).entries with
    | none => (none, shards)
    | some expired =>
      cleanupShards overflowChecks now maxAgeSeconds is
        (Function.update shards i ((shards i).popAll expired))

def cleanup (s : LruJtiStore) (overflowChecks : Bool) (now : ClockReading)
    (maxAgeSeconds : Int64) : Option Unit × LruJtiStore :=
  let (done, shards) := cleanupShards overflowChecks now.secs maxAgeSeconds
    (List.finRange s.shardCount) s.shards
  (done, { s with shards })

def len (s : LruJtiStore) : Nat :=
  ((List.finRange s.shardCount).map fun i => (s.shards i).entries.length).sum

/-- The store that an operation leaves, refused, panicked or not. -/
def call (s : LruJtiStore) (overflowChecks : Bool) : LruOp → LruJtiStore
  | .checkAndInsert c => (s.checkAndInsert c).2
  | .cleanup now maxAge => (s.cleanup overflowChecks now maxAge).2

def afterOps (s : LruJtiStore) (overflowChecks : Bool) (ops : List LruOp) : LruJtiStore :=
  ops.foldl (fun s op => s.call overflowChecks op) s

/-- The distinct keys in all shards. -/
def retained (s : LruJtiStore) : Finset String :=
  Finset.univ.biUnion fun i => (s.shards i).keys.toFinset

/-- The shards divide a number of slots, with one for each, and each key is in its own. -/
structure Divided (total : Nat) (s : LruJtiStore) : Prop where
  pos : ∀ i, 1 ≤ (s.shards i).cap
  sum : ∑ i, (s.shards i).cap = total
  own : ∀ i, ∀ key ∈ (s.shards i).keys, s.shardFor key = i

variable {s : LruJtiStore} {total : Nat} {overflowChecks : Bool}

/-! ## The division -/

/-- The shards are no more than the slots, so the share of each is one at least. -/
theorem divided_withShardsAndWindow (hash : Bytes → UInt64) (capacity shards : Nat)
    (window : Int64) :
    (withShardsAndWindow hash capacity shards window).Divided
      (min (max capacity minJtiCacheSize) maxJtiCacheSize) where
  pos i := Nat.le_max_right _ 1
  sum := by
    have hpos := (withShardsAndWindow hash capacity shards window).shardCount_pos
    change 0 < min (max shards 1) (min (max capacity minJtiCacheSize) maxJtiCacheSize) at hpos
    show ∑ i : Fin (min (max shards 1) (min (max capacity minJtiCacheSize) maxJtiCacheSize)),
      max (_ / _ + if i.val < _ % _ then 1 else 0) 1 = _
    generalize min (max capacity minJtiCacheSize) maxJtiCacheSize = requested at *
    have hle : min (max shards 1) requested ≤ requested := Nat.min_le_right _ _
    generalize min (max shards 1) requested = n at *
    have hbase : 1 ≤ requested / n := Nat.div_pos hle hpos
    calc ∑ i : Fin n, max (requested / n + if i.val < requested % n then 1 else 0) 1
        = ∑ i : Fin n, (requested / n + if i.val < requested % n then 1 else 0) := by
          apply Finset.sum_congr rfl
          intro i _
          exact Nat.max_eq_left (Nat.le_add_right_of_le hbase)
      _ = requested := Shards.sum_shares requested hpos
  own i key hkey := absurd hkey List.not_mem_nil

/-! ## The operations -/

/-- A change of shards that leaves their capacities, and the keys where they belong. -/
theorem Divided.withShards (h : s.Divided total) {shards : Fin s.shardCount → Lru String Int64}
    (n : Nat) (hcap : ∀ i, (shards i).cap = (s.shards i).cap)
    (hown : ∀ i, ∀ key ∈ (shards i).keys, s.shardFor key = i) :
    Divided total { s with shards, prematureEvictions := n } where
  pos i := (hcap i).symm ▸ h.pos i
  sum := (Finset.sum_congr rfl fun i _ => hcap i).trans h.sum
  own := hown

theorem Divided.checkAndInsert (h : s.Divided total) (c : TimedInsert) :
    (s.checkAndInsert c).2.Divided total := by
  cases s.checkAndInsert_cases c with
  | inl hrefused =>
    obtain ⟨e, heq, -⟩ := hrefused
    rw [heq]
    exact h
  | inr haccepted =>
    rw [haccepted.1]
    apply h.withShards
    · intro i
      by_cases hi : i = s.shardFor c.key
      · rw [hi, Function.update_self]
        rfl
      · rw [Function.update_of_ne hi]
    · intro i key hkey
      by_cases hi : i = s.shardFor c.key
      · rw [hi, Function.update_self] at hkey
        cases Lru.mem_keys_of_put hkey with
        | inl hnew => rw [hnew, hi]
        | inr hold => rw [h.own _ key hold, hi]
      · rw [Function.update_of_ne hi] at hkey
        exact h.own i key hkey

/-- The loop changes no capacity, and only takes entries out. -/
theorem cleanupShards_spec {n : Nat} {now maxAge : Int64} {is : List (Fin n)}
    {shards : Fin n → Lru String Int64} (i : Fin n) :
    ((cleanupShards overflowChecks now maxAge is shards).2 i).cap = (shards i).cap ∧
      ((cleanupShards overflowChecks now maxAge is shards).2 i).entries ⊆ (shards i).entries := by
  induction is generalizing shards with
  | nil => exact ⟨rfl, List.Subset.refl _⟩
  | cons j is ih =>
    rw [cleanupShards]
    cases expiredKeys overflowChecks now maxAge (shards j).entries with
    | none => exact ⟨rfl, List.Subset.refl _⟩
    | some expired =>
      dsimp only
      obtain ⟨hcap, hentries⟩ := @ih (Function.update shards j ((shards j).popAll expired))
      by_cases hi : i = j
      · subst hi
        rw [Function.update_self] at hcap hentries
        refine ⟨hcap.trans (Lru.popAll_cap _ _), ?_⟩
        intro e he
        exact (Lru.mem_popAll.mp (hentries he)).1
      · rw [Function.update_of_ne hi] at hcap hentries
        exact ⟨hcap, hentries⟩

theorem Divided.cleanup (h : s.Divided total) (now : ClockReading) (maxAge : Int64) :
    (s.cleanup overflowChecks now maxAge).2.Divided total := by
  apply h.withShards
  · intro i
    exact (cleanupShards_spec i).1
  · intro i key hkey
    obtain ⟨e, he, rfl⟩ := List.mem_map.mp hkey
    exact h.own i e.1 (List.mem_map_of_mem ((cleanupShards_spec i).2 he))

theorem Divided.call (h : s.Divided total) (op : LruOp) :
    (s.call overflowChecks op).Divided total := by
  cases op with
  | checkAndInsert c => exact h.checkAndInsert c
  | cleanup now maxAge => exact h.cleanup now maxAge

theorem Divided.afterOps (h : s.Divided total) (overflowChecks : Bool) (ops : List LruOp) :
    (s.afterOps overflowChecks ops).Divided total := by
  induction ops generalizing s with
  | nil => exact h
  | cons op ops ih => exact ih (h.call op)

/-! ## What a cleanup leaves -/

/-- If no age panics, each entry has one, and those that have reached the bound expire. -/
theorem expiredKeys_eq_some {now maxAge : Int64} {entries : List (String × Int64)}
    {keys : List String} (h : expiredKeys overflowChecks now maxAge entries = some keys) :
    (∀ e ∈ entries, ∃ age, subtract overflowChecks now e.2 = some age) ∧
      ∀ key, key ∈ keys ↔ ∃ iat age, (key, iat) ∈ entries ∧
        subtract overflowChecks now iat = some age ∧ maxAge ≤ age := by
  induction entries generalizing keys with
  | nil =>
    obtain rfl := Option.some.inj h
    simp
  | cons e entries ih =>
    obtain ⟨key, iat⟩ := e
    obtain ⟨age, hage, h⟩ := Option.bind_eq_some_iff.mp h
    obtain ⟨more, hmore, h⟩ := Option.bind_eq_some_iff.mp h
    obtain rfl := Option.some.inj h
    obtain ⟨hages, hkeys⟩ := ih hmore
    refine ⟨List.forall_mem_cons.mpr ⟨⟨age, hage⟩, hages⟩, ?_⟩
    intro key'
    by_cases hold : age ≥ maxAge
    · rw [if_pos hold, List.mem_cons, hkeys]
      constructor
      · rintro (rfl | ⟨iat', age', hmem, hrest⟩)
        · exact ⟨iat, age, List.mem_cons_self, hage, hold⟩
        · exact ⟨iat', age', List.mem_cons_of_mem _ hmem, hrest⟩
      · rintro ⟨iat', age', hmem, hrest⟩
        cases List.mem_cons.mp hmem with
        | inl heq => exact .inl (Prod.mk.inj heq).1
        | inr hmem => exact .inr ⟨iat', age', hmem, hrest⟩
    · rw [if_neg hold, hkeys]
      constructor
      · rintro ⟨iat', age', hmem, hrest⟩
        exact ⟨iat', age', List.mem_cons_of_mem _ hmem, hrest⟩
      · rintro ⟨iat', age', hmem, hage', hrest⟩
        cases List.mem_cons.mp hmem with
        | inl heq =>
          obtain ⟨rfl, rfl⟩ := Prod.mk.inj heq
          rw [hage] at hage'
          exact absurd (Option.some.inj hage' ▸ hrest) hold
        | inr hmem => exact ⟨iat', age', hmem, hage', hrest⟩

/-- A shard that the loop does not come to stays as it is. -/
theorem cleanupShards_of_not_mem {n : Nat} {now maxAge : Int64} {is : List (Fin n)}
    {shards : Fin n → Lru String Int64} {i : Fin n} (hi : i ∉ is) :
    (cleanupShards overflowChecks now maxAge is shards).2 i = shards i := by
  induction is generalizing shards with
  | nil => rfl
  | cons j is ih =>
    rw [List.mem_cons, not_or] at hi
    rw [cleanupShards]
    cases expiredKeys overflowChecks now maxAge (shards j).entries with
    | none => rfl
    | some expired =>
      dsimp only
      rw [ih hi.2, Function.update_of_ne hi.1]

/-- A loop that ends has taken the expired keys out of each shard. -/
theorem cleanupShards_done {n : Nat} {now maxAge : Int64} {is : List (Fin n)}
    {shards : Fin n → Lru String Int64} (hnodup : is.Nodup)
    (h : (cleanupShards overflowChecks now maxAge is shards).1 = some ()) :
    ∀ i ∈ is, ∃ keys, expiredKeys overflowChecks now maxAge (shards i).entries = some keys ∧
      (cleanupShards overflowChecks now maxAge is shards).2 i = (shards i).popAll keys := by
  induction is generalizing shards with
  | nil => exact fun i hi => absurd hi List.not_mem_nil
  | cons j is ih =>
    obtain ⟨hj, hnodup⟩ := List.nodup_cons.mp hnodup
    rw [cleanupShards] at h ⊢
    cases hexpired : expiredKeys overflowChecks now maxAge (shards j).entries with
    | none =>
      rw [hexpired] at h
      cases h
    | some expired =>
      rw [hexpired] at h
      dsimp only at h ⊢
      refine List.forall_mem_cons.mpr ⟨⟨expired, hexpired, ?_⟩, ?_⟩
      · rw [cleanupShards_of_not_mem hj, Function.update_self]
      · intro i hi
        have hij : i ≠ j := fun heq => hj (heq ▸ hi)
        have hrest := ih hnodup h i hi
        rwa [Function.update_of_ne hij] at hrest

/-- **A cleanup that does not panic leaves the entries younger than the bound**, by the age that
    the build computes. -/
theorem mem_cleanup {now : ClockReading} {maxAge : Int64}
    (h : (s.cleanup overflowChecks now maxAge).1 = some ()) (i : Fin s.shardCount)
    (e : String × Int64) :
    e ∈ ((s.cleanup overflowChecks now maxAge).2.shards i).entries ↔ e ∈ (s.shards i).entries ∧
      ∃ age, subtract overflowChecks now.secs e.2 = some age ∧ age < maxAge := by
  obtain ⟨keys, hkeys, hleft⟩ :=
    cleanupShards_done (List.nodup_finRange _) h i (List.mem_finRange i)
  obtain ⟨hages, hexpired⟩ := expiredKeys_eq_some hkeys
  show e ∈ ((cleanupShards _ _ _ _ _).2 i).entries ↔ _
  rw [hleft, Lru.mem_popAll, and_congr_right_iff]
  intro he
  obtain ⟨age, hage⟩ := hages e he
  have hexpires : e.1 ∈ keys ↔ maxAge ≤ age := by
    rw [hexpired]
    constructor
    · rintro ⟨iat, age', hmem, hage', hle⟩
      -- the key has one entry only
      have hsame := Lru.peek_eq_some.mpr he
      rw [Lru.peek_eq_some.mpr hmem] at hsame
      rw [Option.some.inj hsame, hage] at hage'
      rwa [Option.some.inj hage']
    · intro hle
      exact ⟨e.2, age, he, hage, hle⟩
  rw [hexpires, hage, Int64.not_le]
  simp

/-! ## The length -/

theorem len_eq_sum : s.len = ∑ i, (s.shards i).entries.length := by
  unfold len
  rw [← List.sum_toFinset _ (List.nodup_finRange _), List.toFinset_finRange]

theorem Divided.len_le (h : s.Divided total) : s.len ≤ total := by
  rw [len_eq_sum, ← h.sum]
  exact Finset.sum_le_sum fun i _ => (s.shards i).length_le

theorem Divided.len_eq_card (h : s.Divided total) : s.len = s.retained.card := by
  calc s.len
      = ∑ i, (s.shards i).entries.length := len_eq_sum
    _ = ∑ i, (s.shards i).keys.length :=
        Finset.sum_congr rfl fun i _ => (List.length_map _).symm
    _ = s.retained.card := Shards.sum_length_eq_card (fun i => (s.shards i).nodup) h.own

/-- **The capacity is divided exactly, and kept to over every run.**

What is left over in the division goes to the first shards, one each. There are never more shards
than keys to hold, so none is left without room, and no bound is rounded up. -/
theorem lruJtiStore_capacity (hash : Bytes → UInt64) (capacity shards : Nat) (window : Int64)
    (overflowChecks : Bool) (ops : List LruOp) :
    (∀ i, 1 ≤ ((withShardsAndWindow hash capacity shards window).shards i).cap) ∧
      ∑ i, ((withShardsAndWindow hash capacity shards window).shards i).cap =
        min (max capacity minJtiCacheSize) maxJtiCacheSize ∧
      ((withShardsAndWindow hash capacity shards window).afterOps overflowChecks ops).len ≤
        min (max capacity minJtiCacheSize) maxJtiCacheSize ∧
      ((withShardsAndWindow hash capacity shards window).afterOps overflowChecks ops).len =
        ((withShardsAndWindow hash capacity shards window).afterOps
          overflowChecks ops).retained.card := by
  have hdivided := divided_withShardsAndWindow hash capacity shards window
  have hafter := hdivided.afterOps overflowChecks ops
  exact ⟨hdivided.pos, hdivided.sum, hafter.len_le, hafter.len_eq_card⟩

end LruJtiStore

end Cat
