import Cat.Dpop.LruCapacity
import Cat.Moqt.StrictSets

/-!
# The store that evicts, until it does

Next to a store that keeps every identifier, the store that evicts holds the same ones and
answers the same up to its first eviction, and is behind from there on. No eviction comes before
the other store has filled the share of one shard.

Both stores run through the same operations, and `Tracks` relates them as long as nothing is
driven out: they hold the same entries, so they give the same answer, so they hold the same
entries afterwards. An insertion that does drive something out ends this for good at that point
of the run, which makes the condition exact (`lruJtiStore_exact`).

Ages are subtracted with or without overflow checks, depending on how the crate was built, and a
cleanup that panics leaves the store as it is. The runs are those whose ages fit into 64 bits;
real clocks give no others.
-/

set_option autoImplicit false

namespace Cat

open Cbor

/-- The operation on a store that asks no clock to insert. -/
def LruOp.asJti : LruOp → JtiOp
  | .checkAndInsert c => .checkAndInsert c.key c.iat
  | .cleanup now maxAge => .cleanup now maxAge

/-- Nothing is inserted with a time before the first, and a cleanup can tell its age. -/
def LruOp.FitsFrom (first : Int64) : LruOp → Prop
  | .checkAndInsert c => first.toInt ≤ c.iat.toInt
  | .cleanup now _ => now.secs.toInt - first.toInt < 2 ^ 63

/-- An age that fits is computed the same with and without overflow checks. -/
theorem subtract_eq_some (overflowChecks : Bool) {now : ClockReading} {first iat : Int64}
    (hfirst : first.toInt ≤ iat.toInt) (hnow : now.secs.toInt - first.toInt < 2 ^ 63) :
    ∃ age, subtract overflowChecks now.secs iat = some age ∧
      age.toInt = now.secs.toInt - iat.toInt := by
  have hlo := now.nonneg
  have hiat := iat.toInt_lt
  cases overflowChecks with
  | true =>
    have hage : Int64.ofInt? (now.secs.toInt - iat.toInt) =
        some (.ofInt (now.secs.toInt - iat.toInt)) := by
      rw [Int64.ofInt?, if_pos (by omega)]
    exact ⟨_, hage, Int64.toInt_ofInt_of_le (by omega) (by omega)⟩
  | false =>
    refine ⟨now.secs - iat, rfl, ?_⟩
    rw [Int64.toInt_sub, Int.bmod_eq_of_le (by omega) (by omega)]

namespace LruJtiStore

variable {s : LruJtiStore} {t : AsyncInMemoryStrictJtiStore} {c : TimedInsert} {first : Int64}
  {share : Nat} {overflowChecks : Bool}

/-- The entries of the one are those of the other. -/
def Matches (s : LruJtiStore) (t : AsyncInMemoryStrictJtiStore) : Prop :=
  ∀ key iat, s.Holds key iat ↔ (key, iat) ∈ t.entries

/-- No insertion of the run drives an entry out. -/
def NeverEvicts (s : LruJtiStore) (overflowChecks : Bool) (ops : List LruOp) : Prop :=
  ∀ as c, as ++ [.checkAndInsert c] <+: ops → (s.afterOps overflowChecks as).evicts c = none

/-- Before each insertion of the run the other store holds fewer keys than a share. -/
def KeepsBelow (share : Nat) (t : AsyncInMemoryStrictJtiStore) (ops : List LruOp) : Prop :=
  ∀ as c, as ++ [.checkAndInsert c] <+: ops →
    (t.after (as.map LruOp.asJti)).retainedKeys.card < share

/-! ## Cleanups -/

theorem expiredKeys_ends {now : Int64} (maxAge : Int64) {entries : List (String × Int64)}
    (h : ∀ e ∈ entries, ∃ age, subtract overflowChecks now e.2 = some age) :
    ∃ keys, expiredKeys overflowChecks now maxAge entries = some keys := by
  induction entries with
  | nil => exact ⟨[], rfl⟩
  | cons e entries ih =>
    obtain ⟨hage, hrest⟩ := List.forall_mem_cons.mp h
    obtain ⟨age, hage⟩ := hage
    obtain ⟨keys, hkeys⟩ := ih hrest
    simp [expiredKeys, hage, hkeys]

/-- The loop ends if no age panics. -/
theorem cleanupShards_ends {n : Nat} {now maxAge : Int64} {is : List (Fin n)}
    {shards : Fin n → Lru String Int64}
    (h : ∀ i, ∀ e ∈ (shards i).entries, ∃ age, subtract overflowChecks now e.2 = some age) :
    (cleanupShards overflowChecks now maxAge is shards).1 = some () := by
  induction is generalizing shards with
  | nil => rfl
  | cons j is ih =>
    obtain ⟨keys, hkeys⟩ := expiredKeys_ends maxAge (h j)
    rw [cleanupShards, hkeys]
    apply ih
    intro i e he
    by_cases hi : i = j
    · subst hi
      rw [Function.update_self] at he
      exact h i e (Lru.mem_popAll.mp he).1
    · rw [Function.update_of_ne hi] at he
      exact h i e he

/-! ## Evictions -/

/-- A call that drives nothing out adds an entry to those held. -/
theorem holds_record (hpos : ∀ i, 1 ≤ (s.shards i).cap)
    (hnew : (s.shards (s.shardFor c.key)).contains c.key = false)
    (hnone : ((s.shards (s.shardFor c.key)).push c.key c.iat).1 = none)
    {key : String} {iat : Int64} :
    (s.record c).Holds key iat ↔ (key, iat) = (c.key, c.iat) ∨ s.Holds key iat := by
  have hroom := (Lru.push_eq_none_iff hnew (hpos _)).mp hnone
  show (key, iat) ∈ (Function.update s.shards (s.shardFor c.key)
    ((s.shards (s.shardFor c.key)).put c.key c.iat) (s.shardFor key)).entries ↔ _
  by_cases hshard : s.shardFor key = s.shardFor c.key
  · rw [hshard, Function.update_self, Lru.entries_put_of_room hnew hroom, List.mem_cons, Holds,
      hshard]
  · rw [Function.update_of_ne hshard, Holds]
    refine ⟨.inr, ?_⟩
    rintro (heq | hold)
    · exact absurd (congrArg s.shardFor (Prod.mk.inj heq).1) hshard
    · exact hold

/-- What a call drives out was held and is not any more. -/
theorem not_holds_of_evicts {total : Nat} (h : s.Divided total) {e : String × Int64}
    (he : s.evicts c = some e) :
    s.Holds e.1 e.2 ∧ ¬(s.checkAndInsert c).2.Holds e.1 e.2 := by
  rcases s.checkAndInsert_cases c with ⟨_, -, hnone⟩ | ⟨heq, hnew, hevicts⟩
  · rw [hnone] at he
    exact absurd he (by simp)
  · obtain ⟨hmem, hgone⟩ := Lru.not_mem_of_push hnew (hevicts ▸ he)
    have hshard := h.own _ e.1 (List.mem_map_of_mem hmem)
    rw [heq]
    refine ⟨?_, ?_⟩
    · rw [Holds, hshard]
      exact hmem
    · show ¬e ∈ (Function.update s.shards (s.shardFor c.key)
        ((s.shards (s.shardFor c.key)).push c.key c.iat).2 (s.shardFor e.1)).entries
      rw [hshard, Function.update_self]
      exact hgone

/-! ## Side by side -/

/-- What holds of the two stores until the first eviction. -/
structure Tracks (first : Int64) (share : Nat) (s : LruJtiStore)
    (t : AsyncInMemoryStrictJtiStore) : Prop where
  divided : ∃ total, s.Divided total
  share_le : ∀ i, share ≤ (s.shards i).cap
  dated : ∀ i, ∀ e ∈ (s.shards i).entries, first.toInt ≤ e.2.toInt
  unbounded : t.maxEntries = none
  matches_now : s.Matches t

/-- A store that holds the same entries gives the same answer. -/
theorem Matches.sameAnswer (h : s.Matches t) (hunbounded : t.maxEntries = none)
    (c : TimedInsert) : (s.checkAndInsert c).1 = (t.checkAndInsert c.key c.iat).1 := by
  have hheld : (s.shards (s.shardFor c.key)).contains c.key = true ↔ c.key ∈ t.entries.keys := by
    rw [Lru.contains_iff, KeyedList.mem_keys]
    exact exists_congr fun iat => h c.key iat
  unfold checkAndInsert AsyncInMemoryStrictJtiStore.checkAndInsert
  by_cases hlong : (utf8 c.key).length > maxJtiLengthBytes
  · rw [if_pos hlong, if_pos hlong]
  · rw [if_neg hlong, if_neg hlong, hunbounded]
    by_cases hkey : c.key ∈ t.entries.keys
    · rw [if_pos (hheld.mpr hkey), dif_pos hkey]
    · rw [if_neg (mt hheld.mp hkey), dif_neg hkey]
      rfl

/-- An insertion that drives nothing out. -/
theorem Tracks.checkAndInsert (h : Tracks first share s t) (hc : first.toInt ≤ c.iat.toInt)
    (hnone : s.evicts c = none) :
    Tracks first share (s.checkAndInsert c).2 (t.checkAndInsert c.key c.iat).2 := by
  obtain ⟨total, hdivided⟩ := h.divided
  have hanswer := h.matches_now.sameAnswer h.unbounded c
  rcases s.checkAndInsert_cases c with ⟨e, heq, -⟩ | ⟨heq, hnew, hevicts⟩
  · rcases t.checkAndInsert_cases c.key c.iat with ⟨e', refused, heq'⟩ | ⟨hnew', heq'⟩
    · rw [heq, heq']
      exact { h with matches_now := h.matches_now }
    · rw [heq, heq'] at hanswer
      exact absurd hanswer (by simp)
  · rcases t.checkAndInsert_cases c.key c.iat with ⟨e', refused, heq'⟩ | ⟨hnew', heq'⟩
    · rw [heq, heq'] at hanswer
      exact absurd hanswer (by simp)
    · have hnext := hdivided.checkAndInsert c
      have hroom := (Lru.push_eq_none_iff hnew (hdivided.pos _)).mp (hevicts ▸ hnone)
      rw [heq] at hnext ⊢
      rw [heq']
      refine ⟨⟨total, hnext⟩, ?_, ?_, h.unbounded, ?_⟩
      · intro (i : Fin s.shardCount)
        show share ≤ (Function.update s.shards (s.shardFor c.key) _ i).cap
        by_cases hi : i = s.shardFor c.key
        · subst hi
          rw [Function.update_self]
          exact h.share_le (s.shardFor c.key)
        · rw [Function.update_of_ne hi]
          exact h.share_le i
      · intro (i : Fin s.shardCount) e he
        change e ∈ (Function.update s.shards (s.shardFor c.key)
          ((s.shards (s.shardFor c.key)).put c.key c.iat) i).entries at he
        by_cases hi : i = s.shardFor c.key
        · subst hi
          rw [Function.update_self, Lru.entries_put_of_room hnew hroom] at he
          cases List.mem_cons.mp he with
          | inl hself => rw [hself]; exact hc
          | inr hold => exact h.dated _ e hold
        · rw [Function.update_of_ne hi] at he
          exact h.dated i e he
      · intro key iat
        rw [holds_record hdivided.pos hnew (hevicts ▸ hnone), h.matches_now key iat]
        exact List.mem_cons.symm

/-- A cleanup that can tell every age. -/
theorem Tracks.cleanup (h : Tracks first share s t) {now : ClockReading} (maxAge : Int64)
    (hnow : now.secs.toInt - first.toInt < 2 ^ 63) :
    Tracks first share (s.cleanup overflowChecks now maxAge).2 (t.cleanup now.secs maxAge) := by
  obtain ⟨total, hdivided⟩ := h.divided
  have hends : (s.cleanup overflowChecks now maxAge).1 = some () := by
    apply cleanupShards_ends
    intro i e he
    obtain ⟨age, hage, -⟩ := subtract_eq_some overflowChecks (h.dated i e he) hnow
    exact ⟨age, hage⟩
  have hleft := mem_cleanup hends
  refine ⟨⟨total, hdivided.cleanup now maxAge⟩, ?_, ?_, h.unbounded, ?_⟩
  · intro i
    exact Nat.le_trans (h.share_le i) (Nat.le_of_eq (cleanupShards_spec i).1.symm)
  · intro i e he
    exact h.dated i e ((hleft i e).mp he).1
  · intro key iat
    show (key, iat) ∈ ((s.cleanup overflowChecks now maxAge).2.shards (s.shardFor key)).entries ↔
      (key, iat) ∈ t.entries.retainYounger now.secs maxAge
    rw [hleft, JtiEntries.mem_retainYounger_clock, ← h.matches_now key iat, Holds,
      and_congr_right_iff]
    intro he
    obtain ⟨age, hage, hexact⟩ :=
      subtract_eq_some overflowChecks (h.dated _ _ he) hnow
    rw [hage, ← hexact, ← Int64.lt_iff_toInt_lt]
    simp

/-- The two stores before a run. -/
theorem tracks_start (hash : Bytes → UInt64) (capacity shards : Nat) (window first : Int64) :
    Tracks first
      (min (max capacity minJtiCacheSize) maxJtiCacheSize /
        (withShardsAndWindow hash capacity shards window).shardCount)
      (withShardsAndWindow hash capacity shards window)
      .dangerouslyUnbounded where
  divided := ⟨_, divided_withShardsAndWindow hash capacity shards window⟩
  share_le _ := Nat.le_trans (Nat.le_add_right _ _) (Nat.le_max_left _ 1)
  dated _ _ he := absurd he List.not_mem_nil
  unbounded := rfl
  matches_now _ _ := iff_of_false List.not_mem_nil List.not_mem_nil

/-- **One operation**: the stores stay alike exactly if nothing is driven out. -/
theorem Tracks.call (h : Tracks first share s t) {op : LruOp} (hop : op.FitsFrom first)
    (hnone : ∀ c, op = .checkAndInsert c → s.evicts c = none) :
    Tracks first share (s.call overflowChecks op) (t.exec op.asJti).2 := by
  cases op with
  | checkAndInsert c => exact h.checkAndInsert hop (hnone c rfl)
  | cleanup now maxAge => exact h.cleanup maxAge hop

theorem Tracks.evicts_none (h : Tracks first share s t)
    (hnext : (s.checkAndInsert c).2.Matches (t.checkAndInsert c.key c.iat).2) :
    s.evicts c = none := by
  obtain ⟨total, hdivided⟩ := h.divided
  cases hevicts : s.evicts c with
  | none => rfl
  | some e =>
    obtain ⟨hheld, hgone⟩ := not_holds_of_evicts hdivided hevicts
    -- the other store forgets nothing
    have hkept : e ∈ (t.checkAndInsert c.key c.iat).2.entries := by
      have hmem := (h.matches_now e.1 e.2).mp hheld
      rcases t.checkAndInsert_cases c.key c.iat with ⟨e', refused, heq⟩ | ⟨hnew, heq⟩
      · rw [heq]
        exact hmem
      · rw [heq]
        exact List.mem_cons_of_mem _ hmem
    exact absurd ((hnext e.1 e.2).mpr hkept) hgone

/-- A shard has room while the other store holds fewer keys than its share. -/
theorem Tracks.evicts_none_of_lt (h : Tracks first share s t) (hlt : t.retainedKeys.card < share) :
    s.evicts c = none := by
  obtain ⟨total, hdivided⟩ := h.divided
  rcases s.checkAndInsert_cases c with ⟨e, -, hnone⟩ | ⟨-, hnew, hevicts⟩
  · exact hnone
  · rw [hevicts, Lru.push_eq_none_iff hnew (hdivided.pos _)]
    have hsubset : (s.shards (s.shardFor c.key)).keys.toFinset ⊆ t.retainedKeys := by
      intro key hkey
      obtain ⟨e, he, rfl⟩ := List.mem_map.mp (List.mem_toFinset.mp hkey)
      have hshard := hdivided.own _ e.1 (List.mem_map_of_mem he)
      have hheld : s.Holds e.1 e.2 := by
        rw [Holds, hshard]
        exact he
      exact List.mem_toFinset.mpr (KeyedList.mem_keys.mpr ⟨e.2, (h.matches_now _ _).mp hheld⟩)
    calc (s.shards (s.shardFor c.key)).entries.length
        = (s.shards (s.shardFor c.key)).keys.toFinset.card := by
          rw [Lru.keys, List.toFinset_card_of_nodup (s.shards (s.shardFor c.key)).nodup,
            List.length_map]
      _ ≤ t.retainedKeys.card := Finset.card_le_card hsubset
      _ < (s.shards (s.shardFor c.key)).cap := Nat.lt_of_lt_of_le hlt (h.share_le _)

/-! ## Runs -/

/-- Until the first eviction the stores are alike. -/
theorem Tracks.after (h : Tracks first share s t) {ops : List LruOp}
    (hops : ∀ op ∈ ops, op.FitsFrom first) (hnever : s.NeverEvicts overflowChecks ops)
    {as : List LruOp} (has : as <+: ops) :
    Tracks first share (s.afterOps overflowChecks as) (t.after (as.map LruOp.asJti)) := by
  induction as generalizing s t ops with
  | nil => exact h
  | cons op as ih =>
    obtain ⟨bs, rfl⟩ := has
    obtain ⟨hop, hrest⟩ := List.forall_mem_cons.mp hops
    have hnone (c : TimedInsert) (hc : op = .checkAndInsert c) : s.evicts c = none := by
      apply hnever [] c
      rw [hc]
      exact ⟨as ++ bs, rfl⟩
    apply ih (h.call hop hnone) hrest
    · intro as' c hprefix
      exact hnever (op :: as') c ((List.prefix_cons_inj op).mpr hprefix)
    · exact List.prefix_append as bs

/-- Stores that are alike all along a run have driven nothing out. -/
theorem Tracks.neverEvicts (h : Tracks first share s t) {ops : List LruOp}
    (hops : ∀ op ∈ ops, op.FitsFrom first)
    (hmatches : ∀ as, as <+: ops →
      (s.afterOps overflowChecks as).Matches (t.after (as.map LruOp.asJti))) :
    s.NeverEvicts overflowChecks ops := by
  induction ops generalizing s t with
  | nil =>
    intro as c hprefix
    exact absurd (List.prefix_nil.mp hprefix) (by simp)
  | cons op ops ih =>
    obtain ⟨hop, hrest⟩ := List.forall_mem_cons.mp hops
    have hnext := hmatches [op] ⟨ops, rfl⟩
    have hnone (c : TimedInsert) (hc : op = .checkAndInsert c) : s.evicts c = none := by
      subst hc
      exact h.evicts_none hnext
    intro as c hprefix
    cases as with
    | nil => exact hnone c (List.cons_prefix_cons.mp hprefix).1.symm
    | cons op' as =>
      obtain ⟨rfl, htail⟩ := List.cons_prefix_cons.mp hprefix
      apply ih (h.call hop hnone) hrest _ as c htail
      intro bs hbs
      exact hmatches (op' :: bs) ((List.prefix_cons_inj op').mpr hbs)

/-- Below a share nothing is driven out. -/
theorem Tracks.neverEvicts_of_below (h : Tracks first share s t) {ops : List LruOp}
    (hops : ∀ op ∈ ops, op.FitsFrom first) (hbelow : KeepsBelow share t ops) :
    s.NeverEvicts overflowChecks ops := by
  induction ops generalizing s t with
  | nil =>
    intro as c hprefix
    exact absurd (List.prefix_nil.mp hprefix) (by simp)
  | cons op ops ih =>
    obtain ⟨hop, hrest⟩ := List.forall_mem_cons.mp hops
    have hnone (c : TimedInsert) (hc : op = .checkAndInsert c) : s.evicts c = none := by
      apply h.evicts_none_of_lt
      apply hbelow [] c
      rw [hc]
      exact ⟨ops, rfl⟩
    intro as c hprefix
    cases as with
    | nil => exact hnone c (List.cons_prefix_cons.mp hprefix).1.symm
    | cons op' as =>
      obtain ⟨rfl, htail⟩ := List.cons_prefix_cons.mp hprefix
      apply ih (h.call hop hnone) hrest _ as c htail
      intro bs c' hbs
      exact hbelow (op' :: bs) c' ((List.prefix_cons_inj op').mpr hbs)

/-- **The store that evicts against the one that forgets nothing**: over a run whose ages fit,
    they hold the same entries throughout exactly if no insertion drives one out; then every
    insertion is answered the same; and none is driven out while the keys that the other store
    retains are fewer than the share of a shard.

    The last part is for whoever has to choose a capacity: keys fall into shards as their hashes
    will have it, so what can be relied on is the share of one shard and not the whole. -/
theorem lruJtiStore_exact (hash : Bytes → UInt64) (capacity shards : Nat) (window first : Int64)
    (overflowChecks : Bool) {ops : List LruOp} (hops : ∀ op ∈ ops, op.FitsFrom first) :
    ((∀ as, as <+: ops →
        ((withShardsAndWindow hash capacity shards window).afterOps overflowChecks as).Matches
          (AsyncInMemoryStrictJtiStore.dangerouslyUnbounded.after (as.map LruOp.asJti))) ↔
      (withShardsAndWindow hash capacity shards window).NeverEvicts overflowChecks ops) ∧
    ((withShardsAndWindow hash capacity shards window).NeverEvicts overflowChecks ops →
      ∀ as c, as <+: ops →
        (((withShardsAndWindow hash capacity shards window).afterOps overflowChecks
            as).checkAndInsert c).1 =
          ((AsyncInMemoryStrictJtiStore.dangerouslyUnbounded.after
            (as.map LruOp.asJti)).checkAndInsert c.key c.iat).1) ∧
    (KeepsBelow (min (max capacity minJtiCacheSize) maxJtiCacheSize /
        (withShardsAndWindow hash capacity shards window).shardCount) .dangerouslyUnbounded ops →
      (withShardsAndWindow hash capacity shards window).NeverEvicts overflowChecks ops) := by
  have htracks := tracks_start hash capacity shards window first
  refine ⟨⟨htracks.neverEvicts hops, ?_⟩, ?_, htracks.neverEvicts_of_below hops⟩
  · intro hnever as has
    exact (htracks.after hops hnever has).matches_now
  · intro hnever as c has
    have hafter := htracks.after hops hnever has
    exact hafter.matches_now.sameAnswer hafter.unbounded c

/-- Two keys for one place, and a cleanup after them. -/
def crowdedOps : List LruOp :=
  [.checkAndInsert issuedA, .checkAndInsert issuedB, .cleanup issuedB.now 300]

theorem lruJtiStore_exact_crowded : ¬∀ as, as <+: crowdedOps →
    (crowdedStore.afterOps true as).Matches
      (AsyncInMemoryStrictJtiStore.dangerouslyUnbounded.after (as.map LruOp.asJti)) := by
  intro hmatches
  have hfit : ∀ op ∈ crowdedOps, op.FitsFrom 0 := by
    refine List.forall_mem_cons.mpr ⟨?_, List.forall_mem_cons.mpr ⟨?_,
      List.forall_mem_singleton.mpr ?_⟩⟩
    · show (0 : Int64).toInt ≤ (0 : Int64).toInt
      decide
    · show (0 : Int64).toInt ≤ (0 : Int64).toInt
      decide
    · show (300 : Int64).toInt - (0 : Int64).toInt < 2 ^ 63
      decide
  have hnever := (lruJtiStore_exact (fun _ => 0) 1000 1000 300 0 true hfit).1.mp hmatches
  exact absurd (hnever [.checkAndInsert issuedA] issuedB ⟨[.cleanup issuedB.now 300], rfl⟩)
    (by decide +kernel)

end LruJtiStore

end Cat
