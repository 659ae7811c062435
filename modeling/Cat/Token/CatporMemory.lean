import Cat.Lib.LruRecency
import Cat.Lib.FiniteMaps
import Cat.Token.Rejection

/-!
# How long a rejection is remembered

A token rejected by its draw has its id listed, and is rejected from then on without a draw, for
as long as the entry is in force and in the list. The list forgets an entry for one reason only:
as many other ids of its shard have come since as the shard has room for.

The list is a bounded map in shards, least recently used out, and looking an id up is a use of
it. So an attacker who wants an entry forgotten has to get that many other ids of the same shard
listed, and whoever is presented again keeps the entry. The two bounds differ for this reason:
ids that are presented can push an entry back, only ids that are listed can push it out.

The time of the entry is the other half. An entry that was made anew has a new end, and what
blocks an id is the last one made for it. Everything is over any run of enforcements on a list
that was new, at any readings of the clock and for any draws.
-/

set_option autoImplicit false

namespace Cat

open Cbor

section
variable {below : UInt64 → F64 → Bool} {l : CatPorBlockList} {c : Ambient × CatToken} {id : Bytes}
  {e : Option Int64} {room : Nat}

/-! ## One enforcement

An enforcement looks its id up and may enter it. What it does to another id depends on whether
the two share a shard, and on whether it enters anything.
-/

/-- The id that a token presents. -/
def presents (c : Ambient × CatToken) : Option Bytes := c.2.cat.catpor.map (·.id)

/-- What the list is told: the id of a token that is not blocked and rejected by its draw, and
    until when. -/
def listedBy (below : UInt64 → F64 → Bool) (l : CatPorBlockList) (c : Ambient × CatToken) :
    Option (Bytes × Option Int64) := do
  let catpor ← c.2.cat.catpor
  if (l.isBlocked c.1.utcNow catpor.id).1 then none
  else
    let draw ← c.1.draw
    if below draw catpor.probability then some (catpor.id, catpor.expiration) else none

/-- The list after one enforcement. -/
abbrev afterOne (below : UInt64 → F64 → Bool) (l : CatPorBlockList) (c : Ambient × CatToken) :
    CatPorBlockList := (enforceCatporWith below c.1 c.2 l).2

/-- **One enforcement** looks the presented id up, and enters it if the draw rejects it. -/
theorem afterOne_cases (below : UInt64 → F64 → Bool) (l : CatPorBlockList)
    (c : Ambient × CatToken) :
    presents c = none ∧ listedBy below l c = none ∧ afterOne below l c = l ∨
      ∃ id, presents c = some id ∧
        (listedBy below l c = none ∧ afterOne below l c = (l.isBlocked c.1.utcNow id).2 ∨
          ∃ e, listedBy below l c = some (id, e) ∧ (l.isBlocked c.1.utcNow id).1 = false ∧
            afterOne below l c = (l.isBlocked c.1.utcNow id).2.add id e) := by
  unfold presents listedBy afterOne enforceCatporWith
  cases c.2.cat.catpor with
  | none => exact .inl ⟨rfl, rfl, rfl⟩
  | some catpor =>
    refine .inr ⟨catpor.id, rfl, ?_⟩
    dsimp only [Option.bind_eq_bind, Option.bind_some]
    cases hblocked : (l.isBlocked c.1.utcNow catpor.id).1 with
    | true =>
      rw [show l.isBlocked c.1.utcNow catpor.id =
        (true, (l.isBlocked c.1.utcNow catpor.id).2) from Prod.ext hblocked rfl]
      exact .inl ⟨rfl, rfl⟩
    | false =>
      rw [show l.isBlocked c.1.utcNow catpor.id =
        (false, (l.isBlocked c.1.utcNow catpor.id).2) from Prod.ext hblocked rfl]
      cases c.1.draw with
      | none => exact .inl ⟨rfl, rfl⟩
      | some draw =>
        cases hbelow : below draw catpor.probability with
        | true =>
          right
          refine ⟨catpor.expiration, ?_, rfl, ?_⟩
          · simp [hbelow]
          · simp [hbelow]
        | false =>
          left
          simp [hbelow]

/-- Each shard of the list has room for this many ids. -/
def CatPorBlockList.HasRoom (l : CatPorBlockList) (room : Nat) : Prop :=
  ∀ i, (l.shards i).cap = room

theorem CatPorBlockList.HasRoom.isBlocked (h : l.HasRoom room) (now : Int64) :
    (l.isBlocked now id).2.HasRoom room := by
  intro i
  show (Function.update l.shards (l.shardFor id) ((l.shards (l.shardFor id)).get id).2 i).cap = _
  by_cases hi : i = l.shardFor id
  · subst hi
    rw [Function.update_self, Lru.get_cap]
    exact h _
  · rw [Function.update_of_ne hi]
    exact h i

theorem CatPorBlockList.HasRoom.add (h : l.HasRoom room) : (l.add id e).HasRoom room := by
  intro i
  show (Function.update l.shards (l.shardFor id) _ i).cap = room
  by_cases hi : i = l.shardFor id
  · subst hi
    rw [Function.update_self]
    exact h (l.shardFor id)
  · rw [Function.update_of_ne hi]
    exact h i

/-- An enforcement changes neither the room nor where an id belongs. -/
theorem CatPorBlockList.HasRoom.afterOne (h : l.HasRoom room) (below : UInt64 → F64 → Bool)
    (c : Ambient × CatToken) :
    (afterOne below l c).HasRoom room ∧ (afterOne below l c).hash = l.hash := by
  rcases afterOne_cases below l c with
    ⟨-, -, heq⟩ | ⟨id, -, ⟨-, heq⟩ | ⟨e, -, -, heq⟩⟩
  · rw [heq]
    exact ⟨h, rfl⟩
  · rw [heq]
    exact ⟨h.isBlocked c.1.utcNow, rfl⟩
  · rw [heq]
    exact ⟨(h.isBlocked c.1.utcNow).add, rfl⟩

theorem shardFor_congr {l' : CatPorBlockList} (h : l'.hash = l.hash) (id : Bytes) :
    l'.shardFor id = l.shardFor id := by
  simp only [CatPorBlockList.shardFor, h]

/-- An enforcement for an id of another shard. -/
theorem shards_afterOne_of_ne {i : Fin porBlockListShards}
    (h : ∀ j ∈ presents c, l.shardFor j ≠ i) : (afterOne below l c).shards i = l.shards i := by
  rcases afterOne_cases below l c with
    ⟨-, -, heq⟩ | ⟨id, hid, ⟨-, heq⟩ | ⟨e, -, -, heq⟩⟩
  · rw [heq]
  · rw [heq]
    exact Function.update_of_ne (h id hid).symm _ _
  · rw [heq]
    have hadd : ((l.isBlocked c.1.utcNow id).2.add id e).shards i =
        (l.isBlocked c.1.utcNow id).2.shards i := Function.update_of_ne (h id hid).symm _ _
    rw [hadd]
    exact Function.update_of_ne (h id hid).symm _ _

/-- An enforcement for an id of the shard. -/
theorem shards_afterOne_self (below : UInt64 → F64 → Bool) (l : CatPorBlockList) {j : Bytes}
    (h : presents c = some j) :
    (afterOne below l c).shards (l.shardFor j) =
      match listedBy below l c with
      | none => ((l.shards (l.shardFor j)).get j).2
      | some listed => ((l.shards (l.shardFor j)).get j).2.put j listed.2 := by
  have hlooked : (l.isBlocked c.1.utcNow j).2.shards (l.shardFor j) =
      ((l.shards (l.shardFor j)).get j).2 := Function.update_self _ _ _
  rcases afterOne_cases below l c with
    ⟨hnone, -⟩ | ⟨id, hid, ⟨hlisted, heq⟩ | ⟨e, hlisted, -, heq⟩⟩
  · rw [hnone] at h
    exact absurd h (by simp)
  · obtain rfl := Option.some.inj (hid.symm.trans h)
    rw [hlisted, heq]
    exact hlooked
  · obtain rfl := Option.some.inj (hid.symm.trans h)
    rw [hlisted, heq]
    exact (Function.update_self _ _ _).trans (congrArg (·.put id e) hlooked)

/-! ## What is still listed

An upper bound on the ids that can have come in front, by those that are presented. It does not
depend on draws or clocks.
-/

/-- The other ids of an id's shard that are presented. -/
def rivals (l : CatPorBlockList) (id : Bytes) (calls : List (Ambient × CatToken)) :
    Finset Bytes :=
  (calls.filterMap presents).toFinset.filter fun j => j ≠ id ∧ l.shardFor j = l.shardFor id

/-- **One enforcement keeps an entry in force** as long as its shard has room for the ids that
    have come since. -/
theorem ahead_afterOne (below : UInt64 → F64 → Bool) (hroom : l.HasRoom room) {U : Finset Bytes}
    (h : (l.shards (l.shardFor id)).Ahead id e U)
    (hforce : CatPorBlockList.inForce c.1.utcNow e = true)
    (hlt : (U ∪ rivals l id [c]).card < room) :
    ((afterOne below l c).shards (l.shardFor id)).Ahead id e (U ∪ rivals l id [c]) := by
  have hsub : U ⊆ U ∪ rivals l id [c] := Finset.subset_union_left
  cases hc : presents c with
  | none =>
    rw [shards_afterOne_of_ne (by simp [hc])]
    exact h.mono hsub
  | some j =>
    -- Only an id of the same shard can come between.
    by_cases hshard : l.shardFor j = l.shardFor id
    · have hself := shards_afterOne_self below l hc
      rw [hshard] at hself
      rw [hself]
      by_cases hj : j = id
      · -- the id itself: it is blocked, so it is not listed anew
        subst hj
        have hblocked : (l.isBlocked c.1.utcNow j).1 = true :=
          CatPorBlockList.isBlocked_iff.mpr ⟨e, h.peek, hforce⟩
        rcases afterOne_cases below l c with
          ⟨hnone, -⟩ | ⟨id, hid, ⟨hlisted, -⟩ | ⟨e', -, hopen, -⟩⟩
        · rw [hc] at hnone
          exact absurd hnone (by simp)
        · rw [hlisted]
          exact h.get_self.mono hsub
        · obtain rfl := Option.some.inj (hid.symm.trans hc)
          rw [hblocked] at hopen
          exact absurd hopen (by simp)
      · have hinsert : insert j U = U ∪ rivals l id [c] := by
          rw [Finset.insert_eq, Finset.union_comm]
          congr 1
          ext i
          simp [rivals, hc]
          rintro rfl
          exact ⟨hj, hshard⟩
        rw [← hinsert] at hlt ⊢
        cases listedBy below l c with
        | none => exact h.get hj
        | some listed =>
          have hput := (h.get hj).put (j := j) (w := listed.2) hj
          rw [Finset.insert_idem, Lru.get_cap, hroom] at hput
          exact hput hlt
    · rw [shards_afterOne_of_ne]
      · exact h.mono hsub
      · intro i hi
        rw [hc] at hi
        rw [← Option.some.inj hi]
        exact hshard

/-- Over any number of enforcements. -/
theorem ahead_afterEnforcing (hroom : l.HasRoom room) {U : Finset Bytes}
    (h : (l.shards (l.shardFor id)).Ahead id e U) {calls : List (Ambient × CatToken)}
    (hforce : ∀ c ∈ calls, CatPorBlockList.inForce c.1.utcNow e = true)
    (hlt : (U ∪ rivals l id calls).card < room) :
    (afterEnforcing below l calls).entry id = some e := by
  induction calls generalizing l U with
  | nil => exact h.peek
  | cons c calls ih =>
    obtain ⟨hc, hforce⟩ := List.forall_mem_cons.mp hforce
    obtain ⟨hnext, hhash⟩ := hroom.afterOne below c
    have hsplit : U ∪ rivals l id (c :: calls) =
        U ∪ rivals l id [c] ∪ rivals (afterOne below l c) id calls := by
      rw [Finset.union_assoc]
      congr 1
      ext i
      simp only [rivals, shardFor_congr hhash, Finset.mem_filter, Finset.mem_union,
        List.mem_toFinset, List.mem_filterMap, List.mem_cons, List.not_mem_nil, or_false]
      grind
    rw [hsplit] at hlt
    have hfirst := ahead_afterOne below hroom h hc
      (Nat.lt_of_le_of_lt (Finset.card_le_card Finset.subset_union_left) hlt)
    rw [← shardFor_congr hhash id] at hfirst
    exact ih hnext hfirst hforce hlt

/-! ## What is forgotten

A lower bound by those that are listed. For an id to be pushed out others have to be entered,
and to be entered they have to be rejected by a draw.
-/

/-- What the list is told over a run. -/
def listed (below : UInt64 → F64 → Bool) (l : CatPorBlockList) :
    List (Ambient × CatToken) → List (Bytes × Option (Option Int64))
  | [] => []
  | c :: calls =>
    (listedBy below l c).toList.map (fun d => (d.1, some d.2)) ++
      listed below (afterOne below l c) calls

/-- The other ids of an id's shard that are listed. -/
def listedRivals (below : UInt64 → F64 → Bool) (l : CatPorBlockList) (id : Bytes)
    (calls : List (Ambient × CatToken)) : Finset Bytes :=
  ((listed below l calls).map Prod.fst).toFinset.filter fun j => l.shardFor j = l.shardFor id

theorem presents_of_listedBy {d : Bytes × Option Int64} (h : listedBy below l c = some d) :
    presents c = some d.1 := by
  rcases afterOne_cases below l c with
    ⟨-, hnone, -⟩ | ⟨j, hj, ⟨hnone, -⟩ | ⟨e, hlisted, -⟩⟩
  · rw [hnone] at h
    exact absurd h (by simp)
  · rw [hnone] at h
    exact absurd h (by simp)
  · rw [hlisted] at h
    rw [← Option.some.inj h, hj]

/-- One enforcement for another id. -/
theorem passed_afterOne (below : UInt64 → F64 → Bool) {U : Finset Bytes}
    (h : (l.shards (l.shardFor id)).Passed id U)
    (hc : presents c ≠ some id) :
    ((afterOne below l c).shards (l.shardFor id)).Passed id
      (U ∪ listedRivals below l id [c]) := by
  cases hp : presents c with
  | none =>
    have hnone : listedBy below l c = none := by
      cases hlisted : listedBy below l c with
      | none => rfl
      | some d => exact absurd (hp.symm.trans (presents_of_listedBy hlisted)) (by simp)
    rw [shards_afterOne_of_ne (by simp [hp])]
    simpa [listedRivals, listed, hnone] using h
  | some j =>
    have hj : j ≠ id := fun heq => hc (by rw [hp, heq])
    by_cases hshard : l.shardFor j = l.shardFor id
    · have hself := shards_afterOne_self below l hp
      rw [hshard] at hself
      rw [hself]
      cases hlisted : listedBy below l c with
      | none => simpa [listedRivals, listed, hlisted] using h.get hj
      | some d =>
        obtain rfl := Option.some.inj (hp.symm.trans (presents_of_listedBy hlisted))
        have hrivals : U ∪ listedRivals below l id [c] = insert d.1 U := by
          rw [Finset.insert_eq, Finset.union_comm]
          congr 1
          ext i
          simp [listedRivals, listed, hlisted]
          rintro rfl
          exact hshard
        rw [hrivals]
        exact (h.get hj).put hj
    · rw [shards_afterOne_of_ne]
      · cases hlisted : listedBy below l c with
        | none => simpa [listedRivals, listed, hlisted] using h
        | some d =>
          obtain rfl := Option.some.inj (hp.symm.trans (presents_of_listedBy hlisted))
          have hempty : listedRivals below l id [c] = ∅ := by
            ext i
            simp [listedRivals, listed, hlisted]
            rintro rfl
            exact hshard
          rw [hempty, Finset.union_empty]
          exact h
      · intro i hi
        rw [hp] at hi
        rw [← Option.some.inj hi]
        exact hshard

theorem passed_afterEnforcing (hroom : l.HasRoom room) {U : Finset Bytes}
    (h : (l.shards (l.shardFor id)).Passed id U) {calls : List (Ambient × CatToken)}
    (hcalls : ∀ c ∈ calls, presents c ≠ some id)
    (hle : room ≤ (U ∪ listedRivals below l id calls).card) :
    (afterEnforcing below l calls).entry id = none := by
  induction calls generalizing l U with
  | nil =>
    apply h.peek
    rw [hroom]
    simpa [listedRivals, listed] using hle
  | cons c calls ih =>
    obtain ⟨hc, hcalls⟩ := List.forall_mem_cons.mp hcalls
    obtain ⟨hnext, hhash⟩ := hroom.afterOne below c
    have hsplit : U ∪ listedRivals below l id (c :: calls) =
        U ∪ listedRivals below l id [c] ∪ listedRivals below (afterOne below l c) id calls := by
      rw [Finset.union_assoc]
      congr 1
      simp only [listedRivals, listed, shardFor_congr hhash, List.append_nil, List.map_append,
        List.toFinset_append, Finset.filter_union]
    rw [hsplit] at hle
    have hfirst := passed_afterOne below h hc
    rw [← shardFor_congr hhash id] at hfirst
    exact ih hnext hfirst hcalls hle

/-! ## What an entry says

The entry of an id has the end that it was given last. Where none was given the id is not in the
list.
-/

/-- An entry that was not there before was listed, or was there. -/
theorem entry_afterOne (h : (afterOne below l c).entry id = some e) :
    listedBy below l c = some (id, e) ∨
      (∀ d ∈ listedBy below l c, d.1 ≠ id) ∧ l.entry id = some e := by
  rcases afterOne_cases below l c with
    ⟨-, hnone, heq⟩ | ⟨j, -, ⟨hnone, heq⟩ | ⟨e', hlisted, -, heq⟩⟩
  · rw [heq] at h
    exact .inr ⟨by simp [hnone], h⟩
  · rw [heq, CatPorBlockList.entry_isBlocked] at h
    exact .inr ⟨by simp [hnone], h⟩
  · rw [heq] at h
    by_cases hj : id = j
    · subst hj
      -- what was put last is what is there
      have hmem := Lru.peek_eq_some.mp h
      have hput : ((l.isBlocked c.1.utcNow id).2.add id e').shards
          (((l.isBlocked c.1.utcNow id).2.add id e').shardFor id) =
            ((l.isBlocked c.1.utcNow id).2.shards (l.shardFor id)).put id e' :=
        Function.update_self _ _ _
      rw [hput] at hmem
      cases List.mem_cons.mp (List.mem_of_mem_take hmem) with
      | inl hself =>
        left
        rw [hlisted, (Prod.mk.inj hself).2]
      | inr hold => exact absurd (List.mem_filter.mp hold).2 (by simp)
    · right
      refine ⟨by simp [hlisted, Ne.symm hj], ?_⟩
      have hadd : ((l.isBlocked c.1.utcNow j).2.add j e').entry id =
          (l.isBlocked c.1.utcNow j).2.entry id ∨
            ((l.isBlocked c.1.utcNow j).2.add j e').entry id = none :=
        CatPorBlockList.entry_add_of_ne hj
      rcases hadd with hsame | hgone
      · rw [hsame, CatPorBlockList.entry_isBlocked] at h
        exact h
      · rw [hgone] at h
        exact absurd h (by simp)

theorem listed_append (below : UInt64 → F64 → Bool) (l : CatPorBlockList)
    (as bs : List (Ambient × CatToken)) :
    listed below l (as ++ bs) =
      listed below l as ++ listed below (afterEnforcing below l as) bs := by
  induction as generalizing l with
  | nil => rfl
  | cons c as ih =>
    rw [List.cons_append, listed, listed, ih, List.append_assoc]
    rfl

/-- **An entry is the last listing of its id.** -/
theorem inForce_of_entry (hempty : ∀ i, (l.shards i).entries = [])
    {calls : List (Ambient × CatToken)} (h : (afterEnforcing below l calls).entry id = some e) :
    WriteLog.InForce (listed below l calls) id e := by
  induction calls using List.reverseRecOn generalizing e with
  | nil =>
    have hmem := Lru.peek_eq_some.mp h
    rw [afterEnforcing, List.foldl_nil, hempty] at hmem
    exact absurd hmem List.not_mem_nil
  | append_singleton calls c ih =>
    rw [afterEnforcing, List.foldl_append] at h
    rw [listed_append, listed, listed, List.append_nil]
    rcases entry_afterOne h with hlisted | ⟨hother, hold⟩
    · rw [show listedBy below (afterEnforcing below l calls) c = some (id, e) from hlisted]
      exact WriteLog.inForce_concat.mpr (.inl rfl)
    · cases hlisted : listedBy below (afterEnforcing below l calls) c with
      | none =>
        simpa using ih hold
      | some d =>
        apply WriteLog.inForce_concat.mpr
        exact .inr ⟨hother d hlisted, ih hold⟩

/-! ## Runs

The three put together, from a new list.
-/

/-- How many ids a shard has room for. -/
def perShard (capacity : Nat) : Nat :=
  max ((capacity + porBlockListShards - 1) / porBlockListShards) 1

theorem afterEnforcing_hasRoom (below : UInt64 → F64 → Bool) (h : l.HasRoom room)
    (calls : List (Ambient × CatToken)) :
    (afterEnforcing below l calls).HasRoom room ∧ (afterEnforcing below l calls).hash = l.hash := by
  induction calls generalizing l with
  | nil => exact ⟨h, rfl⟩
  | cons c calls ih =>
    obtain ⟨hnext, hhash⟩ := h.afterOne below c
    obtain ⟨hend, hsame⟩ := ih hnext
    exact ⟨hend, hsame.trans hhash⟩

/-- An id that has just been listed is in front. -/
theorem ahead_of_listedBy (hpos : 0 < room) (hroom : l.HasRoom room)
    (h : listedBy below l c = some (id, e)) :
    ((afterOne below l c).shards (l.shardFor id)).Ahead id e ∅ := by
  have hself := shards_afterOne_self below l (presents_of_listedBy h)
  rw [h] at hself
  rw [hself]
  apply Lru.ahead_put_self
  rw [Lru.get_cap, hroom]
  exact hpos

end

/-- **The memory of `catpor`**, over any run of enforcements on a new list. An id that is blocked
    was rejected by a draw, and the entry that blocks it is the last one made for it. Once it
    is listed an id is blocked while its entry is in force and the other ids of its shard that
    are presented are fewer than the shard has room for; and it is forgotten when that many
    others have been listed and it has not been presented again. -/
theorem catpor_memory (hash : Bytes → UInt64) (capacity : Nat)
    (calls : List (Ambient × CatToken)) (id : Bytes) (now : Int64) :
    (((afterEnforcing doubleBelow (.withCapacity hash capacity) calls).isBlocked now id).1 = true →
      ∃ e, WriteLog.InForce (listed doubleBelow (.withCapacity hash capacity) calls) id e ∧
        CatPorBlockList.inForce now e = true) ∧
    (∀ as c bs e, calls = as ++ c :: bs →
      listedBy doubleBelow (afterEnforcing doubleBelow (.withCapacity hash capacity) as) c =
        some (id, e) →
      (∀ c' ∈ bs, CatPorBlockList.inForce c'.1.utcNow e = true) →
      CatPorBlockList.inForce now e = true →
      (rivals (.withCapacity hash capacity) id bs).card < perShard capacity →
      ((afterEnforcing doubleBelow (.withCapacity hash capacity) calls).isBlocked now id).1 =
        true) ∧
    ∀ as bs, calls = as ++ bs → (∀ c ∈ bs, presents c ≠ some id) →
      perShard capacity ≤ (listedRivals doubleBelow
        (afterEnforcing doubleBelow (.withCapacity hash capacity) as) id bs).card →
      ((afterEnforcing doubleBelow (.withCapacity hash capacity) calls).isBlocked now id).1 =
        false := by
  have hroom : (CatPorBlockList.withCapacity hash capacity).HasRoom (perShard capacity) :=
    fun _ => rfl
  have hempty : ∀ i, ((CatPorBlockList.withCapacity hash capacity).shards i).entries = [] :=
    fun _ => rfl
  have hpos : 0 < perShard capacity := Nat.le_max_right _ 1
  generalize CatPorBlockList.withCapacity hash capacity = l at *
  refine ⟨?_, ?_, ?_⟩
  · -- What is blocked is an entry, and entries come from claims only.
    intro hblocked
    obtain ⟨e, hentry, hforce⟩ := CatPorBlockList.isBlocked_iff.mp hblocked
    exact ⟨e, inForce_of_entry hempty hentry, hforce⟩
  · -- From the claim that listed it on, the entry stays ahead of its rivals in the shard.
    intro as c bs e hcalls hlisted hsince hnow hfew
    obtain ⟨hroom', hhash⟩ := afterEnforcing_hasRoom doubleBelow hroom as
    obtain ⟨hnext, hhash'⟩ := hroom'.afterOne doubleBelow c
    have hfront := ahead_of_listedBy hpos hroom' hlisted
    rw [← shardFor_congr hhash' id] at hfront
    have hrivals : rivals (afterOne doubleBelow (afterEnforcing doubleBelow l as) c) id bs =
        rivals l id bs := by
      simp only [rivals, shardFor_congr (hhash'.trans hhash)]
    apply CatPorBlockList.isBlocked_iff.mpr
    refine ⟨e, ?_, hnow⟩
    rw [hcalls, afterEnforcing, List.foldl_append]
    apply ahead_afterEnforcing hnext hfront hsince
    rw [Finset.empty_union, hrivals]
    exact hfew
  · -- Enough rivals listed after it push the entry out.
    intro as bs hcalls hother hmany
    obtain ⟨hroom', hhash⟩ := afterEnforcing_hasRoom doubleBelow hroom as
    have hgone : (afterEnforcing doubleBelow l calls).entry id = none := by
      rw [hcalls, afterEnforcing, List.foldl_append]
      apply passed_afterEnforcing hroom' (Lru.passed_empty _ id) hother
      rwa [Finset.empty_union]
    apply Bool.eq_false_iff.mpr
    intro hblocked
    obtain ⟨e, hentry, -⟩ := CatPorBlockList.isBlocked_iff.mp hblocked
    rw [hgone] at hentry
    exact absurd hentry (by simp)

end Cat
