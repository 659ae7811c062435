import Mathlib.Data.List.Nodup

/-!
# Bounded maps, least recently used out

The entries in order of use, the most recent first, each key once and no more entries than the
capacity. Looking a key up is a use, asking whether it is there is not.

The order of the list is the recency, so there are no time stamps and no links to keep right,
and both facts that make it a bounded map are fields. What an operation does to one key is told
by the value under it (`peek`); what it does to the others by one question, which entry had to
go. For most purposes the answer is enough that nothing goes while there is room, and that an
entry stays unless it is the one that goes. Which one that is takes more, and is in
`LruRecency`.
-/

set_option autoImplicit false

structure Lru (κ ν : Type) where
  cap : Nat
  entries : List (κ × ν)
  nodup : (entries.map Prod.fst).Nodup
  length_le : entries.length ≤ cap

namespace Lru

variable {κ ν : Type} [DecidableEq κ]

def empty (cap : Nat) : Lru κ ν := ⟨cap, [], List.nodup_nil, Nat.zero_le cap⟩

/-- The value under a key, without using it. -/
def peek (c : Lru κ ν) (k : κ) : Option ν := c.entries.lookup k

/-- Enter or replace the value under a key. The entry becomes the most recent one, and where
    there is no room the least recent one goes. -/
def put (c : Lru κ ν) (k : κ) (v : ν) : Lru κ ν where
  cap := c.cap
  entries := ((k, v) :: c.entries.filter fun e => e.1 != k).take c.cap
  nodup := by
    rw [List.map_take]
    apply (List.take_sublist _ _).nodup
    rw [List.map_cons, List.nodup_cons]
    refine ⟨?_, (List.filter_sublist.map Prod.fst).nodup c.nodup⟩
    intro hmem
    obtain ⟨e, he, hk⟩ := List.mem_map.mp hmem
    simp [hk] at he
  length_le := by rw [List.length_take]; exact Nat.min_le_left _ _

/-- The value under a key, which becomes the most recent one. -/
def get (c : Lru κ ν) (k : κ) : Option ν × Lru κ ν :=
  match c.peek k with
  | some v => (some v, c.put k v)
  | none => (none, c)

/-- Whether a key is there, without using it. -/
def contains (c : Lru κ ν) (k : κ) : Bool := (c.peek k).isSome

/-- `put`, with the entry that had to go for it: the one the key had, or where there is no
    room the least recent one. -/
def push (c : Lru κ ν) (k : κ) (v : ν) : Option (κ × ν) × Lru κ ν :=
  (match c.peek k with
    | some old => some (k, old)
    | none => if c.entries.length < c.cap then none else c.entries.getLast?,
   c.put k v)

/-- Take a key out, with the value it had. -/
def pop (c : Lru κ ν) (k : κ) : Option ν × Lru κ ν :=
  (c.peek k,
   { cap := c.cap
     entries := c.entries.filter fun e => e.1 != k
     nodup := (List.filter_sublist.map Prod.fst).nodup c.nodup
     length_le := Nat.le_trans (List.length_filter_le _ _) c.length_le })

def keys (c : Lru κ ν) : List κ := c.entries.map Prod.fst

@[simp] theorem put_cap (c : Lru κ ν) (k : κ) (v : ν) : (c.put k v).cap = c.cap := rfl

@[simp] theorem get_fst (c : Lru κ ν) (k : κ) : (c.get k).1 = c.peek k := by
  unfold get
  split
  · exact Eq.symm ‹_›
  · exact Eq.symm ‹_›

theorem peek_eq_some {c : Lru κ ν} {k : κ} {v : ν} : c.peek k = some v ↔ (k, v) ∈ c.entries := by
  unfold peek
  constructor
  · intro h
    obtain ⟨l₁, l₂, heq, -⟩ := List.lookup_eq_some_iff.mp h
    rw [heq]
    exact List.mem_append_right l₁ List.mem_cons_self
  · intro h
    cases hlookup : c.entries.lookup k with
    | none => exact absurd (List.lookup_eq_none_iff.mp hlookup (k, v) h) (by simp)
    | some w =>
      -- the key is there once
      obtain ⟨l₁, l₂, heq, -⟩ := List.lookup_eq_some_iff.mp hlookup
      have hw : (k, w) ∈ c.entries := heq ▸ List.mem_append_right l₁ List.mem_cons_self
      have hsame := List.inj_on_of_nodup_map c.nodup hw h rfl
      rw [(Prod.mk.inj hsame).2]

theorem contains_iff {c : Lru κ ν} {k : κ} : c.contains k = true ↔ ∃ v, (k, v) ∈ c.entries := by
  unfold contains
  rw [Option.isSome_iff_exists]
  exact exists_congr fun v => peek_eq_some

theorem peek_eq_none {c : Lru κ ν} {k : κ} (h : c.contains k = false) : c.peek k = none :=
  Option.not_isSome_iff_eq_none.mp (Bool.eq_false_iff.mp h)

/-- A key that is not there is put before the others, and the last of them goes if it must. -/
theorem entries_put_of_new {c : Lru κ ν} {k : κ} {v : ν} (h : c.contains k = false) :
    (c.put k v).entries = ((k, v) :: c.entries).take c.cap := by
  show ((k, v) :: c.entries.filter fun e => e.1 != k).take c.cap = _
  rw [List.filter_eq_self.mpr]
  intro e he
  rw [bne_iff_ne]
  intro hek
  exact Bool.eq_false_iff.mp h (contains_iff.mpr ⟨e.2, hek ▸ he⟩)

/-- The new entry is there, as long as there is room for one. -/
theorem mem_put_self {c : Lru κ ν} {k : κ} {v : ν} (hcap : 0 < c.cap) :
    (k, v) ∈ (c.put k v).entries := by
  show (k, v) ∈ ((k, v) :: c.entries.filter fun e => e.1 != k).take c.cap
  obtain ⟨n, hn⟩ := Nat.exists_eq_succ_of_ne_zero (Nat.pos_iff_ne_zero.mp hcap)
  rw [hn, List.take_succ_cons]
  exact List.mem_cons_self

theorem peek_put_self {c : Lru κ ν} {k : κ} {v : ν} (hcap : 0 < c.cap) :
    (c.put k v).peek k = some v := peek_eq_some.mpr (mem_put_self hcap)

/-- Another key keeps its value, or it had to go. -/
theorem peek_put_of_ne {c : Lru κ ν} {k k' : κ} {v : ν} (h : k' ≠ k) :
    (c.put k v).peek k' = c.peek k' ∨ (c.put k v).peek k' = none := by
  cases hpeek : (c.put k v).peek k' with
  | none => exact .inr rfl
  | some w =>
    left
    have hmem : (k', w) ∈ ((k, v) :: c.entries.filter fun e => e.1 != k).take c.cap :=
      peek_eq_some.mp hpeek
    cases List.mem_cons.mp (List.mem_of_mem_take hmem) with
    | inl heq => exact absurd (Prod.mk.inj heq).1 h
    | inr hold => exact (peek_eq_some.mpr (List.mem_filter.mp hold).1).symm

/-- A key that is there is moved to the front, and nothing has to go. -/
theorem entries_put_of_mem {c : Lru κ ν} {k : κ} {v w : ν} (h : (k, v) ∈ c.entries) :
    (c.put k w).entries = (k, w) :: c.entries.filter fun e => e.1 != k := by
  have hshorter : (c.entries.filter fun e => e.1 != k).length < c.entries.length := by
    apply List.length_filter_lt_length_iff_exists.mpr
    exact ⟨(k, v), h, by simp⟩
  exact List.take_of_length_le (Nat.le_trans hshorter c.length_le)

/-- Looking a key up changes no value. -/
theorem peek_get (c : Lru κ ν) (k k' : κ) : (c.get k).2.peek k' = c.peek k' := by
  unfold get
  cases hpeek : c.peek k with
  | none => rfl
  | some v =>
    have hmem := peek_eq_some.mp hpeek
    have hentries := entries_put_of_mem (w := v) hmem
    by_cases hk : k' = k
    · rw [hk, hpeek]
      exact peek_eq_some.mpr (hentries ▸ List.mem_cons_self)
    · -- the other keys are where they were, one after the other
      have hiff (w : ν) : (c.put k v).peek k' = some w ↔ c.peek k' = some w := by
        rw [peek_eq_some, peek_eq_some, hentries, List.mem_cons, List.mem_filter]
        simp [hk]
      cases hold : c.peek k' with
      | none =>
        apply Option.eq_none_iff_forall_ne_some.mpr
        intro w hw
        rw [hiff, hold] at hw
        exact absurd hw (by simp)
      | some w => exact (hiff w).mpr hold

@[simp] theorem get_cap (c : Lru κ ν) (k : κ) : (c.get k).2.cap = c.cap := by
  unfold get
  split
  · rfl
  · rfl

/-- **An entry stays, or it is what has to go.** -/
theorem mem_push {c : Lru κ ν} {k : κ} {v : ν} {e : κ × ν} (h : c.contains k = false)
    (he : e ∈ c.entries) : e ∈ (c.push k v).2.entries ∨ (c.push k v).1 = some e := by
  have hpos : 0 < c.cap := Nat.lt_of_lt_of_le (List.length_pos_of_mem he) c.length_le
  obtain ⟨n, hn⟩ := Nat.exists_eq_succ_of_ne_zero (Nat.pos_iff_ne_zero.mp hpos)
  show e ∈ (c.put k v).entries ∨ _
  rw [entries_put_of_new h, push, peek_eq_none h, hn, List.take_succ_cons]
  dsimp only
  by_cases hroom : c.entries.length < n + 1
  · left
    rw [List.take_of_length_le (Nat.le_of_lt_succ hroom)]
    exact List.mem_cons_of_mem _ he
  · -- the cache is full, so what is cut off is its last entry
    have hlength : c.entries.length = n + 1 :=
      Nat.le_antisymm (Nat.le_trans c.length_le (Nat.le_of_eq hn)) (Nat.not_lt.mp hroom)
    have hne : c.entries ≠ [] := List.ne_nil_of_mem he
    have hkept : c.entries.take n = c.entries.dropLast := by
      rw [List.dropLast_eq_take, hlength, Nat.add_sub_cancel]
    rw [if_neg hroom, hkept, List.getLast?_eq_some_getLast hne]
    rw [← List.dropLast_concat_getLast hne, List.mem_append, List.mem_singleton] at he
    cases he with
    | inl hinit => exact .inl (List.mem_cons_of_mem _ hinit)
    | inr hlast => exact .inr (by rw [hlast])

/-- **Nothing has to go while there is room.** -/
theorem push_eq_none_iff {c : Lru κ ν} {k : κ} {v : ν} (h : c.contains k = false)
    (hcap : 0 < c.cap) : (c.push k v).1 = none ↔ c.entries.length < c.cap := by
  rw [push, peek_eq_none h]
  dsimp only
  by_cases hroom : c.entries.length < c.cap
  · rw [if_pos hroom]
    exact iff_of_true rfl hroom
  · rw [if_neg hroom, List.getLast?_eq_none_iff]
    refine iff_of_false ?_ hroom
    intro hempty
    rw [hempty] at hroom
    exact hroom hcap

/-- With room for it the new entry comes before all the others. -/
theorem entries_put_of_room {c : Lru κ ν} {k : κ} {v : ν} (h : c.contains k = false)
    (hroom : c.entries.length < c.cap) : (c.put k v).entries = (k, v) :: c.entries := by
  rw [entries_put_of_new h, List.take_of_length_le]
  exact hroom

/-- What has to go was there and is gone. -/
theorem not_mem_of_push {c : Lru κ ν} {k : κ} {v : ν} {e : κ × ν} (h : c.contains k = false)
    (he : (c.push k v).1 = some e) : e ∈ c.entries ∧ e ∉ (c.push k v).2.entries := by
  rw [push, peek_eq_none h] at he
  dsimp only at he
  by_cases hroom : c.entries.length < c.cap
  · rw [if_pos hroom] at he
    exact absurd he (by simp)
  · rw [if_neg hroom] at he
    have hne : c.entries ≠ [] := by
      intro hempty
      rw [hempty] at he
      exact absurd he (by simp)
    obtain rfl := Option.some.inj ((List.getLast?_eq_some_getLast hne).symm.trans he)
    refine ⟨List.getLast_mem hne, ?_⟩
    show _ ∉ (c.put k v).entries
    rw [entries_put_of_new h,
      ← Nat.le_antisymm c.length_le (Nat.not_lt.mp hroom)]
    -- as many entries stay as there were, the new one among them
    obtain ⟨n, hn⟩ := Nat.exists_eq_succ_of_ne_zero (mt List.length_eq_zero_iff.mp hne)
    have hkept : c.entries.take n = c.entries.dropLast := by
      rw [List.dropLast_eq_take, hn, Nat.succ_sub_one]
    rw [hn, List.take_succ_cons, hkept, List.mem_cons, not_or]
    constructor
    · intro hnew
      have hmem := hnew ▸ List.getLast_mem hne
      exact Bool.eq_false_iff.mp h (contains_iff.mpr ⟨v, hmem⟩)
    · have hnodup := List.Nodup.of_map Prod.fst c.nodup
      rw [← List.dropLast_concat_getLast hne, ← List.concat_eq_append] at hnodup
      exact (List.nodup_concat _ _).mp hnodup |>.1

/-! ## The keys -/

theorem mem_keys_of_put {c : Lru κ ν} {k k' : κ} {v : ν} (h : k' ∈ (c.put k v).keys) :
    k' = k ∨ k' ∈ c.keys := by
  obtain ⟨e, he, rfl⟩ := List.mem_map.mp h
  cases List.mem_cons.mp (List.mem_of_mem_take he) with
  | inl heq => exact .inl (congrArg Prod.fst heq)
  | inr hold => exact .inr (List.mem_map_of_mem (List.mem_filter.mp hold).1)

/-- Take keys out one after the other. -/
def popAll (c : Lru κ ν) (ks : List κ) : Lru κ ν := ks.foldl (fun c k => (c.pop k).2) c

@[simp] theorem popAll_cap (c : Lru κ ν) (ks : List κ) : (c.popAll ks).cap = c.cap := by
  induction ks generalizing c with
  | nil => rfl
  | cons k ks ih => exact ih (c.pop k).2

/-- What is left are the entries under the other keys. -/
theorem mem_popAll {c : Lru κ ν} {ks : List κ} {e : κ × ν} :
    e ∈ (c.popAll ks).entries ↔ e ∈ c.entries ∧ e.1 ∉ ks := by
  induction ks generalizing c with
  | nil => simp [popAll]
  | cons k ks ih =>
    have hpop : e ∈ (c.pop k).2.entries ↔ e ∈ c.entries ∧ e.1 ≠ k := by
      show e ∈ c.entries.filter _ ↔ _
      rw [List.mem_filter, bne_iff_ne]
    show e ∈ ((c.pop k).2.popAll ks).entries ↔ _
    rw [ih, hpop, List.mem_cons, not_or, and_assoc]

end Lru
