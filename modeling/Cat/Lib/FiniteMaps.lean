import Cat.Lib.Lists
import Mathlib.Data.List.Induction
import Mathlib.Data.List.Nodup

/-!
# Finite maps

Three ways a program holds values under keys, and what each of them makes of "what is under this
key":

- `KeyedList`, the entries themselves, each key once. Their order means nothing; the operations
  are insertion under a key that is not there yet and keeping the entries that pass a test. It
  models a hash map whose iteration order nobody relies on.
- `WriteLog`, the writes that made the map. What it holds is what the last write to each key put
  there: a value entered, or nothing where the key was taken out. A theorem about "the value in
  force" needs no map at all, which makes it independent of how the map is implemented.
- `Record`, a state of fixed fields that starts out empty and is filled by a list of assignments,
  each under a label of its own. If no assignment touches what another label is for, the record
  ends up with just what was assigned (`Record.has_foldl`). The laws are fields of the structure,
  because each of them is a fact about one assignment and `has_foldl` is the fact about all.
-/

set_option autoImplicit false

/-! ## Entries -/

/-- A finite map as the list of its entries. -/
structure KeyedList (κ ν : Type) where
  entries : List (κ × ν)
  nodup : (entries.map Prod.fst).Nodup

namespace KeyedList

variable {κ ν : Type}

def empty : KeyedList κ ν := ⟨[], List.nodup_nil⟩

def keys (m : KeyedList κ ν) : List κ := m.entries.map Prod.fst

instance : Membership (κ × ν) (KeyedList κ ν) := ⟨fun m e => e ∈ m.entries⟩

theorem mem_keys {m : KeyedList κ ν} {k : κ} : k ∈ m.keys ↔ ∃ v, (k, v) ∈ m := by
  show k ∈ m.entries.map Prod.fst ↔ ∃ v, (k, v) ∈ m.entries
  simp

/-- Enter a key that is not there. -/
def insertNew (m : KeyedList κ ν) (k : κ) (v : ν) (h : k ∉ m.keys) : KeyedList κ ν :=
  ⟨(k, v) :: m.entries, List.nodup_cons.mpr ⟨h, m.nodup⟩⟩

@[simp] theorem mem_insertNew {m : KeyedList κ ν} {k : κ} {v : ν} {h : k ∉ m.keys}
    {e : κ × ν} : e ∈ m.insertNew k v h ↔ e = (k, v) ∨ e ∈ m := List.mem_cons

@[simp] theorem keys_insertNew {m : KeyedList κ ν} {k : κ} {v : ν} {h : k ∉ m.keys} :
    (m.insertNew k v h).keys = k :: m.keys := rfl

/-- The entries that pass a test. -/
def retain (m : KeyedList κ ν) (p : κ → ν → Bool) : KeyedList κ ν :=
  ⟨m.entries.filter fun e => p e.1 e.2, (List.filter_sublist.map Prod.fst).nodup m.nodup⟩

@[simp] theorem mem_retain {m : KeyedList κ ν} {p : κ → ν → Bool} {e : κ × ν} :
    e ∈ m.retain p ↔ e ∈ m ∧ p e.1 e.2 = true := List.mem_filter

end KeyedList

/-! ## Writes -/

namespace WriteLog

variable {κ ν : Type} {log : List (κ × Option ν)} {w : κ × Option ν} {k : κ} {v v' : ν}

/-- The value that the last write to the key entered. -/
def InForce (log : List (κ × Option ν)) (k : κ) (v : ν) : Prop :=
  ∃ before after, log = before ++ (k, some v) :: after ∧ ∀ w ∈ after, w.1 ≠ k

theorem not_inForce_nil : ¬InForce [] k v := by
  rintro ⟨before, after, heq, -⟩
  simp at heq

/-- **One more write** decides for its own key, and leaves the others. -/
theorem inForce_concat :
    InForce (log ++ [w]) k v ↔ w = (k, some v) ∨ w.1 ≠ k ∧ InForce log k v := by
  constructor
  · rintro ⟨before, after, heq, hafter⟩
    cases after.eq_nil_or_concat with
    | inl hnil =>
      subst hnil
      exact .inl (List.append_inj_right' heq rfl |> List.singleton_inj.mp)
    | inr hconcat =>
      obtain ⟨after, w', rfl⟩ := hconcat
      rw [List.concat_eq_append, ← List.cons_append, ← List.append_assoc] at heq
      obtain ⟨hlog, hw⟩ := List.append_inj' heq rfl
      obtain rfl := List.singleton_inj.mp hw
      right
      refine ⟨hafter w (by simp), before, after, hlog, ?_⟩
      intro w' hw'
      exact hafter w' (by simp [hw'])
  · rintro (rfl | ⟨hw, before, after, rfl, hafter⟩)
    · exact ⟨log, [], rfl, by simp⟩
    · refine ⟨before, after ++ [w], by simp, ?_⟩
      intro w' hw'
      cases List.mem_append.mp hw' with
      | inl hold => exact hafter w' hold
      | inr hnew => rw [List.mem_singleton.mp hnew]; exact hw

/-- A key has one value at most. -/
theorem InForce.unique (h : InForce log k v) (h' : InForce log k v') : v = v' := by
  induction log using List.reverseRecOn with
  | nil => exact absurd h not_inForce_nil
  | append_singleton log w ih =>
    rcases inForce_concat.mp h with rfl | ⟨hw, hold⟩
    · rcases inForce_concat.mp h' with heq | ⟨hw', -⟩
      · exact Option.some.inj (Prod.mk.inj heq).2
      · exact absurd rfl hw'
    · rcases inForce_concat.mp h' with rfl | ⟨-, hold'⟩
      · exact absurd rfl hw
      · exact ih hold hold'

end WriteLog

/-! ## Records -/

/-- A state that assignments fill. Some assignments assign nothing. -/
structure Record (σ δ κ : Type) where
  assign : σ → δ → σ
  label : δ → κ
  /-- The state has what the assignment says. -/
  Has : σ → δ → Prop
  IsSet : δ → Prop
  isSet_of_has : ∀ {s : σ} {d : δ}, Has s d → IsSet d
  has_assign_self : ∀ {s : σ} {d : δ}, IsSet d → Has (assign s d) d
  has_assign_other : ∀ {s : σ} {d d' : δ}, label d' ≠ label d → (Has (assign s d') d ↔ Has s d)
  eq_of_has_assign : ∀ {s : σ} {d d' : δ}, Has (assign s d') d → ¬Has s d → d = d'

namespace Record

variable {σ δ κ : Type} (r : Record σ δ κ)

/-- Assignments under other labels leave it at that. -/
theorem has_foldl_other {ds : List δ} {d : δ} : ∀ {s : σ}, (∀ d' ∈ ds, r.label d' ≠ r.label d) →
    (r.Has (ds.foldl r.assign s) d ↔ r.Has s d) := by
  induction ds with
  | nil => intro s _; exact Iff.rfl
  | cons d' ds ih =>
    intro s hne
    rw [List.foldl_cons, ih fun d'' hd'' => hne d'' (List.mem_cons_of_mem _ hd'')]
    exact r.has_assign_other (hne d' List.mem_cons_self)

/-- **A record has what was assigned to it, and nothing else.** -/
theorem has_foldl {ds : List δ} {s : σ} {d : δ} (h : (ds.map r.label).Nodup)
    (hempty : ∀ d, ¬r.Has s d) : r.Has (ds.foldl r.assign s) d ↔ d ∈ ds ∧ r.IsSet d := by
  constructor
  · intro hhas
    refine ⟨?_, r.isSet_of_has hhas⟩
    by_cases hl : ∃ d' ∈ ds, r.label d' = r.label d
    · obtain ⟨d', hd', hl⟩ := hl
      obtain ⟨as, bs, rfl, has, hbs⟩ := List.split_of_nodup_map h hd'
      rw [hl] at has hbs
      rw [List.foldl_append, List.foldl_cons, r.has_foldl_other hbs] at hhas
      have hn : ¬r.Has (as.foldl r.assign s) d := by
        rw [r.has_foldl_other has]
        exact hempty d
      rw [r.eq_of_has_assign hhas hn]
      exact hd'
    · rw [r.has_foldl_other fun d' hd' heq => hl ⟨d', hd', heq⟩] at hhas
      exact absurd hhas (hempty d)
  · rintro ⟨hd, hset⟩
    obtain ⟨as, bs, rfl, -, hbs⟩ := List.split_of_nodup_map h hd
    rw [List.foldl_append, List.foldl_cons, r.has_foldl_other hbs]
    exact r.has_assign_self hset

end Record
