import Cat.Cwt.Skip
import Cat.Lib.Cbor.Value

/-!
# What the peek finds

`peek_issuer` on the bytes of a CBOR item, in terms of the item. Stepping over an entry reads
the key's head twice when the key is an unsigned integer: once to compare it with the issuer
label, which consumes the argument bytes, and once more to skip it. That is harmless only while
the argument sits in the initial byte, so everything below is about scans whose keys are
`NarrowKey`s as far as the scan goes (`ScanNarrow`).

On those, `peekIssuer_map` says exactly what is peeked: `Scan` is the loop over the entries, not
over their bytes.

`Scan` has three ends: the issuer is found, the entries are over, or an entry is too high to be
stepped over. The loop of the source has the same three and no others once it is aligned with
the entries, and it stays aligned by `Skip`. What happens where it is not aligned depends on the
bytes of a label, and is not described by any property of the map.
-/

set_option autoImplicit false

namespace Cat

open Cbor PeekCursor

/-- A key that reads as the issuer label, at any width. -/
def IssKey : Item → Prop
  | .uint a => a.val = 1
  | _ => False

instance : (k : Item) → Decidable (IssKey k)
  | .uint a => inferInstanceAs (Decidable (a.val = 1))
  | .nint _ | .bytes _ | .bytesIndef _ | .text _ | .textIndef _ | .array _ _ | .arrayIndef _
  | .map _ _ | .mapIndef _ | .tag _ _ | .simple _ | .simpleExt _ | .half _ | .single _
  | .double _ => inferInstanceAs (Decidable False)

/-- A key whose head is one byte if it is an unsigned integer. -/
def NarrowKey : Item → Prop
  | .uint a => a.ai < 24
  | _ => True

/-- An entry the cursor can step over. -/
def EntryFits (e : Item × Item) : Prop :=
  Fits peekMaxDepth (peekMaxDepth + 1) e.1 ∧ e.2.height ≤ peekMaxDepth

/-- What the loop over the first `n` entries peeks: the text under the first issuer's key,
    if the cursor can step over every entry before it. -/
def Scan : Nat → List (Item × Item) → Option String → Prop
  | 0, _, o | _, [], o => o = none
  | n + 1, (k, v) :: es, o =>
    if IssKey k then ∃ c s, v = .text c ∧ c.data = utf8 s ∧ o = some s
    else EntryFits (k, v) ∧ Scan n es o

/-- No wide key among the first `n`, as far as the cursor reads: up to the issuer's key, or
    up to an entry it cannot step over. -/
def ScanNarrow : Nat → List (Item × Item) → Prop
  | 0, _ => True
  | _, [] => True
  | n + 1, e :: es => IssKey e.1 ∨ NarrowKey e.1 ∧ (EntryFits e → ScanNarrow n es)

theorem Arg.tail_eq_nil {a : Arg} (h : a.ai < 24) : a.tail = [] := by
  cases a with
  | imm n => rfl
  | w1 | w2 | w4 | w8 => simp [Arg.ai] at h

/-! ## One entry

The cursor at an entry: whether the key is the issuer's, and otherwise over key and value.
-/

theorem matchesAiAsI64_steps (a : Arg) :
    Steps (matchesAiAsI64 a.ai) a.tail
      (if a.val > 2 ^ 63 - 1 then none else some (Int64.ofInt a.val)) := by
  intro c r hc
  rw [matchesAiAsI64, run_bind, lengthFromAi_steps a c r hc]
  dsimp only
  split <;> rfl

/-- The comparison finds the issuer label, and nothing else. -/
theorem matches_iss_iff (a : Arg) :
    (if a.val > 2 ^ 63 - 1 then none else some (Int64.ofInt a.val)) = some claimIss ↔
      a.val = 1 := by
  split
  · simp; omega
  · rename_i h
    rw [Option.some.injEq, ← Int64.toInt_inj, Int64.toInt_ofInt_of_le (by omega) (by omega)]
    have h1 : claimIss.toInt = 1 := by decide
    rw [h1]
    omega

/-- The read of the issuer's value succeeds on definite-length text alone. -/
theorem readIssuer_spec {v : Item} {c : PeekCursor} {r : Bytes} (hc : c.At (v.wire ++ r)) :
    (∃ k s, v = .text k ∧ k.data = utf8 s ∧ readIssuer c = .ok (s, c.adv v.wire.length)) ∨
      ((∀ k s, v = .text k → k.data ≠ utf8 s) ∧ ∃ e, readIssuer c = .error e) := by
  obtain ⟨ai, t, hai, -, hw⟩ := v.wire_cons
  have hhead := readHeader_steps v.major_lt hai c (t ++ r) (by simpa [hw] using hc)
  cases v with
  | text k =>
    have hai : k.arg.ai < 32 := Nat.lt_trans k.arg.ai_lt (by decide)
    have hdata : Steps (readBytes k.arg.val) k.data k.data := by
      rw [k.len]; exact readBytes_steps k.data
    have hc' : c.At ([initial 3 k.arg.ai] ++ (k.arg.tail ++ (k.data ++ r))) := by
      simpa [Item.wire, Chunk.wire, head] using hc
    have h1 := readHeader_steps (by decide) hai c _ hc'
    have h2 := lengthFromAi_steps k.arg _ _ hc'.adv
    have h3 := hdata _ _ hc'.adv.adv
    have hlen : (Item.text k).wire.length =
        [initial 3 k.arg.ai].length + k.arg.tail.length + k.data.length := by
      simp [Item.wire, Chunk.wire, head]; omega
    simp only [readIssuer, run_bind, h1, ne_eq, not_true_eq_false, if_false, h2, h3]
    cases hs : ofUtf8? k.data with
    | some s =>
      refine .inl ⟨k, s, rfl, ofUtf8?_eq_some.mp hs, ?_⟩
      dsimp only
      rw [run_pure, hlen, adv_adv, adv_adv, Nat.add_assoc]
    | none =>
      refine .inr ⟨?_, _, rfl⟩
      rintro k' s hk hs'
      cases hk
      rw [ofUtf8?_eq_some.mpr hs'] at hs
      exact absurd hs (by simp)
  | textIndef cs =>
    refine .inr ⟨by simp, ?_⟩
    have hc' : c.At ([initial 3 31] ++ (cs.flatMap (Chunk.wire 3) ++ [brk] ++ r)) := by
      simpa [Item.wire] using hc
    have h1 := readHeader_steps (by decide) (by decide) c _ hc'
    simp only [readIssuer, run_bind, h1]
    exact ⟨_, rfl⟩
  | _ =>
    refine .inr ⟨by simp, ?_⟩
    simp only [readIssuer, run_bind, hhead, Item.major]
    exact ⟨_, rfl⟩

/-- At the issuer's key, of whatever width, the entry's value is read. -/
theorem peekEntry_issuer {a : Arg} {v : Item} {c : PeekCursor} {r : Bytes} (ha : a.val = 1)
    (hc : c.At ((Item.uint a).wire ++ (v.wire ++ r))) :
    peekEntry c = (readIssuer (c.adv (Item.uint a).wire.length)).map
      fun p => (some p.1, p.2) := by
  have hai : a.ai < 32 := Nat.lt_trans a.ai_lt (by decide)
  have hc' : c.At ([initial 0 a.ai] ++ (a.tail ++ (v.wire ++ r))) := by
    simpa [Item.wire, head] using hc
  have h1 := readHeader_steps (by decide) hai c _ hc'
  have h2 := matchesAiAsI64_steps a _ _ hc'.adv
  have hm := (matches_iss_iff a).mpr ha
  have hlen : (Item.uint a).wire.length = [initial 0 a.ai].length + a.tail.length := by
    simp [Item.wire, head]; omega
  simp only [peekEntry, run_bind, h1, if_true, h2, hm, adv_adv, ← hlen]
  cases readIssuer (c.adv (Item.uint a).wire.length) with
  | error e => rfl
  | ok p => rfl

/-- Any other entry with a narrow key is stepped over, or is too high. -/
theorem peekEntry_other {k v : Item} (hk : k.WF) (hv : v.WF) (hn : NarrowKey k)
    (hne : ¬IssKey k) {c : PeekCursor} {r : Bytes} (hc : c.At (Item.wireEntry (k, v) ++ r)) :
    (EntryFits (k, v) ∧ peekEntry c = .ok (none, c.adv (Item.wireEntry (k, v)).length)) ∨
      (¬EntryFits (k, v) ∧ ∃ e, peekEntry c = .error e) := by
  obtain ⟨mt, ai, body, hmt, hai, hwire, hbody⟩ := skipAfterHeader_outcome k hk
  have hc' : c.At ([initial mt ai] ++ (body ++ (v.wire ++ r))) := by
    simpa [Item.wireEntry, hwire] using hc
  have h1 := readHeader_steps hmt hai c _ hc'
  -- what follows the header is the two skips: a narrow integer key leaves nothing to re-read
  have hskip : peekEntry c = (skipAfterHeader mt ai >>= fun _ => skipNextItem >>= fun _ =>
      Pure.pure none) (c.adv [initial mt ai].length) := by
    rw [peekEntry, run_bind, h1]
    dsimp only
    split
    · rename_i hmt0
      subst hmt0
      obtain ⟨a, rfl⟩ : ∃ a, k = .uint a := by
        obtain ⟨ai', t', hai', -, hw'⟩ := k.wire_cons
        rw [hw', List.cons.injEq] at hwire
        have hmaj := congrArg (fun b => b.toNat / 32) hwire.1
        simp only [initial_toNat_div k.major_lt hai', initial_toNat_div hmt hai] at hmaj
        cases k <;> simp [Item.major] at hmaj
        exact ⟨_, rfl⟩
      have hhead : head 0 a = initial 0 ai :: body := hwire
      rw [head, List.cons.injEq] at hhead
      have haa : a.ai = ai := by
        have := congrArg (fun b => b.toNat % 32) hhead.1
        simpa [initial_toNat_mod (Nat.lt_trans a.ai_lt (by decide) : a.ai < 32),
          initial_toNat_mod hai] using this
      have htail : body = [] := by rw [← hhead.2]; exact Arg.tail_eq_nil hn
      subst haa htail
      have hat : (c.adv [initial 0 a.ai].length).At (a.tail ++ (v.wire ++ r)) := by
        rw [Arg.tail_eq_nil hn]; exact hc'.adv
      have h2 := matchesAiAsI64_steps a _ _ hat
      have hm : ¬_ = some claimIss := mt (matches_iss_iff a).mp hne
      rw [run_bind, h2]
      simp only [hm, if_false, Arg.tail_eq_nil hn, List.length_nil, adv_zero]
    · rfl
  have hbodyAt : (c.adv [initial mt ai].length).At ((body ++ v.wire) ++ r) := by
    rw [List.append_assoc]; exact hc'.adv
  have hrun := hbody.then (skipNextItem_outcome v hv) _ _ hbodyAt
  have hlen : (Item.wireEntry (k, v)).length =
      [initial mt ai].length + (body ++ v.wire).length := by
    simp [Item.wireEntry, hwire]; omega
  rcases hrun with ⟨hP, h⟩ | ⟨hP, e, h⟩
  · refine .inl ⟨hP, ?_⟩
    rw [hskip, ← bind_assoc, run_bind, h, hlen, ← adv_adv]
    rfl
  · refine .inr ⟨hP, e, ?_⟩
    rw [hskip, ← bind_assoc, run_bind, h]

/-! ## The loop

As many entries as the map announces, with the issuer returned as soon as it is found.
-/

theorem peekEntries_iff {n : Nat} {es : List (Item × Item)} (hwf : Item.WFEntries es)
    (hn : n ≤ es.length) (hscan : ScanNarrow n es) {c : PeekCursor} {r : Bytes}
    (hc : c.At (Item.wireEntries es ++ r)) (o : Option String) :
    (∃ c', peekEntries false n c = .ok (o, c')) ↔ Scan n es o := by
  induction n generalizing es c with
  | zero => simp [peekEntries, Scan, eq_comm]
  | succ n ih =>
    match es with
    | [] => simp at hn
    | (k, v) :: es =>
      have hwf' := Item.wfEntries_iff.mp hwf
      obtain ⟨hk, hv⟩ := hwf' (k, v) (by simp)
      have hes : Item.WFEntries es := Item.wfEntries_iff.mpr fun e he => hwf' e (by simp [he])
      have hrest : c.At (Item.wireEntry (k, v) ++ (Item.wireEntries es ++ r)) := by
        rw [← List.append_assoc]; exact hc
      -- One turn of the loop: an issuer ends it, anything else leads to the next entry.
      have hturn : peekEntries false (n + 1) c = match peekEntry c with
          | .ok (some iss, c') => .ok (some iss, c')
          | .ok (none, c') => peekEntries false n c'
          | .error e => .error e := by
        rw [peekEntries, run_bind]
        show (peekEntry >>= _) c = _
        rw [run_bind]
        rcases peekEntry c with e | ⟨_ | iss, c'⟩ <;> rfl
      rw [hturn]
      by_cases hiss : IssKey k
      · obtain ⟨a, rfl⟩ : ∃ a, k = .uint a := by
          cases k with
          | uint a => exact ⟨a, rfl⟩
          | _ => exact absurd hiss (by simp [IssKey])
        have hkey : c.At ((Item.uint a).wire ++ (v.wire ++ (Item.wireEntries es ++ r))) := by
          rw [← List.append_assoc]; exact hrest
        rw [Scan, if_pos hiss, peekEntry_issuer hiss hkey]
        rcases readIssuer_spec hkey.adv with ⟨ck, s, rfl, hs, hread⟩ | ⟨hno, e, hread⟩
        · rw [hread]
          constructor
          · rintro ⟨c', h⟩
            cases h
            exact ⟨ck, s, rfl, hs, rfl⟩
          · rintro ⟨ck', s', hck, hs', rfl⟩
            cases hck
            rw [utf8_inj (hs.symm.trans hs')]
            exact ⟨_, rfl⟩
        · rw [hread]
          constructor
          · rintro ⟨c', h⟩; cases h
          · rintro ⟨ck, s, hck, hs, -⟩
            exact absurd hs (hno ck s hck)
      · obtain ⟨hnarrow, hnext⟩ : NarrowKey k ∧ (EntryFits (k, v) → ScanNarrow n es) :=
          hscan.resolve_left hiss
        rw [Scan, if_neg hiss]
        rcases peekEntry_other hk hv hnarrow hiss hrest with ⟨hfits, h⟩ | ⟨hfits, e, h⟩
        · rw [h, and_iff_right hfits]
          exact ih hes (by simpa using hn) (hnext hfits) hrest.adv
        · rw [h]
          constructor
          · rintro ⟨c', h'⟩; cases h'
          · rintro ⟨hf, -⟩; exact absurd hf hfits

theorem peekIssuer_eq_ok {b : Bytes} {o : Option String} :
    peekIssuer b = .ok o ↔ ∃ c', peekMap (.new b) = .ok (o, c') := by
  unfold peekIssuer
  rcases peekMap (.new b) with e | ⟨o', c'⟩
  · simp [Except.map]
  · simp only [Except.map, Except.ok.injEq, Prod.mk.injEq]
    constructor
    · rintro rfl; exact ⟨c', rfl, rfl⟩
    · rintro ⟨_, h, -⟩; exact h

theorem At.new {b : Bytes} (hb : b.length < 2 ^ 63) : (PeekCursor.new b).At b where
  pos_le := Nat.zero_le _
  len_lt := hb
  rest_eq := rfl

/-- **The peeked issuer** of a definite-length map without wide keys in the way. -/
theorem peekIssuer_map {a : Arg} {es : List (Item × Item)} (hwf : (Item.map a es).WF)
    (hlen : (Item.map a es).wire.length < 2 ^ 63)
    (hscan : ScanNarrow (min a.val peekMaxMapEntries) es) (o : Option String) :
    peekIssuer (Item.map a es).wire = .ok o ↔ Scan (min a.val peekMaxMapEntries) es o := by
  obtain ⟨ha, hes⟩ : a.val = es.length ∧ Item.WFEntries es := hwf
  have hai : a.ai < 32 := Nat.lt_trans a.ai_lt (by decide)
  have hc : (PeekCursor.new (Item.map a es).wire).At
      ([initial 5 a.ai] ++ (a.tail ++ (Item.wireEntries es ++ []))) := by
    rw [List.append_nil]; exact At.new hlen
  rw [peekIssuer_eq_ok, peekMap]
  simp only [run_bind, readHeader_steps (by decide) hai _ _ hc, ne_eq, not_true_eq_false,
    if_false, countFromAi_steps a _ _ hc.adv]
  exact peekEntries_iff hes (by omega) hscan hc.adv.adv o

/-- An indefinite-length map is not looked into, and nothing else is a map. -/
theorem peekIssuer_other {x : Item} (hlen : x.wire.length < 2 ^ 63)
    (hx : ∀ a es, x ≠ .map a es) {s : String} : peekIssuer x.wire ≠ .ok (some s) := by
  rw [ne_eq, peekIssuer_eq_ok]
  rintro ⟨c', h⟩
  obtain ⟨ai, t, hai, -, hw⟩ := x.wire_cons
  have hc : (PeekCursor.new x.wire).At ([initial x.major ai] ++ t) := by
    rw [List.singleton_append, ← hw]; exact At.new hlen
  have hhead := readHeader_steps x.major_lt hai _ _ hc
  simp only [peekMap, run_bind, hhead] at h
  cases x with
  | map a es => exact hx a es rfl
  | mapIndef es =>
    obtain rfl : ai = 31 := by
      have hw' : initial 5 31 :: (Item.wireEntries es ++ [brk]) = initial 5 ai :: t := hw
      have := congrArg (fun b => b.toNat % 32) (List.cons.inj hw').1
      simpa [initial_toNat_mod (by decide : 31 < 32), initial_toNat_mod hai] using this.symm
    cases h
  | _ => cases h

end Cat
