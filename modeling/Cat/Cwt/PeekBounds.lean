import Mathlib.Data.Nat.Bitwise
import Cat.Cwt.PeekWalk

/-!
# The walk stays in bounds

A walk over any bytes does what `Cwt.Peek` says, and on the way reads only inside the buffer,
only moves forward, never panics and never opens a call past the depth limit. The turns it needs
are linear in the bytes, whatever lengths the bytes declare: an item takes at least its initial
byte, so every turn of a loop and every call but the first takes one.

`Sound` says this of one walk beside the step of the cursor it is written after; it has a rule
for each way walks are put together, and the functions of the cursor are then taken from the
bottom up.

The bytes are any bytes, and in particular not those of a well-formed item. A declared length
may be larger than what is left, or than any machine integer when something is added to it, and
both are checked before a slice is taken: this is what `Sound` turns up at `read_bytes` and at
the sums in front of it. The bound on turns is by a potential, the bytes not yet consumed. A
walk that fails has used no more turns than one that goes on, so the bound is on all walks and
not on successful ones.

The rule for branches is stated once for the two matches that the functions make, on the width
of an argument and on the major type (`sound_byWidth`, `sound_byMajorType`).
-/

set_option autoImplicit false

namespace Cat

open Cbor (Bytes)

namespace PeekWalk

open PeekCursor (truncated nestingTooDeep)

/-! ## States in bounds

The position is at most the end of the buffer. The buffer is a slice and so no longer than
`isize::MAX`, which is where sums of a position and a length get their room from.
-/

structure Safe (buf : Slice) (s : PeekState) : Prop where
  pos_le : s.pos ≤ buf.length
  within : ∀ e ∈ s.trace, e.Within buf.length

namespace Safe

variable {buf : Slice} {s : PeekState}

theorem record (h : Safe buf s) {e : PeekEvent} (he : e.Within buf.length) :
    Safe buf { s with trace := e :: s.trace } := by
  refine ⟨h.pos_le, ?_⟩
  intro e' hmem
  rcases List.mem_cons.mp hmem with rfl | hmem
  · exact he
  · exact h.within e' hmem

theorem move (h : Safe buf s) {target : Nat} (hge : s.pos ≤ target)
    (hle : target ≤ buf.length) :
    Safe buf { s with pos := target, trace := .moved s.pos target :: s.trace } :=
  ⟨hle, (h.record (e := .moved s.pos target) ⟨hge, hle⟩).within⟩

theorem withActive (h : Safe buf s) (active : Nat) : Safe buf { s with active } :=
  ⟨h.pos_le, h.within⟩

end Safe

/-! ## A walk beside a step of the cursor

One relation that says everything at once: the same outcome, the record of what was read and
where it moved, the turns that were taken. The rules for sequences, branches and loops are
proved for it, and the rest of the module is an application of these rules along the text of the
cursor.
-/

/-- A walk from `s` and a step from the same position ended alike: with the same value, at
    one position at least `k` bytes on and with the open calls of `s`, or with one error. -/
inductive Follows (buf : Slice) (s : PeekState) (k : Nat) {α : Type} :
    Except PeekHalt α × PeekState → Except CatError (α × PeekCursor) → Prop
  | took {a : α} {s' : PeekState} : Safe buf s' → s.pos + k ≤ s'.pos → s'.active = s.active →
      Follows buf s k (.ok a, s') (.ok (a, ⟨buf.bytes, s'.pos⟩))
  | refused {e : CatError} {s' : PeekState} : Safe buf s' →
      Follows buf s k (.error (.refused e), s') (.error e)

/-- From every state in bounds, with at most `n` bytes left and at most `d` calls open, the
    walk `w` follows the step `p` and takes at least `k` bytes. -/
def Sound (buf : Slice) (n d k : Nat) {α : Type} (w : Walk α) (p : Peek α) : Prop :=
  ∀ s : PeekState, Safe buf s → buf.length ≤ s.pos + n → s.active ≤ d →
    Follows buf s k (w s) (p ⟨buf.bytes, s.pos⟩)

section

variable {α β : Type} {w : Walk α} {s s' : PeekState}

theorem bind_ok {a : α} (h : w s = (.ok a, s')) (f : α → Walk β) :
    (w >>= f) s = f a s' := by
  change (StateT.bind w (ExceptT.bindCont f)) s = _
  simp only [StateT.bind, bind, h]
  rfl

theorem bind_error {e : PeekHalt} (h : w s = (.error e, s')) (f : α → Walk β) :
    (w >>= f) s = (.error e, s') := by
  change (StateT.bind w (ExceptT.bindCont f)) s = _
  simp only [StateT.bind, bind, h]
  rfl

theorem step_bind_ok {p : Peek α} {c c' : PeekCursor} {a : α} (h : p c = .ok (a, c'))
    (g : α → Peek β) : (p >>= g) c = g a c' := by
  change (p c >>= fun r => g r.1 r.2) = _
  rw [h]
  rfl

theorem step_bind_error {p : Peek α} {c : PeekCursor} {e : CatError} (h : p c = .error e)
    (g : α → Peek β) : (p >>= g) c = .error e := by
  change (p c >>= fun r => g r.1 r.2) = _
  rw [h]
  rfl

end

section

variable {buf : Slice} {s : PeekState} {α β : Type}

/-- One part after another: the second starts where the first stopped. -/
theorem Follows.bind {k : Nat} {w : Walk α} {p : Peek α} {f : α → Walk β} {g : α → Peek β}
    (h : Follows buf s k (w s) (p ⟨buf.bytes, s.pos⟩))
    (hf : ∀ a s', Safe buf s' → s.pos + k ≤ s'.pos → s'.active = s.active →
      Follows buf s' 0 (f a s') (g a ⟨buf.bytes, s'.pos⟩)) :
    Follows buf s k ((w >>= f) s) ((p >>= g) ⟨buf.bytes, s.pos⟩) := by
  generalize hw : w s = out at h
  generalize hp : p ⟨buf.bytes, s.pos⟩ = res at h
  cases h with
  | refused hs' =>
    rw [bind_error hw, step_bind_error hp]
    exact .refused hs'
  | @took a s₁ hs₁ hpos₁ hactive₁ =>
    rw [bind_ok hw, step_bind_ok hp]
    have hsecond := hf a s₁ hs₁ hpos₁ hactive₁
    generalize f a s₁ = out₂ at hsecond
    generalize g a ⟨buf.bytes, s₁.pos⟩ = res₂ at hsecond
    cases hsecond with
    | refused hs₂ => exact .refused hs₂
    | took hs₂ hpos₂ hactive₂ => exact .took hs₂ (by omega) (hactive₂.trans hactive₁)

theorem Follows.mono {k k' : Nat} {out : Except PeekHalt α × PeekState}
    {res : Except CatError (α × PeekCursor)} (h : Follows buf s k out res) (hk : k' ≤ k) :
    Follows buf s k' out res := by
  cases h with
  | took hs' hpos hactive => exact .took hs' (by omega) hactive
  | refused hs' => exact .refused hs'

/-- A walk that has only written something down is still at its start. -/
theorem Follows.ofTrace {trace : List PeekEvent} {k : Nat}
    {out : Except PeekHalt α × PeekState} {res : Except CatError (α × PeekCursor)}
    (h : Follows buf { s with trace } k out res) : Follows buf s k out res := by
  cases h with
  | took hs' hpos hactive => exact .took hs' hpos hactive
  | refused hs' => exact .refused hs'

end

namespace Sound

variable {buf : Slice} {n d k : Nat} {α β : Type}

theorem pure (a : α) : Sound buf n d 0 (pure a) (pure a) := by
  intro s hs _ _
  exact .took hs (Nat.le_refl _) rfl

theorem refuse (e : CatError) :
    Sound buf n d k (refuse e : Walk α) (throw e) := by
  intro s hs _ _
  exact .refused hs

theorem mono {n' d' k' : Nat} {w : Walk α} {p : Peek α} (h : Sound buf n d k w p)
    (hn : n' ≤ n) (hd : d' ≤ d) (hk : k' ≤ k) : Sound buf n' d' k' w p := by
  intro s hs hleft hactive
  exact (h s hs (by omega) (by omega)).mono hk

/-- The bytes the first part takes are no longer left for the second, which is reached only
    if there were as many. -/
theorem bind {w : Walk α} {p : Peek α} {f : α → Walk β} {g : α → Peek β}
    (h : Sound buf n d k w p) (hf : k ≤ n → ∀ a, Sound buf (n - k) d 0 (f a) (g a)) :
    Sound buf n d k (w >>= f) (p >>= g) := by
  intro s hs hleft hactive
  refine (h s hs hleft hactive).bind fun a s' hs' hpos hactive' => ?_
  -- `k` bytes were taken and the end was not passed, so there were as many
  have hkn : k ≤ n := by
    have := hs'.pos_le
    omega
  exact hf hkn a s' hs' (by omega) (by omega)

theorem andThen {w : Walk α} {p : Peek α} {f : α → Walk β} {g : α → Peek β}
    (h : Sound buf n d k w p) (hf : ∀ a, Sound buf (n - k) d 0 (f a) (g a)) :
    Sound buf n d 0 (w >>= f) (p >>= g) :=
  (h.bind fun _ => hf).mono (Nat.le_refl n) (Nat.le_refl d) (Nat.zero_le k)

theorem ite {c : Prop} [Decidable c] {w w' : Walk α} {p p' : Peek α}
    (h : c → Sound buf n d k w p) (h' : ¬c → Sound buf n d k w' p') :
    Sound buf n d k (if c then w else w') (if c then p else p') := by
  by_cases hc : c
  · rw [if_pos hc, if_pos hc]
    exact h hc
  · rw [if_neg hc, if_neg hc]
    exact h' hc

end Sound

/-! ## The cursor's own functions

From the bottom up, each by the rules and by the lemmas about the functions it calls.
-/

section

variable {buf : Slice} {n d : Nat}

theorem add_of_lt {width a b : Nat} (h : a + b < 2 ^ width) :
    add width a b = pure (a + b) :=
  if_pos h

theorem index_eq {i : Nat} {b : UInt8} (h : buf.bytes[i]? = some b) (s : PeekState) :
    index buf i s = (.ok b, { s with trace := .read i (i + 1) :: s.trace }) := by
  simp only [index, h]

theorem exists_byte {i : Nat} (h : i < buf.length) : ∃ b, buf.bytes[i]? = some b :=
  ⟨_, List.getElem?_eq_getElem h⟩

theorem no_byte {i : Nat} (h : ¬i < buf.length) : buf.bytes[i]? = none :=
  List.getElem?_eq_none (Nat.le_of_not_lt h)

theorem sound_readU8 : Sound buf n d 1 (readU8 buf) PeekCursor.readU8 := by
  intro s hs _ _
  unfold readU8
  rw [bind_ok (show getPos s = (.ok s.pos, s) from rfl)]
  by_cases hpos : s.pos < buf.length
  · obtain ⟨b, hb⟩ := exists_byte hpos
    have hfit : s.pos + 1 < 2 ^ 64 := by
      have := buf.length_lt
      simp only [Slice.length] at hpos
      omega
    have hread : Safe buf { s with trace := .read s.pos (s.pos + 1) :: s.trace } :=
      hs.record ⟨by omega, hpos⟩
    rw [if_neg (Nat.not_le.mpr hpos), bind_ok (index_eq hb s), add_of_lt hfit, pure_bind,
      bind_ok (show setPos (s.pos + 1) _ = (.ok (), _) from rfl)]
    simp only [PeekCursor.readU8, hb]
    exact .took (hread.move (by simp) hpos) (Nat.le_refl _) rfl
  · rw [if_pos (Nat.le_of_not_lt hpos)]
    simp only [PeekCursor.readU8, no_byte hpos]
    exact .refused hs

theorem sound_readBytes (m : Nat) :
    Sound buf n d 0 (readBytes buf m) (PeekCursor.readBytes m) := by
  intro s hs _ _
  unfold readBytes
  rw [bind_ok (show getPos s = (.ok s.pos, s) from rfl)]
  simp only [PeekCursor.readBytes]
  by_cases hfit : 2 ^ 64 ≤ s.pos + m
  · rw [if_pos hfit, if_pos hfit]
    exact .refused hs
  · rw [if_neg hfit, if_neg hfit]
    by_cases hlong : s.pos + m > buf.length
    · rw [if_pos hlong, if_pos (show s.pos + m > buf.bytes.length from hlong)]
      exact .refused hs
    · have hread : Safe buf { s with trace := .read s.pos (s.pos + m) :: s.trace } :=
        hs.record ⟨by omega, by omega⟩
      have hrange : range buf s.pos (s.pos + m) s
          = (.ok ((buf.bytes.drop s.pos).take m),
              { s with trace := .read s.pos (s.pos + m) :: s.trace }) := by
        unfold range
        rw [if_pos ⟨by omega, by omega⟩, Nat.add_sub_cancel_left]
      rw [if_neg hlong, if_neg (show ¬s.pos + m > buf.bytes.length from hlong), bind_ok hrange,
        bind_ok (show setPos (s.pos + m) _ = (.ok (), _) from rfl)]
      exact .took (hread.move (by simp) (by omega)) (by simp) rfl

/-- At a byte that was peeked at, the sum does not saturate and the cursor stays inside. -/
theorem follows_consumeByte {s : PeekState} (hs : Safe buf s) (hpos : s.pos < buf.length) :
    Follows buf s 1 (consumeByte s) (PeekCursor.consumeByte ⟨buf.bytes, s.pos⟩) := by
  have hfit : min (s.pos + 1) (2 ^ 64 - 1) = s.pos + 1 := by
    have := buf.length_lt
    simp only [Slice.length] at hpos
    omega
  unfold consumeByte
  rw [bind_ok (show getPos s = (.ok s.pos, s) from rfl), hfit]
  exact .took (hs.move (by omega) hpos) (Nat.le_refl _) rfl

/-- What follows a look at the next byte may rely on there being one. -/
theorem sound_peekBreak_bind {k : Nat} {α : Type} {f : Bool → Walk α} {g : Bool → Peek α}
    (hbreak : ∀ s, Safe buf s → s.pos < buf.length →
      Follows buf s k (f true s) (g true ⟨buf.bytes, s.pos⟩))
    (hrest : 0 < n → Sound buf n d k (f false) (g false)) :
    Sound buf n d k (peekBreak buf >>= f) (PeekCursor.peekBreak >>= g) := by
  intro s hs hleft hactive
  by_cases hpos : s.pos < buf.length
  · obtain ⟨b, hb⟩ := exists_byte hpos
    have hread : Safe buf { s with trace := .read s.pos (s.pos + 1) :: s.trace } :=
      hs.record ⟨by omega, hpos⟩
    have hw : peekBreak buf s
        = (.ok (b == 0xff), { s with trace := .read s.pos (s.pos + 1) :: s.trace }) := by
      unfold peekBreak
      rw [bind_ok (show getPos s = (.ok s.pos, s) from rfl), if_neg (Nat.not_le.mpr hpos),
        bind_ok (index_eq hb s)]
      rfl
    have hp : PeekCursor.peekBreak ⟨buf.bytes, s.pos⟩
        = .ok (b == 0xff, ⟨buf.bytes, s.pos⟩) := by
      simp only [PeekCursor.peekBreak, hb]
    rw [bind_ok hw, step_bind_ok hp]
    cases b == 0xff with
    | true => exact (hbreak _ hread hpos).ofTrace
    | false => exact (hrest (by omega) _ hread hleft hactive).ofTrace
  · have hw : peekBreak buf s = (.error (.refused truncated), s) := by
      unfold peekBreak
      rw [bind_ok (show getPos s = (.ok s.pos, s) from rfl), if_pos (Nat.le_of_not_lt hpos)]
      rfl
    have hp : PeekCursor.peekBreak ⟨buf.bytes, s.pos⟩ = .error truncated := by
      simp only [PeekCursor.peekBreak, no_byte hpos]
    rw [bind_error hw, step_bind_error hp]
    exact .refused hs

theorem sound_readHeader : Sound buf n d 1 (readHeader buf) PeekCursor.readHeader :=
  sound_readU8.bind fun _ _ => .pure _

/-- Nothing is shifted out while the word fits in the bytes read. -/
theorem shiftIn_eq {acc : Nat} (h : acc < 2 ^ 56) (b : UInt8) :
    shiftIn acc b = acc * 256 + b.toNat := by
  have hshift : acc <<< 8 = acc * 256 := Nat.shiftLeft_eq acc 8
  have hfit : acc <<< 8 < 2 ^ 64 := by omega
  have hb : b.toNat < 2 ^ 8 := b.toNat_lt
  rw [shiftIn, Nat.mod_eq_of_lt hfit, ← Nat.shiftLeft_add_eq_or_of_lt hb, hshift]

/-- A word of `j` bytes takes `m` more, up to eight. -/
theorem sound_readWord {j m acc : Nat} (hj : j + m ≤ 8) (hacc : acc < 256 ^ j) :
    Sound buf n d 0 (readWord buf m acc) (PeekCursor.readWord m acc) := by
  induction m generalizing n j acc with
  | zero => exact .pure acc
  | succ m ih =>
    have hsmall : acc < 2 ^ 56 := by
      calc acc < 256 ^ j := hacc
        _ ≤ 256 ^ 7 := Nat.pow_le_pow_right (by decide) (by omega)
        _ = 2 ^ 56 := by norm_num
    refine sound_readU8.andThen fun b => ?_
    rw [shiftIn_eq hsmall]
    refine ih (j := j + 1) (by omega) ?_
    have hb : b.toNat < 2 ^ 8 := b.toNat_lt
    rw [pow_succ]
    omega

/-- An argument behind the head, by its width: anything but the four widths is refused. -/
theorem sound_byWidth {α : Type} {w₁ w₂ w₄ w₈ : Walk α} {p₁ p₂ p₄ p₈ : Peek α} {e : CatError}
    (h₁ : Sound buf n d 0 w₁ p₁) (h₂ : Sound buf n d 0 w₂ p₂) (h₄ : Sound buf n d 0 w₄ p₄)
    (h₈ : Sound buf n d 0 w₈ p₈) (ai : Nat) :
    Sound buf n d 0
      (match ai with | 24 => w₁ | 25 => w₂ | 26 => w₄ | 27 => w₈ | _ => refuse e)
      (match ai with | 24 => p₁ | 25 => p₂ | 26 => p₄ | 27 => p₈ | _ => throw e) := by
  split
  · exact h₁
  · exact h₂
  · exact h₄
  · exact h₈
  · exact .refuse e

theorem sound_lengthFromAi (ai : Nat) :
    Sound buf n d 0 (lengthFromAi buf ai) (PeekCursor.lengthFromAi ai) := by
  have hword : ∀ m ≤ 8, Sound buf n d 0 (readWord buf m 0) (PeekCursor.readWord m 0) :=
    fun m hm => sound_readWord (j := 0) (by omega) (by decide)
  refine Sound.ite (fun _ => .pure ai) fun _ => ?_
  exact sound_byWidth (hword 1 (by decide)) (hword 2 (by decide)) (hword 4 (by decide))
    (hword 8 (by decide)) ai

theorem sound_countFromAi (ai : Nat) :
    Sound buf n d 0 (countFromAi buf ai) (PeekCursor.countFromAi ai) :=
  .ite (fun _ => .pure _) fun _ => (sound_lengthFromAi ai).andThen fun _ => .pure _

theorem sound_skipSimple (ai : Nat) :
    Sound buf n d 0 (skipSimple buf ai) (PeekCursor.skipSimple ai) := by
  have hbytes : ∀ m, Sound buf n d 0 (do let _ ← readBytes buf m)
      (do let _ ← PeekCursor.readBytes m) :=
    fun m => (sound_readBytes m).andThen fun _ => .pure ()
  refine Sound.ite (fun _ => .pure ()) fun _ => ?_
  exact sound_byWidth (sound_readU8.andThen fun _ => .pure ()) (hbytes 2) (hbytes 4) (hbytes 8) ai

/-! ## Loops and calls

A loop takes a byte for each turn it goes on. So bounds on the turns add up over what follows,
without regard to the lengths that the bytes declare.
-/

/-- Both loops stop by the stop code or by the end of the buffer: a chunk takes a byte. -/
theorem sound_skipIndefiniteString {fuel m : Nat} (hfuel : n + 1 ≤ fuel) (hm : n + 1 ≤ m) :
    Sound buf n d 0 (skipIndefiniteString buf fuel) (PeekCursor.skipChunks m) := by
  induction fuel generalizing n m with
  | zero => omega
  | succ fuel ih =>
    obtain ⟨m, rfl⟩ := Nat.exists_eq_add_one.mpr (show 0 < m by omega)
    refine sound_peekBreak_bind (fun s hs hpos => (follows_consumeByte hs hpos).mono
      (Nat.zero_le 1)) fun hleft => ?_
    refine sound_readHeader.andThen fun header => ?_
    refine Sound.ite (fun _ => .refuse _) fun _ => ?_
    refine (sound_lengthFromAi header.2).andThen fun length => ?_
    refine (sound_readBytes length).andThen fun _ => ?_
    exact ih (by omega) (by omega)

theorem sound_skipString {fuel : Nat} (hfuel : n + 1 ≤ fuel) (ai : Nat) :
    Sound buf n d 0 (skipString buf fuel ai) (PeekCursor.skipString ai) := by
  refine Sound.ite (fun _ => ?_) fun _ =>
    (sound_lengthFromAi ai).andThen fun length => (sound_readBytes length).andThen fun _ => .pure ()
  intro s hs hleft hactive
  -- the step bounds its loop by the bytes left at this very state
  refine sound_skipIndefiniteString (n := buf.length - s.pos) ?_ (Nat.le_refl _) s hs ?_ hactive
  · omega
  · omega

/-- An item by its major type, of which there are eight. -/
theorem sound_byMajorType {w₀ w₁ w₂ w₃ w₄ w₅ w₆ w₇ : Walk Unit}
    {p₀ p₁ p₂ p₃ p₄ p₅ p₆ p₇ : Peek Unit} {e : CatError}
    (h₀ : Sound buf n d 0 w₀ p₀) (h₁ : Sound buf n d 0 w₁ p₁) (h₂ : Sound buf n d 0 w₂ p₂)
    (h₃ : Sound buf n d 0 w₃ p₃) (h₄ : Sound buf n d 0 w₄ p₄) (h₅ : Sound buf n d 0 w₅ p₅)
    (h₆ : Sound buf n d 0 w₆ p₆) (h₇ : Sound buf n d 0 w₇ p₇) (mt : Nat) :
    Sound buf n d 0
      (match mt with
        | 0 => w₀ | 1 => w₁ | 2 => w₂ | 3 => w₃ | 4 => w₄ | 5 => w₅ | 6 => w₆ | 7 => w₇
        | _ => refuse e)
      (match mt with
        | 0 => p₀ | 1 => p₁ | 2 => p₂ | 3 => p₃ | 4 => p₄ | 5 => p₅ | 6 => p₆ | 7 => p₇
        | _ => throw e) := by
  split
  · exact h₀
  · exact h₁
  · exact h₂
  · exact h₃
  · exact h₄
  · exact h₅
  · exact h₆
  · exact h₇
  · exact .refuse e

theorem sound_skipBody {fuel : Nat} (hfuel : n + 1 ≤ fuel)
    {container : Nat → Bool → Walk Unit} {tagged : Walk Unit}
    {container' : Nat → Bool → Peek Unit} {tagged' : Peek Unit}
    (hcontainer : ∀ ai isMap, Sound buf n d 0 (container ai isMap) (container' ai isMap))
    (htagged : Sound buf n d 0 tagged tagged') (mt ai : Nat) :
    Sound buf n d 0 (skipBody buf fuel container tagged mt ai)
      (PeekCursor.skipBody container' tagged' mt ai) := by
  have hargument {w : Walk Unit} {p : Peek Unit} (h : Sound buf n d 0 w p) :
      Sound buf n d 0 (do let _ ← lengthFromAi buf ai; w)
        (do let _ ← PeekCursor.lengthFromAi ai; p) :=
    (sound_lengthFromAi ai).andThen fun _ => h
  exact sound_byMajorType (hargument (.pure ())) (hargument (.pure ())) (sound_skipString hfuel ai)
    (sound_skipString hfuel ai) (hcontainer ai false) (hcontainer ai true) (hargument htagged)
    (sound_skipSimple ai) mt

/-- The body runs with one more call open; on return there are as many as before. -/
theorem sound_call {depth : Nat} (hdepth : depth ≤ peekMaxDepth + 1) {body : Walk Unit}
    {p : Peek Unit} {k : Nat} (h : Sound buf n (depth + 1) k body p) :
    Sound buf n depth k (call depth body) p := by
  intro s hs hleft hactive
  have hopened : Safe buf (s.opened depth) :=
    (hs.record (e := .called depth (s.active + 1))
      ⟨hdepth, by omega⟩).withActive (s.active + 1)
  have hbody : Follows buf (s.opened depth) k (body (s.opened depth)) (p ⟨buf.bytes, s.pos⟩) :=
    h (s.opened depth) hopened hleft (Nat.succ_le_succ hactive)
  unfold call
  generalize body (s.opened depth) = out at hbody ⊢
  generalize p ⟨buf.bytes, s.pos⟩ = res at hbody ⊢
  cases hbody with
  | @took a s' hs' hpos _ =>
    have hclosed : Safe buf { s' with active := s.active } := hs'.withActive s.active
    exact .took hclosed hpos rfl
  | refused hs' => exact .refused (hs'.withActive s.active)

theorem sound_enter {depth : Nat} (hdepth : depth ≤ peekMaxDepth) {w : Walk Unit}
    {p : Peek Unit} {k : Nat} (h : Sound buf n (depth + 1) k w p) :
    Sound buf n (depth + 1) k (do enter depth; w) p := by
  intro s hs hleft hactive
  have hentered : Safe buf { s with trace := .entered depth s.active :: s.trace } :=
    hs.record (e := .entered depth s.active) ⟨hdepth, by omega⟩
  rw [bind_ok (show enter depth s = (.ok (), _) from rfl)]
  exact (h _ hentered hleft hactive).ofTrace

/-! ## The recursion

`skip_next_item_at_depth` and `skip_array_or_map` call each other, one level up at each call. By
induction on the levels that are left, for any fuel that suffices.
-/

/-- `skip_array_or_map` in the step's terms: at the depth limit nothing is `left`. -/
def containerStep (left : Nat) (ai : Nat) (isMap : Bool) : Peek Unit :=
  match left with
  | 0 => throw nestingTooDeep
  | left + 1 => PeekCursor.skipContainer (PeekCursor.skipNextItemAtDepth (left + 1)) ai isMap

theorem skipNextItemAtDepth_succ (left : Nat) :
    PeekCursor.skipNextItemAtDepth (left + 1)
      = PeekCursor.readHeader >>= fun header =>
          PeekCursor.skipBody (containerStep left) (PeekCursor.skipNextItemAtDepth left)
            header.1 header.2 := by
  unfold containerStep
  cases left <;> rfl

end

/-- What `fuel` turns suffice for. An item takes a byte before it recurses, and a loop takes
    one at each turn, so each of the three asks for three turns a byte. -/
structure Suffices (buf : Slice) (fuel : Nat) : Prop where
  item : ∀ {n depth left : Nat}, depth + left = peekMaxDepth + 1 → 3 * n + 1 ≤ fuel →
    Sound buf n depth 1 (skipNextItemAtDepth buf fuel depth)
      (PeekCursor.skipNextItemAtDepth left)
  container : ∀ {n depth left : Nat} (ai : Nat) (isMap : Bool),
    depth + left = peekMaxDepth + 1 → 3 * n + 3 ≤ fuel →
    Sound buf n depth 0 (skipArrayOrMap buf fuel ai isMap depth) (containerStep left ai isMap)
  untilBreak : ∀ {n depth left m : Nat} (isMap : Bool),
    depth + left = peekMaxDepth + 1 → 3 * n + 2 ≤ fuel → n + 1 ≤ m →
    Sound buf n depth 0 (skipUntilBreak buf fuel isMap depth)
      (PeekCursor.skipUntilBreak (PeekCursor.skipNextItemAtDepth left) isMap m)
  items : ∀ {n depth left : Nat} (total : Nat),
    depth + left = peekMaxDepth + 1 → 3 * n + 2 ≤ fuel →
    Sound buf n depth 0 (skipItems buf fuel total depth)
      (PeekCursor.skipN (PeekCursor.skipNextItemAtDepth left) total)

namespace Suffices

variable {buf : Slice} {fuel n depth left : Nat}

theorem item_succ (ih : Suffices buf fuel) (hdepth : depth + left = peekMaxDepth + 1)
    (hfuel : 3 * n + 1 ≤ fuel + 1) :
    Sound buf n depth 1 (skipNextItemAtDepth buf (fuel + 1) depth)
      (PeekCursor.skipNextItemAtDepth left) := by
  rw [skipNextItemAtDepth]
  refine sound_call (by omega) ?_
  cases left with
  | zero =>
    rw [if_pos (by omega)]
    exact .refuse nestingTooDeep
  | succ left =>
    have hwithin : depth ≤ peekMaxDepth := by omega
    have hadd : add 32 depth 1 = pure (depth + 1) := by
      refine add_of_lt ?_
      unfold peekMaxDepth at hwithin
      omega
    rw [if_neg (by omega), skipNextItemAtDepth_succ, hadd]
    simp only [pure_bind]
    refine sound_enter hwithin (sound_readHeader.bind fun hbyte header => ?_)
    refine sound_skipBody (by omega) (fun ai isMap => ?_) ?_ header.1 header.2
    · exact ih.container ai isMap (by omega) (by omega)
    · exact (ih.item (by omega) (by omega)).mono (Nat.le_refl _) (Nat.le_refl _)
        (Nat.zero_le 1)

theorem untilBreak_succ (ih : Suffices buf fuel) {m : Nat} (isMap : Bool)
    (hdepth : depth + left = peekMaxDepth + 1) (hfuel : 3 * n + 2 ≤ fuel + 1)
    (hm : n + 1 ≤ m) :
    Sound buf n depth 0 (skipUntilBreak buf (fuel + 1) isMap depth)
      (PeekCursor.skipUntilBreak (PeekCursor.skipNextItemAtDepth left) isMap m) := by
  obtain ⟨m, rfl⟩ := Nat.exists_eq_add_one.mpr (show 0 < m by omega)
  rw [skipUntilBreak, PeekCursor.skipUntilBreak]
  refine sound_peekBreak_bind (fun s hs hpos => (follows_consumeByte hs hpos).mono
    (Nat.zero_le 1)) fun hleft => ?_
  refine (ih.item hdepth (by omega)).andThen fun _ => ?_
  have hrest : Sound buf (n - 1) depth 0 (skipUntilBreak buf fuel isMap depth)
      (PeekCursor.skipUntilBreak (PeekCursor.skipNextItemAtDepth left) isMap m) :=
    ih.untilBreak isMap hdepth (by omega) (by omega)
  cases isMap with
  | false => exact hrest
  | true =>
    refine (ih.item hdepth (by omega)).andThen fun _ => ?_
    exact hrest.mono (Nat.sub_le _ _) (Nat.le_refl _) (Nat.le_refl _)

theorem items_succ (ih : Suffices buf fuel) (total : Nat)
    (hdepth : depth + left = peekMaxDepth + 1) (hfuel : 3 * n + 2 ≤ fuel + 1) :
    Sound buf n depth 0 (skipItems buf (fuel + 1) total depth)
      (PeekCursor.skipN (PeekCursor.skipNextItemAtDepth left) total) := by
  rw [skipItems]
  cases total with
  | zero =>
    rw [if_pos rfl]
    exact .pure ()
  | succ total =>
    rw [if_neg (Nat.succ_ne_zero total)]
    have hitem : Sound buf n depth 1 _ _ := ih.item hdepth (by omega)
    refine (hitem.bind fun hbyte _ => ?_).mono (Nat.le_refl _) (Nat.le_refl _) (Nat.zero_le 1)
    exact ih.items total hdepth (by omega)

theorem container_succ (ih : Suffices buf fuel) (ai : Nat) (isMap : Bool)
    (hdepth : depth + left = peekMaxDepth + 1) (hfuel : 3 * n + 3 ≤ fuel + 1) :
    Sound buf n depth 0 (skipArrayOrMap buf (fuel + 1) ai isMap depth)
      (containerStep left ai isMap) := by
  rw [skipArrayOrMap]
  cases left with
  | zero =>
    rw [if_pos (by omega)]
    exact .refuse nestingTooDeep
  | succ left =>
    rw [if_neg (by omega)]
    refine (sound_countFromAi ai).andThen fun count => ?_
    obtain ⟨len, indef⟩ := count
    refine Sound.ite (fun _ => ?_) fun _ => ?_
    · intro s hs hleft hactive
      -- the step's own bound is by the bytes left where the loop starts
      exact ih.untilBreak (n := buf.length - s.pos) isMap hdepth (by omega) (Nat.le_refl _) s hs
        (by omega) hactive
    · unfold checkedMul
      by_cases hbig : 2 ^ 64 ≤ len * (if isMap then 2 else 1)
      · simp only [if_pos hbig]
        intro s hs _ _
        exact .refused hs
      · simp only [if_neg hbig, pure_bind]
        exact ih.items _ hdepth (by omega)

end Suffices

/-- By induction on the turns: each function asks those below it for one turn less. -/
theorem suffices_all (buf : Slice) (fuel : Nat) : Suffices buf fuel := by
  induction fuel with
  | zero =>
    -- no number of bytes is so small that no turn is asked for
    refine ⟨?_, ?_, ?_, ?_⟩ <;> intros <;> omega
  | succ fuel ih =>
    exact ⟨ih.item_succ, ih.container_succ, ih.untilBreak_succ, ih.items_succ⟩

/-! ## The entry loop

The loop over the map, which is where the walk starts.
-/

section

variable {buf : Slice} {n fuel : Nat}

theorem sound_skipNextItem (hfuel : 3 * n + 1 ≤ fuel) :
    Sound buf n 0 1 (skipNextItem buf fuel) PeekCursor.skipNextItem :=
  (suffices_all buf fuel).item rfl hfuel

theorem sound_skipAfterHeader (hfuel : 3 * n + 3 ≤ fuel) (mt ai : Nat) :
    Sound buf n 0 0 (skipAfterHeader buf fuel mt ai) (PeekCursor.skipAfterHeader mt ai) := by
  refine sound_skipBody (by omega) (fun ai isMap => ?_) ?_ mt ai
  · have hcontainer : Sound buf n 1 0 (skipArrayOrMap buf fuel ai isMap 1)
        (containerStep peekMaxDepth ai isMap) :=
      (suffices_all buf fuel).container ai isMap rfl hfuel
    exact hcontainer.mono (Nat.le_refl n) (Nat.zero_le 1) (Nat.le_refl 0)
  · exact (sound_skipNextItem (by omega)).mono (Nat.le_refl n) (Nat.le_refl 0) (Nat.zero_le 1)

theorem sound_readIssuer : Sound buf n 0 0 (readIssuer buf) Cat.readIssuer := by
  refine sound_readHeader.andThen fun header => ?_
  refine Sound.ite (fun _ => ?_) fun _ => ?_
  · exact .refuse _
  · refine (sound_lengthFromAi header.2).andThen fun length => ?_
    refine (sound_readBytes length).andThen fun bytes => ?_
    cases Cbor.ofUtf8? bytes with
    | some iss => exact .pure iss
    | none => exact .refuse _

theorem sound_matchesAiAsI64 (ai : Nat) :
    Sound buf n 0 0 (matchesAiAsI64 buf ai) (Cat.matchesAiAsI64 ai) :=
  (sound_lengthFromAi ai).andThen fun _ => .ite (fun _ => .pure _) fun _ => .pure _

theorem sound_skipEntry (hfuel : 3 * n + 3 ≤ fuel) (kmt kai : Nat) :
    Sound buf n 0 0 (skipEntry buf fuel kmt kai)
      (do PeekCursor.skipAfterHeader kmt kai; PeekCursor.skipNextItem; return none) :=
  (sound_skipAfterHeader hfuel kmt kai).andThen fun _ =>
    (sound_skipNextItem (by omega)).andThen fun _ => .pure none

/-- A turn takes at least the key's initial byte. -/
theorem sound_peekEntry (hfuel : 3 * n ≤ fuel) :
    Sound buf n 0 1 (peekEntry buf fuel) Cat.peekEntry := by
  refine sound_readHeader.bind fun hbyte header => ?_
  have hskip : Sound buf (n - 1) 0 0 (skipEntry buf fuel header.1 header.2) _ :=
    sound_skipEntry (by omega) header.1 header.2
  refine Sound.ite (fun _ => ?_) fun _ => hskip
  refine (sound_matchesAiAsI64 header.2).andThen fun key => ?_
  refine Sound.ite (fun _ => ?_) fun _ => hskip
  exact sound_readIssuer.andThen fun iss => .pure (some iss)

/-- A turn that finds no issuer goes on with what is left after it. -/
theorem sound_turn {rest : Walk (Option String)} {rest' : Peek (Option String)}
    (hfuel : 3 * n ≤ fuel) (hrest : 1 ≤ n → Sound buf (n - 1) 0 0 rest rest') :
    Sound buf n 0 0
      (do match ← peekEntry buf fuel with | some iss => return some iss | none => rest)
      (do match ← Cat.peekEntry with | some iss => return some iss | none => rest') := by
  refine (sound_peekEntry hfuel |>.bind fun hbyte found => ?_).mono (Nat.le_refl n)
    (Nat.le_refl 0) (Nat.zero_le 1)
  cases found with
  | some iss => exact .pure (some iss)
  | none => exact hrest hbyte

/-- The counter `i` runs up to the announced count or the cap, whichever is less. -/
theorem sound_peekEntries {len i : Nat} (indef : Bool) (hfuel : 3 * n + 1 ≤ fuel) :
    Sound buf n 0 0 (peekEntries buf len indef fuel i)
      (Cat.peekEntries indef (min len peekMaxMapEntries - i)) := by
  induction fuel generalizing n i with
  | zero => omega
  | succ fuel ih =>
    rw [peekEntries]
    by_cases hlen : indef = false ∧ i ≥ len
    · rw [if_pos hlen, show min len peekMaxMapEntries - i = 0 by omega]
      exact .pure none
    · rw [if_neg hlen]
      by_cases hcap : i ≥ min len peekMaxMapEntries
      · rw [if_pos hcap, show min len peekMaxMapEntries - i = 0 by omega]
        exact .pure none
      · rw [if_neg hcap, show min len peekMaxMapEntries - i
          = min len peekMaxMapEntries - (i + 1) + 1 by omega, Cat.peekEntries]
        have hadd : add 64 i 1 = pure (i + 1) := by
          refine add_of_lt ?_
          unfold peekMaxMapEntries at hcap
          omega
        simp only [hadd, pure_bind]
        have hfuel' : 3 * n ≤ fuel := by omega
        have hturn : Sound buf n 0 0 _ _ :=
          sound_turn hfuel' fun hbyte => ih (i := i + 1) (n := n - 1) (by omega)
        cases indef with
        | true =>
          refine sound_peekBreak_bind (fun s hs hpos => ?_) fun _ => hturn
          exact ((follows_consumeByte hs hpos).mono (Nat.zero_le 1)).bind
            fun _ s' hs' _ _ => .took hs' (Nat.le_refl _) rfl
        | false => exact hturn

theorem sound_peekMap (hfuel : 3 * n + 1 ≤ fuel) :
    Sound buf n 0 0 (peekMap buf fuel) Cat.peekMap := by
  refine sound_readHeader.andThen fun header => ?_
  refine Sound.ite (fun _ => .refuse _) fun _ => ?_
  refine (sound_countFromAi header.2).andThen fun count => ?_
  exact sound_peekEntries count.2 (by omega)

end

/-- On any bytes, with three turns a byte and one more, `peek_issuer` returns: with the value
    of the model that cannot fail, or with the error the code gives there. Nothing panics,
    and whatever was read, moved to or called on the way was within bounds. -/
theorem peekIssuer_bounded (cborPayload : Slice) (fuel : Nat)
    (hfuel : 3 * cborPayload.length + 1 ≤ fuel) :
    (peekIssuer cborPayload fuel).1
        = (Cat.peekIssuer cborPayload.bytes).mapError PeekHalt.refused ∧
      (peekIssuer cborPayload fuel).2.pos ≤ cborPayload.length ∧
      ∀ e ∈ (peekIssuer cborPayload fuel).2.trace, e.Within cborPayload.length := by
  have hstart : Safe cborPayload ⟨0, 0, []⟩ := ⟨Nat.zero_le _, by simp⟩
  have hrun : Follows cborPayload ⟨0, 0, []⟩ 0 (peekMap cborPayload fuel ⟨0, 0, []⟩)
      (Cat.peekMap (.new cborPayload.bytes)) :=
    sound_peekMap hfuel ⟨0, 0, []⟩ hstart (by simp) (Nat.le_refl 0)
  unfold peekIssuer Cat.peekIssuer
  generalize peekMap cborPayload fuel ⟨0, 0, []⟩ = out at hrun ⊢
  generalize Cat.peekMap (.new cborPayload.bytes) = res at hrun ⊢
  cases hrun with
  | took hs _ _ => exact ⟨rfl, hs.pos_le, hs.within⟩
  | refused hs => exact ⟨rfl, hs.pos_le, hs.within⟩

/-- A map whose one value is an array that declares `2 ^ 64 - 1` items and ends there. -/
def overstated : Slice :=
  ⟨[0xa1, 0x02, 0x9b, 0xff, 0xff, 0xff, 0xff, 0xff, 0xff, 0xff, 0xff], by decide⟩

theorem peekIssuer_overstated :
    (peekIssuer overstated 34).1 = .error (.refused truncated) ∧
      ∀ e ∈ (peekIssuer overstated 34).2.trace, e.Within 11 :=
  have hbounded := peekIssuer_bounded overstated 34 (by decide)
  ⟨hbounded.1.trans (by decide), hbounded.2.2⟩

end PeekWalk

end Cat
