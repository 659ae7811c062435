import Cat.Cwt.Peek

/-!
# The cursor with its faults

`Cwt.Peek` writes the cursor's steps as functions that cannot go wrong: a read outside the
buffer has no value there, a sum has no width, and a loop is cut off at the bytes that are left.
The same code is written here with what can go wrong left in. Indexing and slicing panic outside
the buffer, a sum panics when it leaves its type, and a call may need more turns than it is
given; `PeekHalt` keeps these apart from the errors the code returns.

A walk also writes down what it does: which bytes it reads, where it moves, and how many calls
of `skip_next_item_at_depth` are open at each call. `usize` has 64 bits, so `as usize` changes
nothing.

Two models of one piece of code are a risk, and `PeekBounds` is what keeps them together: every
walk is shown to be the step of the other model, with its record. What the code returns is then
studied on the simple model, and how it gets there on this one.
-/

set_option autoImplicit false

namespace Cat

open Cbor (Bytes)

/-- `&[u8]`, which is never longer than `isize::MAX`. -/
structure Slice where
  bytes : Bytes
  length_lt : bytes.length < 2 ^ 63

namespace Slice

def length (buf : Slice) : Nat := buf.bytes.length

end Slice

/-- Why a walk stopped. -/
inductive PeekHalt
  /-- The code returned `Err`. -/
  | refused (e : CatError)
  | panicked
  /-- The turns it was given did not suffice. -/
  | outOfFuel
  deriving DecidableEq

inductive PeekEvent
  /-- The bytes from `lo` up to `hi` were read. -/
  | read (lo hi : Nat)
  | moved (source target : Nat)
  /-- `skip_next_item_at_depth` was called, as the `active`-th open call. -/
  | called (depth active : Nat)
  /-- The call got past its depth check. -/
  | entered (depth active : Nat)
  deriving DecidableEq

/-- Reads and moves stay in the buffer, moves go forward, and calls stay within the limit:
    one call past it is made, and turned away before it reads anything. -/
def PeekEvent.Within (length : Nat) : PeekEvent → Prop
  | read lo hi => lo ≤ hi ∧ hi ≤ length
  | moved source target => source ≤ target ∧ target ≤ length
  | called depth active => depth ≤ peekMaxDepth + 1 ∧ active ≤ peekMaxDepth + 2
  | entered depth active => depth ≤ peekMaxDepth ∧ active ≤ peekMaxDepth + 1

instance (length : Nat) : DecidablePred (PeekEvent.Within length) := fun e =>
  match e with
  | .read _ _ => inferInstanceAs (Decidable (_ ∧ _))
  | .moved _ _ => inferInstanceAs (Decidable (_ ∧ _))
  | .called _ _ => inferInstanceAs (Decidable (_ ∧ _))
  | .entered _ _ => inferInstanceAs (Decidable (_ ∧ _))

/-- The cursor's position, the open calls of `skip_next_item_at_depth`, and what happened
    so far, the latest first. -/
structure PeekState where
  pos : Nat
  active : Nat
  trace : List PeekEvent
  deriving DecidableEq

/-- The state in which a call of `skip_next_item_at_depth` starts. -/
def PeekState.opened (s : PeekState) (depth : Nat) : PeekState :=
  { s with active := s.active + 1, trace := .called depth (s.active + 1) :: s.trace }

abbrev Walk := ExceptT PeekHalt (StateM PeekState)

namespace PeekWalk

open PeekCursor (truncated nestingTooDeep)

def refuse {α : Type} (e : CatError) : Walk α := throw (.refused e)

def getPos : Walk Nat := fun s => (.ok s.pos, s)

/-- `self.pos = target`. -/
def setPos (target : Nat) : Walk Unit := fun s =>
  (.ok (), { s with pos := target, trace := .moved s.pos target :: s.trace })

/-- `buf[i]`. -/
def index (buf : Slice) (i : Nat) : Walk UInt8 := fun s =>
  match buf.bytes[i]? with
  | some b => (.ok b, { s with trace := .read i (i + 1) :: s.trace })
  | none => (.error .panicked, { s with trace := .read i (i + 1) :: s.trace })

/-- `&buf[lo..hi]`. -/
def range (buf : Slice) (lo hi : Nat) : Walk Bytes := fun s =>
  if lo ≤ hi ∧ hi ≤ buf.length then
    (.ok ((buf.bytes.drop lo).take (hi - lo)), { s with trace := .read lo hi :: s.trace })
  else (.error .panicked, { s with trace := .read lo hi :: s.trace })

/-- `a + b` where both are unsigned of `width` bits. -/
def add (width a b : Nat) : Walk Nat :=
  if a + b < 2 ^ width then return a + b else throw .panicked

/-- `(acc << 8) | b` in 64 bits, which drops what is shifted out. -/
def shiftIn (acc : Nat) (b : UInt8) : Nat := (acc <<< 8) % 2 ^ 64 ||| b.toNat

section

variable (buf : Slice)

def readU8 : Walk UInt8 := do
  let pos ← getPos
  if pos ≥ buf.length then refuse truncated
  else
    let b ← index buf pos
    setPos (← add 64 pos 1)
    return b

def readBytes (n : Nat) : Walk Bytes := do
  let pos ← getPos
  let stop := pos + n
  -- `checked_add`
  if 2 ^ 64 ≤ stop then refuse (.invalidCbor "length overflow")
  else if stop > buf.length then refuse truncated
  else
    let out ← range buf pos stop
    setPos stop
    return out

/-- The sum saturates, so it cannot panic. -/
def consumeByte : Walk Unit := do
  let pos ← getPos
  setPos (min (pos + 1) (2 ^ 64 - 1))

def peekBreak : Walk Bool := do
  let pos ← getPos
  if pos ≥ buf.length then refuse truncated
  else return (← index buf pos) == 0xff

def readHeader : Walk (Nat × Nat) := do
  let b ← readU8 buf
  return ((b >>> 5).toNat, (b &&& 0x1f).toNat)

def readWord : Nat → Nat → Walk Nat
  | 0, acc => return acc
  | n + 1, acc => do
    let b ← readU8 buf
    readWord n (shiftIn acc b)

def lengthFromAi (ai : Nat) : Walk Nat :=
  if ai ≤ 23 then return ai
  else match ai with
    | 24 => readWord buf 1 0
    | 25 => readWord buf 2 0
    | 26 => readWord buf 4 0
    | 27 => readWord buf 8 0
    | _ => refuse (.invalidCbor "unexpected indefinite length")

def countFromAi (ai : Nat) : Walk (Nat × Bool) :=
  if ai = 31 then return (0, true)
  else do return (← lengthFromAi buf ai, false)

/-- The loop of `skip_indefinite_string`. -/
def skipIndefiniteString : Nat → Walk Unit
  | 0 => throw .outOfFuel
  | fuel + 1 => do
    if ← peekBreak buf then consumeByte
    else
      let (mt, ai) ← readHeader buf
      if mt ≠ 2 ∧ mt ≠ 3 then refuse (.invalidCbor "indefinite chunk wrong type")
      else
        let n ← lengthFromAi buf ai
        let _ ← readBytes buf n
        skipIndefiniteString fuel

def skipSimple (ai : Nat) : Walk Unit :=
  if ai ≤ 23 then return
  else match ai with
    | 24 => do let _ ← readU8 buf
    | 25 => do let _ ← readBytes buf 2
    | 26 => do let _ ← readBytes buf 4
    | 27 => do let _ ← readBytes buf 8
    | _ => refuse (.invalidCbor "unexpected simple/float")

def skipString (fuel ai : Nat) : Walk Unit :=
  if ai = 31 then skipIndefiniteString buf fuel
  else do
    let n ← lengthFromAi buf ai
    let _ ← readBytes buf n

/-- The match of `skip_after_header` and of `skip_next_item_at_depth`, which differ in the
    depth they pass on. -/
def skipBody (fuel : Nat) (container : Nat → Bool → Walk Unit) (tagged : Walk Unit)
    (mt ai : Nat) : Walk Unit :=
  match mt with
  | 0 | 1 => do let _ ← lengthFromAi buf ai
  | 2 | 3 => skipString buf fuel ai
  | 4 => container ai false
  | 5 => container ai true
  | 6 => do
    let _ ← lengthFromAi buf ai
    tagged
  | 7 => skipSimple buf ai
  | _ => refuse (.invalidCbor "unknown major type")

end

/-- `len.checked_mul(entries_per)`. -/
def checkedMul (len entriesPer : Nat) : Walk Nat :=
  if 2 ^ 64 ≤ len * entriesPer then refuse (.invalidCbor "map length overflow")
  else return len * entriesPer

/-- A call of `skip_next_item_at_depth`, open until `body` returns. -/
def call (depth : Nat) (body : Walk Unit) : Walk Unit := fun s =>
  let (out, s') := body (s.opened depth)
  (out, { s' with active := s.active })

def enter (depth : Nat) : Walk Unit := fun s =>
  (.ok (), { s with trace := .entered depth s.active :: s.trace })

mutual

def skipNextItemAtDepth (buf : Slice) : Nat → Nat → Walk Unit
  | 0, _ => throw .outOfFuel
  | fuel + 1, depth => call depth do
    if depth > peekMaxDepth then refuse nestingTooDeep
    else
      enter depth
      let (mt, ai) ← readHeader buf
      skipBody buf fuel
        (fun ai isMap => do skipArrayOrMap buf fuel ai isMap (← add 32 depth 1))
        (do skipNextItemAtDepth buf fuel (← add 32 depth 1)) mt ai

def skipArrayOrMap (buf : Slice) : Nat → Nat → Bool → Nat → Walk Unit
  | 0, _, _, _ => throw .outOfFuel
  | fuel + 1, ai, isMap, depth =>
    if depth > peekMaxDepth then refuse nestingTooDeep
    else do
      let (len, indef) ← countFromAi buf ai
      if indef then skipUntilBreak buf fuel isMap depth
      else
        let total ← checkedMul len (if isMap then 2 else 1)
        skipItems buf fuel total depth

/-- The loop of `skip_array_or_map` over an indefinite length. -/
def skipUntilBreak (buf : Slice) : Nat → Bool → Nat → Walk Unit
  | 0, _, _ => throw .outOfFuel
  | fuel + 1, isMap, depth => do
    if ← peekBreak buf then consumeByte
    else
      skipNextItemAtDepth buf fuel depth
      if isMap then skipNextItemAtDepth buf fuel depth
      skipUntilBreak buf fuel isMap depth

/-- The loop of `skip_array_or_map` over the `left` items of `0..total` still to come. -/
def skipItems (buf : Slice) : Nat → Nat → Nat → Walk Unit
  | 0, _, _ => throw .outOfFuel
  | fuel + 1, left, depth =>
    if left = 0 then return
    else do
      skipNextItemAtDepth buf fuel depth
      skipItems buf fuel (left - 1) depth

end

section

variable (buf : Slice)

def skipNextItem (fuel : Nat) : Walk Unit := skipNextItemAtDepth buf fuel 0

def skipAfterHeader (fuel mt ai : Nat) : Walk Unit :=
  skipBody buf fuel (fun ai isMap => skipArrayOrMap buf fuel ai isMap 1)
    (skipNextItem buf fuel) mt ai

def matchesAiAsI64 (ai : Nat) : Walk (Option Int64) := do
  let n ← lengthFromAi buf ai
  if n > 2 ^ 63 - 1 then return none
  else return some (Int64.ofInt n)

def readIssuer : Walk String := do
  let (vmt, vai) ← readHeader buf
  if vmt ≠ 3 then refuse (.malformed "iss" "iss must be a text string")
  else
    let n ← lengthFromAi buf vai
    let bytes ← readBytes buf n
    match Cbor.ofUtf8? bytes with
    | some s => return s
    | none => refuse (.malformed "iss" "iss is not valid UTF-8")

/-- The rest of a turn when the key is not the issuer's. -/
def skipEntry (fuel kmt kai : Nat) : Walk (Option String) := do
  skipAfterHeader buf fuel kmt kai
  skipNextItem buf fuel
  return none

def peekEntry (fuel : Nat) : Walk (Option String) := do
  let (kmt, kai) ← readHeader buf
  if kmt = 0 then
    let key ← matchesAiAsI64 buf kai
    if key = some claimIss then return some (← readIssuer buf)
    else skipEntry buf fuel kmt kai
  else skipEntry buf fuel kmt kai

def atStop (indef : Bool) : Walk Bool :=
  if indef then peekBreak buf else return false

/-- The loop of `peek_issuer` from its turn `i`. -/
def peekEntries (len : Nat) (indef : Bool) : Nat → Nat → Walk (Option String)
  | 0, _ => throw .outOfFuel
  | fuel + 1, i =>
    if indef = false ∧ i ≥ len then return none
    else if i ≥ min len peekMaxMapEntries then return none
    else do
      if ← atStop buf indef then
        consumeByte
        return none
      else
        match ← peekEntry buf fuel with
        | some iss => return some iss
        | none => peekEntries len indef fuel (← add 64 i 1)

def peekMap (fuel : Nat) : Walk (Option String) := do
  let (mt, ai) ← readHeader buf
  if mt ≠ 5 then refuse .invalidTokenFormat
  else
    let (len, indef) ← countFromAi buf ai
    peekEntries buf len indef fuel 0

end

/-- `peek_issuer`, with a bound on its loops and calls. -/
def peekIssuer (cborPayload : Slice) (fuel : Nat) :
    Except PeekHalt (Option String) × PeekState :=
  peekMap cborPayload fuel ⟨0, 0, []⟩

end PeekWalk

end Cat
