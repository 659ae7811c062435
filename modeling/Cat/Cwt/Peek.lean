import Cat.Claims

/-!
# Peeking at the issuer

`peek_issuer` finds the `iss` claim of a payload before its signature is checked, so that a key
can be selected. It does not decode: a byte cursor steps over the map's entries, and everything
but a text under label 1 is skipped unread. The cursor and its skips are modelled position by
position, since what they get wrong, if anything, is a position.

`skip_next_item_at_depth` and `skip_array_or_map` recurse on what is left of `PEEK_MAX_DEPTH`:
with `left` levels to go the depth is `PEEK_MAX_DEPTH + 1 - left`. Loops up to a stop code are
bounded by the bytes left, of which every turn takes one.

What is read here is not yet trusted and decides only which key is tried. It has to be the
issuer that decoding finds all the same: with the key of one issuer a token of another one must
not verify as its own. Whether it is, is the subject of `PeekSpec` and `PeekEncoded`; that the
walk stays inside the buffer, of `PeekBounds`.
-/

set_option autoImplicit false

namespace Cat

open Cbor (Bytes)

def peekMaxMapEntries : Nat := 128
def peekMaxDepth : Nat := 16

/-- A position in bytes that nobody has verified. -/
structure PeekCursor where
  buf : Bytes
  pos : Nat
  deriving DecidableEq

/-- A step of the cursor: it may fail, and it moves the cursor. -/
abbrev Peek := StateT PeekCursor (Except CatError)

namespace PeekCursor

def new (buf : Bytes) : PeekCursor := ⟨buf, 0⟩

def truncated : CatError := .invalidCbor "truncated"
def nestingTooDeep : CatError := .invalidCbor "peek nesting too deep"

def readU8 : Peek UInt8 := fun c =>
  match c.buf[c.pos]? with
  | none => .error truncated
  | some b => .ok (b, { c with pos := c.pos + 1 })

/-- The sum is checked for overflow before it is compared with the end. -/
def readBytes (n : Nat) : Peek Bytes := fun c =>
  let stop := c.pos + n
  if 2 ^ 64 ≤ stop then .error (.invalidCbor "length overflow")
  else if stop > c.buf.length then .error truncated
  else .ok ((c.buf.drop c.pos).take n, { c with pos := stop })

def consumeByte : Peek Unit := fun c => .ok ((), { c with pos := c.pos + 1 })

def peekBreak : Peek Bool := fun c =>
  match c.buf[c.pos]? with
  | none => .error truncated
  | some b => .ok (b == 0xff, c)

/-- Major type and additional information of the next byte. -/
def readHeader : Peek (Nat × Nat) := do
  let b ← readU8
  return ((b >>> 5).toNat, (b &&& 0x1f).toNat)

/-- `n` bytes, most significant first, shifted into `acc`. -/
def readWord : Nat → Nat → Peek Nat
  | 0, acc => return acc
  | n + 1, acc => do
    let b ← readU8
    readWord n (acc * 256 + b.toNat)

/-- The argument of a head, which need not be in its shortest form. -/
def lengthFromAi (ai : Nat) : Peek Nat :=
  if ai ≤ 23 then return ai
  else match ai with
    | 24 => readWord 1 0
    | 25 => readWord 2 0
    | 26 => readWord 4 0
    | 27 => readWord 8 0
    | _ => throw (.invalidCbor "unexpected indefinite length")

/-- The number of entries, and whether it is left open. -/
def countFromAi (ai : Nat) : Peek (Nat × Bool) :=
  if ai = 31 then return (0, true)
  else do return (← lengthFromAi ai, false)

/-- The chunks of an indefinite-length string, either major type mixed. -/
def skipChunks : Nat → Peek Unit
  | 0 => throw truncated
  | fuel + 1 => do
    if ← peekBreak then consumeByte
    else
      let (mt, ai) ← readHeader
      if mt ≠ 2 ∧ mt ≠ 3 then throw (.invalidCbor "indefinite chunk wrong type")
      let n ← lengthFromAi ai
      let _ ← readBytes n
      skipChunks fuel

def skipIndefiniteString : Peek Unit := fun c => skipChunks (c.buf.length - c.pos + 1) c

/-- `n` items. -/
def skipN (item : Peek Unit) : Nat → Peek Unit
  | 0 => return
  | n + 1 => do
    item
    skipN item n

/-- Items, or pairs of items, up to the stop code. -/
def skipUntilBreak (item : Peek Unit) (isMap : Bool) : Nat → Peek Unit
  | 0 => throw truncated
  | fuel + 1 => do
    if ← peekBreak then consumeByte
    else
      item
      if isMap then item
      skipUntilBreak item isMap fuel

/-- `skip_array_or_map`, given how to skip an item at its depth. -/
def skipContainer (item : Peek Unit) (ai : Nat) (isMap : Bool) : Peek Unit := do
  let (len, indef) ← countFromAi ai
  if indef then fun c => skipUntilBreak item isMap (c.buf.length - c.pos + 1) c
  else
    let total := len * (if isMap then 2 else 1)
    if 2 ^ 64 ≤ total then throw (.invalidCbor "map length overflow")
    skipN item total

/-- Simple values and floats: what follows the head is skipped and not looked at. -/
def skipSimple (ai : Nat) : Peek Unit :=
  if ai ≤ 23 then return
  else match ai with
    | 24 => do let _ ← readU8
    | 25 => do let _ ← readBytes 2
    | 26 => do let _ ← readBytes 4
    | 27 => do let _ ← readBytes 8
    | _ => throw (.invalidCbor "unexpected simple/float")

/-- The rest of a string item. -/
def skipString (ai : Nat) : Peek Unit :=
  if ai = 31 then skipIndefiniteString
  else do
    let n ← lengthFromAi ai
    let _ ← readBytes n

/-- The part of an item after its initial byte, given how to skip a container and the
    content of a tag. -/
def skipBody (container : Nat → Bool → Peek Unit) (tagged : Peek Unit) (mt ai : Nat) :
    Peek Unit :=
  match mt with
  | 0 | 1 => do let _ ← lengthFromAi ai
  | 2 | 3 => skipString ai
  | 4 => container ai false
  | 5 => container ai true
  | 6 => do
    let _ ← lengthFromAi ai
    tagged
  | 7 => skipSimple ai
  | _ => throw (.invalidCbor "unknown major type")

/-- `skip_next_item_at_depth (PEEK_MAX_DEPTH + 1 - left)`. -/
def skipNextItemAtDepth : Nat → Peek Unit
  | 0 => throw nestingTooDeep
  | left + 1 => do
    let (mt, ai) ← readHeader
    -- `skip_array_or_map` checks the depth before it reads the count
    let container := fun ai isMap =>
      match left with
      | 0 => throw nestingTooDeep
      | left + 1 => skipContainer (skipNextItemAtDepth (left + 1)) ai isMap
    skipBody container (skipNextItemAtDepth left) mt ai

def skipNextItem : Peek Unit := skipNextItemAtDepth (peekMaxDepth + 1)

def skipAfterHeader (mt ai : Nat) : Peek Unit :=
  skipBody (skipContainer (skipNextItemAtDepth peekMaxDepth)) skipNextItem mt ai

end PeekCursor

open PeekCursor

/-- The argument of an integer head, as an `i64`. It is *consumed*. -/
def matchesAiAsI64 (ai : Nat) : Peek (Option Int64) := do
  let n ← lengthFromAi ai
  if n > 2 ^ 63 - 1 then return none
  else return some (Int64.ofInt n)

/-- The value under the issuer label, which must be definite-length text. -/
def readIssuer : Peek String := do
  let (vmt, vai) ← readHeader
  if vmt ≠ 3 then throw (.malformed "iss" "iss must be a text string")
  let n ← lengthFromAi vai
  let bytes ← readBytes n
  match Cbor.ofUtf8? bytes with
  | some s => return s
  | none => throw (.malformed "iss" "iss is not valid UTF-8")

/-- One turn of the entry loop: the issuer, or nothing after stepping over an entry. -/
def peekEntry : Peek (Option String) := do
  let (kmt, kai) ← readHeader
  if kmt = 0 then
    if (← matchesAiAsI64 kai) = some claimIss then return some (← readIssuer)
  skipAfterHeader kmt kai
  skipNextItem
  return none

/-- Whether the loop is at the stop code; a definite length does not look for one. -/
def atStop (indef : Bool) : Peek Bool :=
  if indef then peekBreak else return false

/-- The entry loop, with `n` turns left before the announced count or the entry cap. -/
def peekEntries (indef : Bool) : Nat → Peek (Option String)
  | 0 => return none
  | n + 1 => do
    if ← atStop indef then
      consumeByte
      return none
    match ← peekEntry with
    | some iss => return some iss
    | none => peekEntries indef n

/-- At most `peekMaxMapEntries` entries are looked at. What is further back is taken for absent. -/
def peekMap : Peek (Option String) := do
  let (mt, ai) ← readHeader
  if mt ≠ 5 then throw .invalidTokenFormat
  let (len, indef) ← countFromAi ai
  -- an indefinite length counts as zero entries, so the cap stops the loop at once
  peekEntries indef (min len peekMaxMapEntries)

/-- The `iss` claim of an undecoded payload. -/
def peekIssuer (cborPayload : Bytes) : Except CatError (Option String) :=
  (peekMap (.new cborPayload)).map Prod.fst

end Cat
