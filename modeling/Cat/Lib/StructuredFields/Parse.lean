import Cat.Lib.Lists

/-!
# Parsing structured fields

The values of HTTP headers that are lists and items, by the parsing algorithms of RFC 8941. What
decimals are read as, and the base64 of byte sequences, are left to whoever brings them
(`Leaves`).

Every parser takes the input and returns what it read with the input after it, as the algorithms
of the RFC do, one function for each of them and in their order. The loops have the length of
the input for fuel; that it is enough, and that what is left over is never more than what came
in, is in `Fuel`.

Dictionaries are not here. The types are over the type of decimals, so that the parser can be
run with decimals that are texts and used with decimals that are doubles.
-/

set_option autoImplicit false

namespace StructuredFields

/-! ## Values -/

inductive BareItem (δ : Type) where
  | integer (n : Int)
  | decimal (d : δ)
  | string (s : String)
  | token (t : String)
  | byteSeq (b : List UInt8)
  | boolean (b : Bool)
  deriving DecidableEq

abbrev Parameters (δ : Type) := List (String × BareItem δ)

structure Item (δ : Type) where
  bareItem : BareItem δ
  params : Parameters δ
  deriving DecidableEq

structure InnerList (δ : Type) where
  items : List (Item δ)
  params : Parameters δ
  deriving DecidableEq

inductive ListEntry (δ : Type) where
  | item (item : Item δ)
  | innerList (inner : InnerList δ)
  deriving DecidableEq

/-! ## Characters -/

def isPrintable (c : Char) : Bool := 0x20 ≤ c.toNat && c.toNat ≤ 0x7e

/-- A character of a token from the second one on. -/
def isTokenChar (c : Char) : Bool := c.isAlphanum || "!#$%&'*+-.^_`|~:/".toList.contains c

def isTokenStart (c : Char) : Bool := c.isAlpha || c == '*'

def isKeyChar (c : Char) : Bool := c.isLower || c.isDigit || "_-.*".toList.contains c

def isKeyStart (c : Char) : Bool := c.isLower || c == '*'

def isBase64Char (c : Char) : Bool := c.isAlphanum || "+/=".toList.contains c

def isOws (c : Char) : Bool := c == ' ' || c == '\t'

/-- A run of digits, not empty and not longer than this. -/
def isDigits (max : Nat) (cs : List Char) : Bool :=
  !cs.isEmpty && cs.length ≤ max && cs.all Char.isDigit

/-- A decimal as it is spelt. -/
structure DecimalLiteral where
  negative : Bool
  whole : List Char
  frac : List Char
  whole_digits : isDigits 12 whole = true
  frac_digits : isDigits 3 frac = true
  deriving DecidableEq

def DecimalLiteral.of? (negative : Bool) (whole frac : List Char) : Option DecimalLiteral :=
  if h : isDigits 12 whole = true ∧ isDigits 3 frac = true then
    some ⟨negative, whole, frac, h.1, h.2⟩
  else none

structure Leaves (δ : Type) where
  readDecimal : DecimalLiteral → δ
  showDecimal : δ → List Char
  encodeBase64 : List UInt8 → List Char
  decodeBase64 : List Char → Option (List UInt8)

/-! ## Bare items

Each parser returns what it has read and the input after it. -/

variable {δ : Type} (L : Leaves δ)

/-- A number after its sign. Without a point it is an integer. -/
def parseDigits (negative : Bool) (input : List Char) : Option (BareItem δ × List Char) :=
  let whole := input.takeWhile Char.isDigit
  match input.dropWhile Char.isDigit with
  | '.' :: rest =>
    (DecimalLiteral.of? negative whole (rest.takeWhile Char.isDigit)).map fun l =>
      (.decimal (L.readDecimal l), rest.dropWhile Char.isDigit)
  | rest =>
    if isDigits 15 whole then
      let n : Int := Nat.ofDigitChars 10 whole 0
      some (.integer (if negative then -n else n), rest)
    else none

/-- A string after its first quote. -/
def parseString : List Char → Option (List Char × List Char)
  | [] => none
  | c :: input =>
    if c = '"' then some ([], input)
    else if c = '\\' then
      match input with
      | [] => none
      | c' :: input =>
        if c' = '"' ∨ c' = '\\' then (parseString input).map fun p => (c' :: p.1, p.2) else none
    else if isPrintable c then (parseString input).map fun p => (c :: p.1, p.2)
    else none

/-- A byte sequence after its first colon. -/
def parseByteSeq (input : List Char) : Option (BareItem δ × List Char) :=
  match List.splitOnce ':' input with
  | none => none
  | some (content, rest) =>
    if content.all isBase64Char then (L.decodeBase64 content).map fun b => (.byteSeq b, rest)
    else none

/-- A boolean after its question mark. -/
def parseBoolean : List Char → Option (BareItem δ × List Char)
  | '1' :: rest => some (.boolean true, rest)
  | '0' :: rest => some (.boolean false, rest)
  | _ => none

def parseBareItem : List Char → Option (BareItem δ × List Char)
  | [] => none
  | c :: input =>
    if c = '-' then parseDigits L true input
    else if c.isDigit then parseDigits L false (c :: input)
    else if c = '"' then (parseString input).map fun p => (.string (String.ofList p.1), p.2)
    else if isTokenStart c then
      some (.token (String.ofList (c :: input.takeWhile isTokenChar)), input.dropWhile isTokenChar)
    else if c = ':' then parseByteSeq L input
    else if c = '?' then parseBoolean input
    else none

/-! ## Items -/

def parseKey : List Char → Option (String × List Char)
  | [] => none
  | c :: input =>
    if isKeyStart c then
      some (String.ofList (c :: input.takeWhile isKeyChar), input.dropWhile isKeyChar)
    else none

/-- A parameter that is there is overwritten, another one goes to the end. -/
def setParameter (params : Parameters δ) (key : String) (value : BareItem δ) : Parameters δ :=
  if params.any fun p => p.1 = key then
    params.map fun p => if p.1 = key then (key, value) else p
  else params ++ [(key, value)]

/-- A parameter after its semicolon. Without a value it is true. -/
def parseParameter (params : Parameters δ) (input : List Char) :
    Option (Parameters δ × List Char) := do
  let (key, rest) ← parseKey (input.dropWhile (· == ' '))
  match rest with
  | '=' :: rest =>
    let (value, rest) ← parseBareItem L rest
    return (setParameter params key value, rest)
  | rest => return (setParameter params key (.boolean true), rest)

/-- The loop over the parameters. A turn takes a character at least, so the length of the
    input is fuel enough. -/
def parseParameters : Nat → Parameters δ → List Char → Option (Parameters δ × List Char)
  | 0, _, ';' :: _ => none
  | fuel + 1, params, ';' :: input => do
    let (params, rest) ← parseParameter L params input
    parseParameters fuel params rest
  | _, params, input => some (params, input)

def parseItem (input : List Char) : Option (Item δ × List Char) := do
  let (bareItem, rest) ← parseBareItem L input
  let (params, rest) ← parseParameters L rest.length [] rest
  return (⟨bareItem, params⟩, rest)

/-! ## Lists -/

/-- The loop over the items of an inner list, after its parenthesis. -/
def parseInnerItems : Nat → List Char → Option (List (Item δ) × List Char)
  | 0, _ => none
  | fuel + 1, input =>
    match input.dropWhile (· == ' ') with
    | ')' :: rest => some ([], rest)
    | input => do
      let (item, rest) ← parseItem L input
      if rest.head? = some ' ' ∨ rest.head? = some ')' then
        let (items, rest) ← parseInnerItems fuel rest
        return (item :: items, rest)
      else none

/-- An item, or an inner list with the parameters after it. -/
def parseEntry : List Char → Option (ListEntry δ × List Char)
  | '(' :: input => do
    let (items, rest) ← parseInnerItems L (input.length + 1) input
    let (params, rest) ← parseParameters L rest.length [] rest
    return (.innerList ⟨items, params⟩, rest)
  | input => do
    let (item, rest) ← parseItem L input
    return (.item item, rest)

/-- The loop over the members of a list that is not empty. Nothing may follow a comma but
    another member. -/
def parseMembers : Nat → List Char → Option (List (ListEntry δ))
  | 0, _ => none
  | fuel + 1, input => do
    let (entry, rest) ← parseEntry L input
    match rest.dropWhile isOws with
    | [] => return [entry]
    | ',' :: rest =>
      let rest := rest.dropWhile isOws
      if rest = [] then none
      else
        let entries ← parseMembers fuel rest
        return entry :: entries
    | _ => none

def isAscii (input : List Char) : Bool := input.all fun c => c.toNat < 128

/-- A field that is an item. -/
def parseItemField (input : List Char) : Option (Item δ) :=
  if isAscii input then do
    let (item, rest) ← parseItem L (input.dropWhile (· == ' '))
    if rest.all (· == ' ') then return item else none
  else none

/-- A field that is a list. There may be nothing in it. -/
def parseListField (input : List Char) : Option (List (ListEntry δ)) :=
  if isAscii input then
    let input := input.dropWhile (· == ' ')
    if input = [] then some [] else parseMembers L input.length input
  else none

end StructuredFields
