import Cat.Error
import Cat.Lib.Lists

/-!
# URIs

Normalization and decomposition of a request URI. Userinfo, fragments and non-ASCII characters
are refused; what remains is rewritten to one spelling per resource (case, default port, dot
segments, percent-encoding) and cut into components.

The source keeps the normalized string and a byte range per component. Here a component is its
characters: the ranges are made by cutting, and a cut is the same text.

Normalization works on the text as a whole, in passes, and decomposition cuts the text that
results by looking for delimiters again. Neither is a parser of the generic syntax, and they
need not see the same delimiters: what was one piece when it was rewritten may be another one
when it is cut. The model keeps both as they are, and the modules under `Uri` say when it makes
a difference.
-/

set_option autoImplicit false

namespace Cat

def uriComponentScheme : Int64 := 0
def uriComponentHost : Int64 := 1
def uriComponentPort : Int64 := 2
def uriComponentPath : Int64 := 3
def uriComponentQuery : Int64 := 4
def uriComponentParentPath : Int64 := 5
def uriComponentFilename : Int64 := 6
def uriComponentStem : Int64 := 7
def uriComponentExtension : Int64 := 8

structure UriComponents where
  scheme : List Char := []
  host : List Char
  port : List Char := []
  path : List Char
  query : List Char := []
  deriving DecidableEq

namespace UriComponents

def parentPathStr (u : UriComponents) : List Char :=
  match u.path.rsplitOnce '/' with
  | some (parent, _) => parent ++ ['/']
  | none => []

def filenameStr (u : UriComponents) : List Char :=
  match u.path.rsplitOnce '/' with
  | some (_, name) => name
  | none => u.path

def stemStr (u : UriComponents) : List Char :=
  match u.filenameStr.rsplitOnce '.' with
  | some (stem, _) => stem
  | none => u.filenameStr

def extensionStr (u : UriComponents) : List Char :=
  match u.filenameStr.rsplitOnce '.' with
  | some (_, ext) => ext
  | none => []

/-- The component a `catu` rule names; empty for a key that names none. -/
def component (u : UriComponents) (component : Int64) : List Char :=
  if component = uriComponentScheme then u.scheme
  else if component = uriComponentHost then u.host
  else if component = uriComponentPort then u.port
  else if component = uriComponentPath then u.path
  else if component = uriComponentQuery then u.query
  else if component = uriComponentParentPath then u.parentPathStr
  else if component = uriComponentFilename then u.filenameStr
  else if component = uriComponentStem then u.stemStr
  else if component = uriComponentExtension then u.extensionStr
  else []

end UriComponents

def isAscii (s : List Char) : Bool := s.all fun c => c.toNat < 128

def toAsciiLowercase (s : List Char) : List Char := s.map Char.toLower

def eqIgnoreAsciiCase (a b : List Char) : Bool := toAsciiLowercase a == toAsciiLowercase b

def ensureAscii (uri : List Char) : Except CatError Unit :=
  if isAscii uri then .ok ()
  else .error (.invalidClaimValue
    "URI contains raw non-ASCII bytes; per RFC 3986 non-ASCII must be percent-encoded")

def ensureNoFragment (uri : List Char) : Except CatError Unit :=
  if uri.contains '#' then
    .error (.invalidClaimValue "URI fragments are not permitted in this profile")
  else .ok ()

def ensureNoUserinfo (authority : List Char) : Except CatError Unit :=
  if authority.contains '@' then
    .error (.invalidClaimValue "URI userinfo is not permitted in this profile")
  else .ok ()

/-- The authority ends at the first `/`, or without one at the first `?`. -/
def splitAuthority (rest : List Char) : List Char × List Char :=
  match rest.splitOnce '/' with
  | some (authority, path) => (authority, '/' :: path)
  | none =>
    match rest.splitOnce '?' with
    | some (authority, query) => (authority, '?' :: query)
    | none => (rest, [])

/-! ## Parsing -/

/-- Host and port of an authority: the port is what follows the last colon, or a bracketed
    literal and a colon, if it is all digits. -/
def parseHostPort (authority : List Char) : List Char × List Char :=
  if ['['].isPrefixOf authority then
    match authority.splitOnce ']' with
    | some (literal, after) =>
      match after with
      | ':' :: portStr =>
        if !portStr.isEmpty && portStr.all Char.isDigit then (literal ++ [']'], portStr)
        else (literal ++ [']'], [])
      | _ => (literal ++ [']'], [])
    | none => (authority, [])
  else
    match authority.rsplitOnce ':' with
    | some (host, potentialPort) =>
      if potentialPort.all Char.isDigit && !potentialPort.isEmpty then (host, potentialPort)
      else (authority, [])
    | none => (authority, [])

/-- The reader of what is normalized. It checks everything once more. -/
def parseUri (uri : List Char) : Except CatError UriComponents := do
  ensureAscii uri
  ensureNoFragment uri
  let (scheme, rest) := (uri.splitOnceAt "://".toList).getD ([], uri)
  let (authority, pathAndQuery) := splitAuthority rest
  ensureNoUserinfo authority
  let (host, port) := parseHostPort authority
  let (path, query) := (pathAndQuery.splitOnce '?').getD (pathAndQuery, [])
  return { scheme, host, port, path, query }

/-! ## Normalization -/

/-- Dot segments removed, `..` taking the segment before it along. -/
def removeDotSegments (path : List Char) : List Char :=
  let output := (path.splitOn '/').foldl (fun (output : List (List Char)) segment =>
    if segment = ['.'] then output
    else if segment = ['.', '.'] then output.dropLast
    else output ++ [segment]) []
  let result := ['/'].intercalate output
  let result :=
    if !(List.isPrefixOf ['/'] result) && ['/'].isPrefixOf path then '/' :: result else result
  if ("/.".toList.isSuffixOf path || "/..".toList.isSuffixOf path) &&
      !(List.isSuffixOf ['/'] result) then result ++ ['/'] else result

def hexVal (c : Char) : Option Nat :=
  if '0' ≤ c ∧ c ≤ '9' then some (c.toNat - '0'.toNat)
  else if 'a' ≤ c ∧ c ≤ 'f' then some (c.toNat - 'a'.toNat + 10)
  else if 'A' ≤ c ∧ c ≤ 'F' then some (c.toNat - 'A'.toNat + 10)
  else none

def toUpperHex (nibble : Nat) : Char :=
  if nibble < 10 then Char.ofNat ('0'.toNat + nibble) else Char.ofNat ('A'.toNat + nibble - 10)

def isUnreserved (c : Char) : Bool :=
  c.isAlphanum || c == '-' || c == '.' || c == '_' || c == '~'

/-- A triplet that encodes an unreserved character is decoded, any other gets upper-case
    digits, and a `%` that starts no triplet is itself encoded. -/
def normalizePercentEncoding : List Char → List Char
  | '%' :: hi :: lo :: rest =>
    match hexVal hi, hexVal lo with
    | some h, some l =>
      let decoded := Char.ofNat (h * 16 + l)
      if isUnreserved decoded then decoded :: normalizePercentEncoding rest
      else '%' :: toUpperHex h :: toUpperHex l :: normalizePercentEncoding rest
    | _, _ => '%' :: '2' :: '5' :: normalizePercentEncoding (hi :: lo :: rest)
  | '%' :: rest => '%' :: '2' :: '5' :: normalizePercentEncoding rest
  | c :: rest => c :: normalizePercentEncoding rest
  | [] => []

/-- The zone identifier of a bracketed literal keeps its case. -/
def lowercaseHost (host : List Char) : List Char :=
  if ['['].isPrefixOf host && [']'].isSuffixOf host then
    match host.splitOnceAt "%25".toList with
    | some (address, zone) => toAsciiLowercase address ++ "%25".toList ++ zone
    | none => toAsciiLowercase host
  else toAsciiLowercase host

/-- Host and port of an authority, whatever the port is made of. -/
def normalizeHostPort (authority : List Char) : List Char × List Char :=
  match if ['['].isPrefixOf authority then authority.splitOnce ']' else none with
  | some (literal, after) =>
    (literal ++ [']'], match after with
      | ':' :: port => port
      | _ => [])
  | none => (authority.rsplitOnce ':').getD (authority, [])

/-- By the text written so far, which begins with the scheme. -/
def defaultPort (result : List Char) : List Char :=
  if "http://".toList.isPrefixOf result then "80".toList
  else if "https://".toList.isPrefixOf result then "443".toList
  else []

/-- Scheme and host in small letters, a default port dropped, dot segments removed, and then
    triplets decoded where they spell an unreserved character. The order of the last two matters. -/
def normalizeUri (uri : List Char) : Except CatError (List Char) := do
  ensureAscii uri
  ensureNoFragment uri
  let (result, rest) := match uri.splitOnceAt "://".toList with
    | some (scheme, rest) => (toAsciiLowercase scheme ++ "://".toList, rest)
    | none => ([], uri)
  let (authority, pathAndQuery) := splitAuthority rest
  ensureNoUserinfo authority
  let (hostPart, portPart) := normalizeHostPort authority
  let result := result ++ lowercaseHost hostPart
  let result :=
    if !portPart.isEmpty && portPart != defaultPort result then result ++ ':' :: portPart
    else result
  let (path, query) := match pathAndQuery.splitOnce '?' with
    | some (path, query) => (path, '?' :: query)
    | none => (pathAndQuery, [])
  let path := if path.isEmpty then ['/'] else path
  return result ++ normalizePercentEncoding (removeDotSegments path) ++ query

/-- The components of the normalized text. -/
def decomposeUri (uri : String) : Except CatError UriComponents := do
  let normalized ← normalizeUri uri.toList
  parseUri normalized

/-- The default port, the case of the host, a dot segment and two percent triplets. -/
example : decomposeUri "HTTPS://A.example:443/x/../%61%2f?q=1" =
    .ok { scheme := "https".toList, host := "a.example".toList, path := "/a%2F".toList,
          query := "q=1".toList } := by
  decide +kernel

end Cat
