import BurnLens.File.HostAddress
import BurnLens.File.System

/-! # File URIs

The URI of a file percent-escapes every octet of its path that is not an ASCII letter, a digit or
one of `_.-~/`. Reading a URI back takes only the `file` scheme; a text without any scheme is a path
as it stands. -/

namespace BurnLens

/-- Why a URI cannot be read. -/
inductive UriFault where
  /-- Brackets that do not stand around the whole host. -/
  | brackets
  /-- The host between brackets is no address. -/
  | notAddress (host : String)
  /-- The host between brackets is a dotted address. -/
  | dottedAddress
  /-- The host between brackets is marked as an address of a later version, and is not one. -/
  | laterAddress
  | ambiguousHost (host : String)
  deriving DecidableEq, Repr

def UriFault.message : UriFault → String
  | .brackets => "Invalid IPv6 URL"
  | .notAddress host => Text.quoted host ++ " does not appear to be an IPv4 or IPv6 address"
  | .dottedAddress => "An IPv4 address cannot be in brackets"
  | .laterAddress => "IPvFuture address is invalid"
  | .ambiguousHost host =>
    "netloc '" ++ host ++ "' contains invalid characters under NFKC normalization"

namespace Uri

open BurnLens.Text

/-! ### Writing -/

/-- Octets that stand for themselves. -/
def isPlain (b : UInt8) : Bool :=
  let c := Char.ofNat b.toNat
  b.toNat < 0x80 && (c.isAlphanum || "_.-~/".toList.contains c)

def upperHex (n : Nat) : Char :=
  if n < 10 then Char.ofNat (48 + n) else Char.ofNat (55 + n)

/-- One octet, escaped unless it is plain. -/
def escapeOctet (b : UInt8) : List Char :=
  if isPlain b then [Char.ofNat b.toNat]
  else ['%', upperHex (b.toNat / 16), upperHex (b.toNat % 16)]

def escape (cs : List Char) : List Char :=
  (Utf8.encode cs).flatMap escapeOctet

/-- The URI of a place. -/
def ofPlace (place : Place) : String :=
  "file://" ++ String.ofList (escape (Path.ofPlace place).toString.toList)

/-! ### Reading -/

/-- The octet that two hexadecimal digits stand for. -/
def octetOf? (a b : Char) : Option UInt8 := do
  return UInt8.ofNat (16 * (← hexValue? a) + (← hexValue? b))

/-- The octets of a text, escapes replaced by what they stand for. A percent sign without two
hexadecimal digits stands for itself. -/
def unescapeOctets : List Char → List UInt8
  | [] => []
  | '%' :: a :: b :: cs =>
    match octetOf? a b with
    | some o => o :: unescapeOctets cs
    | none => 0x25 :: unescapeOctets (a :: b :: cs)
  | c :: cs => Utf8.encodeCode c.toNat ++ unescapeOctets cs

def unescape (cs : List Char) : List Char :=
  Utf8.decodeLossy (unescapeOctets cs)

def isSchemeChar (c : Char) : Bool :=
  c.isAlphanum || "+-.".toList.contains c

/-- The scheme in lower case and what follows its colon. -/
def scheme? (cs : List Char) : Option (String × List Char) :=
  match cs.takeWhile (· != ':'), cs.dropWhile (· != ':') with
  | c :: name, _ :: rest =>
    if c.isAlpha && name.all isSchemeChar then
      some (lowerAscii (String.ofList (c :: name)), rest)
    else none
  | _, _ => none

/-- The server part, empty when there is none, and the rest. -/
def server (cs : List Char) : List Char × List Char :=
  let isInside (c : Char) : Bool := c != '/' && c != '?' && c != '#'
  match cs with
  | '/' :: '/' :: rest => (rest.takeWhile isInside, rest.dropWhile isInside)
  | _ => ([], cs)

/-- Characters that a compatibility normalisation would turn into a separator of a URI. -/
def isAmbiguous (c : Char) : Bool :=
  [0x2047, 0x2048, 0x2049, 0x2100, 0x2101, 0x2105, 0x2106, 0x2A74, 0xFE13, 0xFE16, 0xFE55, 0xFE56,
    0xFE5F, 0xFE6B, 0xFF03, 0xFF0F, 0xFF1A, 0xFF1F, 0xFF20].contains c.toNat

/-- The host of a server part that has brackets somewhere: what follows the last at sign, without
the brackets around it and without a colon and what follows that. -/
def bracketedHost (server : List Char) : Except UriFault (List Char) := do
  let last := (server.reverse.takeWhile (· != '@')).reverse
  match last.dropWhile (· != '[') with
  | [] => return last.takeWhile (· != ':')
  | _ :: inside =>
    let behind := (inside.dropWhile (· != ']')).drop 1
    if last.head? ≠ some '[' ∨ behind.head?.any (· != ':') then throw .brackets
    return inside.takeWhile (· != ']')

/-- Whether a host is an address of a later version: the letter `v`, a hexadecimal number, a dot and
something more. -/
def isLaterAddress (cs : List Char) : Bool :=
  match cs.head?, cs.tail.takeWhile isHexDigit, cs.tail.dropWhile isHexDigit with
  | some 'v', _ :: _, '.' :: _ :: _ => true
  | _, _, _ => false

/-- Refuses a host between brackets that is neither a colon address nor one of a later version. -/
def checkAddress (host : List Char) : Except UriFault Unit :=
  if host.head? = some 'v' then
    if isLaterAddress host then .ok () else .error .laterAddress
  else if HostAddress.isColon host then .ok ()
  else if HostAddress.isDotted host then .error .dottedAddress
  else .error (.notAddress (String.ofList host))

/-- Refuses a server part with one kind of bracket only, with brackets around anything but an
address, or with an ambiguous character. -/
def checkServer (server : List Char) : Except UriFault Unit := do
  if server.contains '[' != server.contains ']' then throw .brackets
  if server.contains '[' then checkAddress (← bracketedHost server)
  if server.any isAmbiguous then throw (.ambiguousHost (String.ofList server))

/-- Blanks and control characters, which may stand in front of a URI. -/
def isLeader (c : Char) : Bool :=
  c.toNat ≤ 0x20

/-- The path that a URI names; none for a scheme other than `file`. Blanks in front of a URI, tabs
and line ends inside it do not count, and neither do its query and fragment. -/
def toPath? (uri : String) : Except UriFault (Option Path) := do
  let cs := (uri.toList.dropWhile isLeader).filter fun c => c != '\t' && c != '\r' && c != '\n'
  let scheme := scheme? cs
  let (server, rest) := server ((scheme.map (·.2)).getD cs)
  checkServer server
  match scheme with
  | none => return some (.ofString uri)
  | some (name, _) =>
    if name ≠ "file" then return none
    let path := unescape (rest.takeWhile fun c => c != '?' && c != '#')
    let share := if server = [] ∨ server = "localhost".toList then [] else '/' :: '/' :: server
    return some (.ofString (String.ofList (share ++ path)))

end Uri

/-- The URI of the place that a path names. -/
def FileSystem.uriOf (fs : FileSystem) (path : Path) : Except FileFault String := do
  return Uri.ofPlace (← fs.resolve path)

end BurnLens
