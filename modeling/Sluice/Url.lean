import Sluice.Failure
import Sluice.Text.Base64
import Sluice.Text.Cut
import Sluice.Text.Integer
import Sluice.Text.Percent

/-!
Addresses of tool endpoints. What a base address is read as and what comes of a path on it is for a
library of addresses to say, which is a parameter. The one that is in use here reads hosts in ASCII; in
it a base that names no host, or whose scheme has no hosts, leaves a path alone.
-/

namespace Sluice.Url

/-- What is used of a library of addresses. -/
structure Library where
  Address : Type
  /-- The address that a text spells. -/
  read : String → Except UrlError Address
  /-- What an absolute path comes to as a reference from an address. -/
  join : Address → String → Except UrlError Address
  scheme : Address → String
  /-- The host with the credentials before it and the port behind it. -/
  authority : Address → String
  /-- What stands behind the authority. -/
  path : Address → String
  text : Address → String
  /-- The authorization that the credentials of an address give. -/
  authorization? : Address → Option String

/-- The parts of an address. -/
structure Parts where
  scheme : String
  userinfo : String
  host : String
  port : Option Int
  path : String
  deriving DecidableEq

/-- The longest address that is looked at. -/
def maxLength : Nat := 65536

def isDigit (c : Char) : Bool :=
  '0' ≤ c && c ≤ '9'

def isLetter (c : Char) : Bool :=
  ('a' ≤ c && c ≤ 'z') || ('A' ≤ c && c ≤ 'Z')

/-- The characters that never need encoding. -/
def isUnreserved (c : Char) : Bool :=
  isLetter c || isDigit c || c == '-' || c == '.' || c == '_' || c == '~'

/-- The characters that stand for themselves in a host name. -/
def isHostChar (c : Char) : Bool :=
  isUnreserved c || "!$&'()*+,;=\"\x60\x7b\x7d%|\\".toList.contains c

/-- The characters that stand for themselves in credentials. -/
def isUserinfoChar (c : Char) : Bool :=
  0x20 < c.toNat && c.toNat < 0x7f && !"\"#<>?\x60\x7b\x7d/;=@[\\]^|".toList.contains c

/-- The characters of a scheme after its first. -/
def isSchemeChar (c : Char) : Bool :=
  isLetter c || isDigit c || c == '+' || c == '.' || c == '-'

/-- The scheme in front of a colon, empty if there is none, and the rest of the address. -/
def cutScheme (cs : List Char) : List Char × List Char :=
  match cs with
  | ':' :: rest => ([], rest)
  | c :: _ =>
    if isLetter c then
      match cs.dropWhile isSchemeChar with
      | ':' :: rest => (cs.takeWhile isSchemeChar, rest)
      | _ => ([], cs)
    else ([], cs)
  | [] => ([], [])

/-- Whether a character ends the part of an address that names the host. -/
def endsAuthority (c : Char) : Bool :=
  c == '/' || c == '?' || c == '#'

/-- The part that names the host, where there is one, and the rest of the address. -/
def cutAuthority : List Char → List Char × List Char
  | '/' :: '/' :: rest =>
    (rest.takeWhile fun c => !endsAuthority c, rest.dropWhile fun c => !endsAuthority c)
  | cs => ([], cs)

/-- The credentials before the last at sign, and what follows it. -/
def cutUserinfo (cs : List Char) : List Char × List Char :=
  (Text.cutAtLast? '@' cs).getD ([], cs)

/-- The host and the text of the port. A host in brackets goes up to the last closing one. -/
def cutHost (cs : List Char) : List Char × List Char :=
  let plain := (cs.takeWhile (· != ':'), cs.dropWhile (· != ':'))
  let (host, rest) :=
    match cs with
    | '[' :: _ =>
      match Text.cutAtLast? ']' cs with
      | some (before, after) => (before ++ [']'], after)
      | none => plain
    | _ => plain
  match rest with
  | ':' :: port => (host, port)
  | port => (host, port)

/-- The lengths of the runs of digits in a text. -/
def digitRuns : List Char → List Nat
  | [] => [0]
  | c :: rest =>
    if isDigit c then
      match digitRuns rest with
      | n :: more => (n + 1) :: more
      | [] => [1]
    else 0 :: digitRuns rest

/-- Whether a host reads as four numbers with some character between each two. Digits can serve as
the characters between, so long runs of them read that way too. -/
def looksLikeAddress4 (host : List Char) : Bool :=
  let runs := digitRuns host
  let spare := runs.foldl (fun sum n => sum + (n - 1) / 2) 0
  runs.all (0 < ·) && runs.length ≤ 4 && 4 ≤ runs.length + spare

/-- Whether a text is a number from 0 to 255 without zeros in front. -/
def isOctet (cs : List Char) : Bool :=
  !cs.isEmpty && cs.length ≤ 3 && cs.all isDigit && (cs.length == 1 || cs.head? != some '0') &&
    (cs.foldl (fun n c => 10 * n + (c.toNat - 48)) 0) ≤ 255

/-- Whether a host is an address of four octets. -/
def isAddress4 (host : List Char) : Bool :=
  let parts := Text.splitAt '.' host
  parts.length == 4 && parts.all isOctet

/-- Whether a text is a group of an address of eight groups. -/
def isHextet (cs : List Char) : Bool :=
  !cs.isEmpty && cs.length ≤ 4 && cs.all fun c => (Text.hexValue? c).isSome

/-- Whether groups, of which the last may stand for two, make an address: all eight, or fewer with
one gap. -/
def areGroups (parts : List (List Char)) : Bool :=
  let inner := (parts.drop 1).dropLast
  match inner.findIdx? (·.isEmpty) with
  | none => parts.length == 8 && parts.all isHextet
  | some i =>
    let before := parts.take (i + 1)
    let after := parts.drop (i + 2)
    let before := if before == [[]] then [] else before
    let after := if after == [[]] then [] else after
    before.all isHextet && after.all isHextet && before.length + after.length < 8

/-- Whether the text in brackets is an address of eight groups, a zone after a percent sign
allowed. -/
def isAddress6 (cs : List Char) : Bool :=
  let (address, zoneOk) :=
    match Text.cutAt? ['%'] cs with
    | some (address, zone) => (address, !zone.isEmpty && !zone.contains '%')
    | none => (cs, true)
  let parts := Text.splitAt ':' address
  let last := parts.getLast?.getD []
  let parts4 := if last.contains '.' then parts.dropLast ++ [['0'], ['0']] else parts
  zoneOk && 3 ≤ parts.length && parts4.length ≤ 9 && areGroups parts4 &&
    (!last.contains '.' || isAddress4 last)

/-- A host as it stands in an address. -/
def readHost (host : List Char) : Except UrlError (List Char) :=
  if host.isEmpty then .ok []
  else if looksLikeAddress4 host then
    if isAddress4 host then .ok host else .error (.badAddress4 (String.ofList host))
  else if host.head? == some '[' && host.getLast? == some ']' then
    let address := (host.drop 1).dropLast
    if isAddress6 address then .ok host else .error (.badAddress6 (String.ofList host))
  else if host.all fun c => c.toNat < 0x80 then .ok (Percent.encode isHostChar (host.map Char.toLower))
  else .error (.badHostname (String.ofList host))

/-- The port that a scheme has where none is named. -/
def defaultPort : String → Option Int
  | "ftp" => some 21
  | "http" => some 80
  | "https" => some 443
  | "ws" => some 80
  | "wss" => some 443
  | _ => none

/-- The port that a text names. -/
def readPort (text : List Char) : Except UrlError (Option Int) :=
  if text.isEmpty then .ok none
  else
    match Text.integer? text with
    | some n => .ok (some n)
    | none => .error (.badPort (String.ofList text))

/-- The parts of an address, if all of it is in order. -/
def read (text : String) : Except UrlError Parts := do
  let cs := text.toList
  if maxLength < cs.length then throw .tooLong
  if let some i := cs.findIdx? fun c => c.toNat < 0x20 || c.toNat == 0x7f then
    throw (.unprintable (cs.getD i ' ') i)
  let (scheme, rest) := cutScheme cs
  let (authority, rest) := cutAuthority rest
  let (userinfo, hostPort) := cutUserinfo authority
  let (host, portText) := cutHost hostPort
  let host ← readHost host
  let port ← readPort portText
  if scheme.isEmpty && userinfo.isEmpty && host.isEmpty && port.isNone then
    if "//".toList.isPrefixOf rest then throw .doubleSlash
    if ":".toList.isPrefixOf rest then throw .leadingColon
  let scheme := String.ofList (scheme.map Char.toLower)
  pure {
    scheme
    userinfo := String.ofList (Percent.encode isUserinfoChar userinfo)
    host := String.ofList host
    port := if port = defaultPort scheme then none else port
    path := String.ofList rest }

/-- The schemes whose addresses name hosts and paths. -/
def hostSchemes : List String :=
  ["ftp", "http", "gopher", "nntp", "imap", "wais", "file", "https", "shttp", "mms", "prospero",
    "rtsp", "rtspu", "sftp", "svn", "svn+ssh", "ws", "wss"]

def endpointPath : String := "/tools/invoke"

namespace Parts

/-- Whether the address names a host that can be asked. -/
def isAbsolute (p : Parts) : Bool :=
  hostSchemes.contains p.scheme && !p.host.isEmpty

def authority (p : Parts) : String :=
  let user := if p.userinfo.isEmpty then "" else p.userinfo ++ "@"
  let port := match p.port with
    | some n => s!":{n}"
    | none => ""
  user ++ p.host ++ port

/-- The address of a path alone. -/
def ofPath (path : String) : Parts :=
  ⟨"", "", "", none, path⟩

def text (p : Parts) : String :=
  if p.scheme.isEmpty then p.path else p.scheme ++ "://" ++ p.authority ++ p.path

/-- The address of a path from another address, unless it comes out too long to be looked at. -/
def join (p : Parts) (path : String) : Except UrlError Parts :=
  let joined := if p.isAbsolute then { p with path } else ofPath path
  if maxLength < joined.text.toList.length then .error .tooLong else .ok joined

/-- The authorization that the credentials of an address give. -/
def authorization? (p : Parts) : Option String :=
  let text := p.userinfo.toList
  let (name, password) := (Text.cutAt? [':'] text).getD (text, [])
  let clear (cs : List Char) : List UInt8 := Utf8.encode (Utf8.decodeLossy (Percent.decode cs))
  let bytes := clear name ++ clear ":".toList ++ clear password
  if name.isEmpty && password.isEmpty then none
  else some s!"Basic {String.ofList (Base64.encodePadded bytes)}"

end Parts

/-- The library of addresses that is in use. -/
def Library.standard : Library where
  Address := Parts
  read := Sluice.Url.read
  join := Parts.join
  scheme := Parts.scheme
  authority := Parts.authority
  path := Parts.path
  text := Parts.text
  authorization? := Parts.authorization?

end Sluice.Url
