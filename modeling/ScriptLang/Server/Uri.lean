import ScriptLang.Server.Authority
import ScriptLang.Text.Utf8

/-!
File addresses. The path of a `file` address is written in UTF-8, with a percent sign and two
hexadecimal digits for each byte that is not allowed as it is.
-/
namespace ScriptLang.Uri

def isPlain (b : UInt8) : Bool :=
  let c := Char.ofNat b.toNat
  b < 0x80 && (c.isAlphanum || ['_', '.', '-', '~', '/'].contains c)

def upper (s : String) : String :=
  s.map Char.toUpper

def encode (path : String) : String :=
  String.join (path.toUTF8.toList.map fun b =>
    if isPlain b then (Char.ofNat b.toNat).toString else "%" ++ upper (Text.hex 2 b.toNat))

def hexValue? (c : Char) : Option Nat :=
  if c.isDigit then some (c.toNat - '0'.toNat)
  else if 'a' ≤ c ∧ c ≤ 'f' then some (c.toNat - 'a'.toNat + 10)
  else if 'A' ≤ c ∧ c ≤ 'F' then some (c.toNat - 'A'.toNat + 10)
  else none

def bytes : List Char → List UInt8
  | [] => []
  | '%' :: a :: b :: cs =>
    match hexValue? a, hexValue? b with
    | some x, some y => UInt8.ofNat (16 * x + y) :: bytes cs
    | _, _ => '%'.toString.toUTF8.toList ++ bytes (a :: b :: cs)
  | c :: cs => c.toString.toUTF8.toList ++ bytes cs

def decode (s : List Char) : String :=
  String.ofList (Text.Utf8.decodeLossy (bytes s))

def ofPath (path : String) : String :=
  "file://" ++ encode path

/-- The text of an address without control characters and blanks at its front, and without tabs and
line ends anywhere. -/
def trim (s : String) : List Char :=
  (s.toList.dropWhile fun c => c.toNat ≤ 0x20).filter fun c => c != '\t' && c != '\r' && c != '\n'

def splitScheme (cs : List Char) : String × List Char :=
  let scheme := cs.takeWhile fun c => c.isAlphanum || ['+', '-', '.'].contains c
  match scheme, cs.drop scheme.length with
  | c :: _, ':' :: rest => if c.isAlpha then (String.ofList (scheme.map Char.toLower), rest) else ("", cs)
  | _, _ => ("", cs)

def endsPath (c : Char) : Bool :=
  c == '?' || c == '#'

def splitAuthority : List Char → List Char × List Char
  | '/' :: '/' :: cs => cs.span fun c => c != '/' && !endsPath c
  | cs => ([], cs)

/-- The schemes whose paths have parameters; no scheme at all is among them. -/
def parametric : List String :=
  ["", "ftp", "hdl", "prospero", "http", "imap", "https", "shttp", "rtsp", "rtsps", "rtspu", "sip",
    "sips", "mms", "sftp", "tel"]

def dropParameters : List Char → List Char
  | [] => []
  | c :: cs => if c = ';' ∧ '/' ∉ cs then [] else c :: dropParameters cs

/-- The path of a file on this machine: a drive letter is in lower case, and its slash is left out. -/
def localPath (path : String) : String :=
  match path.toList with
  | '/' :: c :: ':' :: cs => if c.isAlpha then String.ofList (c.toLower :: ':' :: cs) else path
  | _ => path

/-- The path of an address, without parameters, query and fragment. The authority of a `file` comes
before it as on a network share. -/
def toPath (s : String) : Except Authority.Fault String :=
  let (scheme, rest) := splitScheme (trim s)
  let (authority, rest) := splitAuthority rest
  match Authority.fault? authority with
  | some fault => .error fault
  | none =>
    let path := rest.takeWhile (!endsPath ·)
    let path := decode (if scheme ∈ parametric then dropParameters path else path)
    if authority ≠ [] ∧ path ≠ "" ∧ scheme = "file" then .ok ("//" ++ decode authority ++ path)
    else .ok (localPath path)

end ScriptLang.Uri
