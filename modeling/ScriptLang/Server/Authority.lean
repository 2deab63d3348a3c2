import ScriptLang.Text.Quoted

/-!
The authority of an address, which is what stands between its two slashes and its path. Only the
address of a host in version 6 or later of the internet protocol stands in brackets, and no character
may be a separator in disguise.
-/
namespace ScriptLang.Authority

inductive Fault
  | unbalanced
  | future
  | notNumeric (host : String)
  | version4
  | disguised (authority : String)
deriving DecidableEq, Repr

def Fault.message : Fault → String
  | .unbalanced => "Invalid IPv6 URL"
  | .future => "IPvFuture address is invalid"
  | .notNumeric host => Text.quote host ++ " does not appear to be an IPv4 or IPv6 address"
  | .version4 => "An IPv4 address cannot be in brackets"
  | .disguised authority =>
    "netloc '" ++ authority ++ "' contains invalid characters under NFKC normalization"

def pieces (mark : Char) : List Char → List (List Char)
  | [] => [[]]
  | c :: cs =>
    if c = mark then [] :: pieces mark cs
    else match pieces mark cs with
      | [] => [[c]]
      | p :: ps => (c :: p) :: ps

def isHexDigit (c : Char) : Bool :=
  c.isDigit || ('a' ≤ c && c ≤ 'f') || ('A' ≤ c && c ≤ 'F')

def decimal (cs : List Char) : Nat :=
  cs.foldl (fun n c => 10 * n + (c.toNat - '0'.toNat)) 0

def isOctet (cs : List Char) : Bool :=
  cs != [] && cs.length ≤ 3 && cs.all Char.isDigit && (cs == ['0'] || cs.head? != some '0')
    && decimal cs ≤ 255

def isVersion4 (cs : List Char) : Bool :=
  let octets := pieces '.' cs
  octets.length == 4 && octets.all isOctet

def isGroup (cs : List Char) : Bool :=
  cs != [] && cs.length ≤ 4 && cs.all isHexDigit

/-- How many groups some pieces make; an address of version 4 at their end makes two. -/
def groups? : List (List Char) → Option Nat
  | [] => some 0
  | [p] => if isGroup p then some 1 else if isVersion4 p then some 2 else none
  | p :: ps => if isGroup p then (· + 1) <$> groups? ps else none

def splitGap? : List Char → Option (List Char × List Char)
  | [] => none
  | ':' :: ':' :: cs => some ([], cs)
  | c :: cs => (splitGap? cs).map fun (before, after) => (c :: before, after)

def row (cs : List Char) : List (List Char) :=
  if cs = [] then [] else pieces ':' cs

/-- Eight groups, or fewer around a gap. -/
def isUnzoned (cs : List Char) : Bool :=
  match splitGap? cs with
  | none => groups? (row cs) == some 8
  | some (before, after) =>
    (row before).all isGroup && (groups? (row after)).any fun n => (row before).length + n < 8

def isVersion6 (cs : List Char) : Bool :=
  match pieces '%' cs with
  | [address] => isUnzoned address
  | [address, zone] => isUnzoned address && zone != []
  | _ => false

/-- A version in hexadecimal digits, a point and something after it. -/
def isFuture (cs : List Char) : Bool :=
  cs.takeWhile isHexDigit != [] &&
    match cs.dropWhile isHexDigit with
    | '.' :: _ :: _ => true
    | _ => false

def hostFault? (host : List Char) : Option Fault :=
  match host with
  | 'v' :: cs => if isFuture cs then none else some .future
  | _ =>
    if isVersion4 host then some .version4
    else if isVersion6 host then none
    else some (.notNumeric (String.ofList host))

/-- The characters that compatibility forms write with one of `/`, `?`, `#`, `@` and `:`. -/
def disguises : List Nat :=
  [0x2047, 0x2048, 0x2049, 0x2100, 0x2101, 0x2105, 0x2106, 0x2A74, 0xFE13, 0xFE16, 0xFE55, 0xFE56,
    0xFE5F, 0xFE6B, 0xFF03, 0xFF0F, 0xFF1A, 0xFF1F, 0xFF20]

def bracketed (authority : List Char) : List Char :=
  ((authority.dropWhile (· != '[')).drop 1).takeWhile (· != ']')

def fault? (authority : List Char) : Option Fault :=
  let opened := authority.contains '['
  if opened != authority.contains ']' then some .unbalanced
  else (if opened then hostFault? (bracketed authority) else none).or
    (if authority.any fun c => disguises.contains c.toNat then
      some (.disguised (String.ofList authority)) else none)

end ScriptLang.Authority
