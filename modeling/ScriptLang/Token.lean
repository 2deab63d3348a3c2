import ScriptLang.Text.Position
import ScriptLang.Value

/-!
Tokens: a lexeme and the position it starts at. The source text of a lexeme reads back as the
lexeme.
-/
namespace ScriptLang

inductive Lexeme
  | text (s : String)
  | identifier (name : String)
  | punctuation (c : Char)
  | operator (s : String)
  | integer (n : Nat)
  | float (x : Binary64)
deriving DecidableEq, Repr, Inhabited

structure Token where
  lexeme : Lexeme
  pos : Position
deriving DecidableEq, Repr, Inhabited

def unescape : Char → Char
  | 'n' => '\n'
  | 't' => '\t'
  | 'r' => '\r'
  | '0' => '\x00'
  | 'v' => '\x0b'
  | c => c

def escapeInText (c : Char) : List Char :=
  if c = '"' ∨ c = '\\' then ['\\', c]
  else if c = '\n' then ['\\', 'n']
  else if c = '\t' then ['\\', 't']
  else if c = '\r' then ['\\', 'r']
  else if c = '\x00' then ['\\', '0']
  else if c = '\x0b' then ['\\', 'v']
  else [c]

def textSource (s : String) : String :=
  String.ofList ('"' :: s.toList.flatMap escapeInText ++ ['"'])

def withPoint (digits : String) : String :=
  if digits.toList.contains '.' then digits else digits ++ ".0"

def floatSource (x : Binary64) : String :=
  withPoint (x.write .plain)

namespace Lexeme

def label : Lexeme → String
  | text _ => "STRING"
  | identifier _ => "IDENTIFIER"
  | punctuation _ => "PUNCTUATION"
  | operator _ => "OPERATOR"
  | integer _ => "INTEGER"
  | float _ => "FLOAT"

def value : Lexeme → Value
  | text s | identifier s | operator s => .text s
  | punctuation c => .text c.toString
  | integer n => .integer n
  | float x => .float x

def shown (l : Lexeme) : String :=
  l.value.bare

def operator? : Lexeme → Option String
  | operator s => some s
  | _ => none

def source : Lexeme → String
  | text s => textSource s
  | float x => floatSource x
  | l => l.shown

def isComment : Lexeme → Bool
  | operator s => "//".toList.isPrefixOf s.toList
  | _ => false

end Lexeme

inductive Misfit
  | notText
  | notNumber
deriving DecidableEq, Repr

/-- The source text of any value under any label. A float label takes whatever looks like digits. -/
def labelledSource (label : String) (value : Value) : Except Misfit String :=
  if label = "STRING" then
    match value with
    | .text s => .ok (textSource s)
    | _ => .error .notText
  else if label = "FLOAT" then
    match value with
    | .float x => .ok (floatSource x)
    | v => if v.listing.toList.contains 'e' then .error .notNumber else .ok (withPoint v.listing)
  else .ok value.bare

def labelledListing (label : String) (value : Value) (line : String) : String :=
  "Token(" ++ label ++ ", " ++ value.listing ++ ", line=" ++ line ++ ")"

def Token.listing (t : Token) : String :=
  labelledListing t.lexeme.label t.lexeme.value (Nat.repr t.pos.line)

end ScriptLang
