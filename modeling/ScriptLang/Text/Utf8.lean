import ScriptLang.Text.Quoted

/-!
Decoding of UTF-8. Bytes are taken one at a time; a sequence under way knows which bytes may come
next, so over-long forms, surrogates and code points above U+10FFFF end at the first byte that cannot
continue them. Strict decoding stops there; lossy decoding puts a replacement character and goes on.
-/
namespace ScriptLang.Text.Utf8

inductive Reason
  | invalidStart
  | invalidContinuation
  | unexpectedEnd
deriving DecidableEq, Repr

/-- Bytes `first` up to and without `stop` begin no character; `lead` is the first of them. -/
structure Malformed where
  first : Nat
  stop : Nat
  lead : UInt8
  reason : Reason
deriving DecidableEq, Repr

def Reason.message : Reason → String
  | invalidStart => "invalid start byte"
  | invalidContinuation => "invalid continuation byte"
  | unexpectedEnd => "unexpected end of data"

def Malformed.message (m : Malformed) : String :=
  let place :=
    if m.stop = m.first + 1 then
      "byte 0x" ++ hex 2 m.lead.toNat ++ " in position " ++ Nat.repr m.first
    else "bytes in position " ++ Nat.repr m.first ++ "-" ++ Nat.repr (m.stop - 1)
  "'utf-8' codec can't decode " ++ place ++ ": " ++ m.reason.message

/-- A character whose last `missing` bytes are still to come, the next between `low` and `high`. -/
structure Pending where
  first : Nat
  lead : UInt8
  code : Nat
  missing : Nat
  low : UInt8
  high : UInt8

def opening (n : Nat) (b : UInt8) : Option Pending :=
  let code := b.toNat
  if 0xC2 ≤ b ∧ b ≤ 0xDF then some ⟨n, b, code - 0xC0, 1, 0x80, 0xBF⟩
  else if b = 0xE0 then some ⟨n, b, code - 0xE0, 2, 0xA0, 0xBF⟩
  else if b = 0xED then some ⟨n, b, code - 0xE0, 2, 0x80, 0x9F⟩
  else if 0xE0 ≤ b ∧ b ≤ 0xEF then some ⟨n, b, code - 0xE0, 2, 0x80, 0xBF⟩
  else if b = 0xF0 then some ⟨n, b, code - 0xF0, 3, 0x90, 0xBF⟩
  else if b = 0xF4 then some ⟨n, b, code - 0xF0, 3, 0x80, 0x8F⟩
  else if 0xF0 ≤ b ∧ b ≤ 0xF4 then some ⟨n, b, code - 0xF0, 3, 0x80, 0xBF⟩
  else none

def Pending.accepts (p : Pending) (b : UInt8) : Bool :=
  p.low ≤ b && b ≤ p.high

def Pending.push (p : Pending) (b : UInt8) : Pending :=
  { p with code := p.code * 64 + (b.toNat - 0x80), missing := p.missing - 1, low := 0x80, high := 0xBF }

def decodeFrom (n : Nat) : Option Pending → List UInt8 → Except Malformed (List Char)
  | none, [] => .ok []
  | some p, [] => .error ⟨p.first, n, p.lead, .unexpectedEnd⟩
  | none, b :: bs =>
    if b < 0x80 then (Char.ofNat b.toNat :: ·) <$> decodeFrom (n + 1) none bs
    else match opening n b with
      | none => .error ⟨n, n + 1, b, .invalidStart⟩
      | some p => decodeFrom (n + 1) (some p) bs
  | some p, b :: bs =>
    if p.accepts b then
      if (p.push b).missing = 0 then (Char.ofNat (p.push b).code :: ·) <$> decodeFrom (n + 1) none bs
      else decodeFrom (n + 1) (some (p.push b)) bs
    else .error ⟨p.first, n, p.lead, .invalidContinuation⟩

def decode (bytes : List UInt8) : Except Malformed (List Char) :=
  decodeFrom 0 none bytes

def replacement : Char := '\uFFFD'

def begin (n : Nat) (b : UInt8) : List Char × Option Pending :=
  if b < 0x80 then ([Char.ofNat b.toNat], none)
  else match opening n b with
    | none => ([replacement], none)
    | some p => ([], some p)

/-- Decodes the bytes from offset `n` on, with one replacement character for each malformed stretch:
a byte that cannot continue a character under way is read again as the beginning of the next. -/
def decodeLossyFrom (n : Nat) : Option Pending → List UInt8 → List Char
  | none, [] => []
  | some _, [] => [replacement]
  | none, b :: bs => (begin n b).1 ++ decodeLossyFrom (n + 1) (begin n b).2 bs
  | some p, b :: bs =>
    if p.accepts b then
      if (p.push b).missing = 0 then Char.ofNat (p.push b).code :: decodeLossyFrom (n + 1) none bs
      else decodeLossyFrom (n + 1) (some (p.push b)) bs
    else replacement :: (begin n b).1 ++ decodeLossyFrom (n + 1) (begin n b).2 bs

def decodeLossy (bytes : List UInt8) : List Char :=
  decodeLossyFrom 0 none bytes

end ScriptLang.Text.Utf8
