import ScriptLang.Number.Shortest
import ScriptLang.Text.Digit

/-!
Floating-point numerals: how numbers are written, and how numerals are read. A layout says for
which decimal exponents of the leading digit the point is placed; beyond them an exponent is written.
-/
namespace ScriptLang.Binary64

/-- The exponents of the leading digit that are written without an exponent part: all of them, or
those from `low` up to and without `high`. -/
inductive Layout
  | plain
  | window (low high : Int)

/-- The common written form: `1e-05`, `0.0001`, `1e+16`. -/
def Layout.common : Layout := .window (-4) 16

def Layout.allows : Layout → Int → Bool
  | plain, _ => true
  | window low high, e => low ≤ e && e < high

def pointed (digits : List Char) (exponent : Int) : List Char :=
  if 0 ≤ exponent then digits ++ List.replicate exponent.toNat '0' ++ ['.', '0']
  else
    let places := (-exponent).toNat
    if places < digits.length then
      digits.take (digits.length - places) ++ '.' :: digits.drop (digits.length - places)
    else '0' :: '.' :: List.replicate (places - digits.length) '0' ++ digits

def powered (digits : List Char) (e : Int) : List Char :=
  let power := (Nat.repr e.natAbs).toList
  let power := if power.length < 2 then '0' :: power else power
  let point := match digits with
    | c :: d :: ds => c :: '.' :: d :: ds
    | ds => ds
  point ++ 'e' :: (if e < 0 then '-' else '+') :: power

def Decimal.write (layout : Layout) (x : Decimal) : List Char :=
  let digits := (Nat.repr x.digits).toList
  let e := x.exponent + digits.length - 1
  if layout.allows e then pointed digits x.exponent else powered digits e

def write (layout : Layout) : Binary64 → String
  | nan => "nan"
  | infinite s => if s then "-inf" else "inf"
  | finite s m q =>
    let digits := String.ofList ((shortest m q).write layout)
    if s then "-" ++ digits else digits

def text (x : Binary64) : String :=
  x.write .common

def ofDigits (cs : List Char) : Nat :=
  cs.foldl (fun n c => n * 10 + (c.toNat - '0'.toNat)) 0

def ofPointed (whole fraction : List Char) : Binary64 :=
  ofDecimal false (ofDigits (whole ++ fraction)) (-(fraction.length : Int))

/-- The number nearest to `digits * 10 ^ exponent`, for an exponent of any size: those that lead far
beyond all finite numbers, or below all of them, are not computed with. -/
def ofScientific (negative : Bool) (digits : Nat) (exponent : Int) : Binary64 :=
  if digits = 0 then zero negative
  else if 400 < exponent then infinite negative
  else if exponent + digitCount digits < -400 then zero negative
  else ofDecimal negative digits exponent

/-- Reads a numeral in digits of any script: a sign, digits with at most one point, an exponent; or a
name of an infinity or of NaN. -/
def read? (s : String) : Option Binary64 := do
  match ← Text.joinDigits? false ((Text.trimNumeral s).map Text.asciiDigit) with
  | '-' :: cs => unsigned? true cs
  | '+' :: cs => unsigned? false cs
  | cs => unsigned? false cs
where
  exponent? : List Char → Option Int
    | [] => some 0
    | c :: cs =>
      if c = 'e' ∨ c = 'E' then
        match cs with
        | '-' :: ds => (digits? ds).map fun n => -(n : Int)
        | '+' :: ds => (digits? ds).map Int.ofNat
        | ds => (digits? ds).map Int.ofNat
      else none
  digits? (ds : List Char) : Option Nat :=
    if !ds.isEmpty && ds.all Char.isDigit then some (ofDigits ds) else none
  unsigned? (negative : Bool) (cs : List Char) : Option Binary64 :=
    let name := String.ofList (cs.map Char.toLower)
    if name = "inf" ∨ name = "infinity" then some (infinite negative)
    else if name = "nan" then some nan
    else
      let whole := cs.takeWhile Char.isDigit
      let (fraction, rest) := match cs.dropWhile Char.isDigit with
        | '.' :: ds => (ds.takeWhile Char.isDigit, ds.dropWhile Char.isDigit)
        | rest => ([], rest)
      if whole.isEmpty && fraction.isEmpty then none
      else (exponent? rest).map fun e =>
        ofScientific negative (ofDigits (whole ++ fraction)) (e - fraction.length)

end ScriptLang.Binary64
