import ScriptLang.Text.Blank

/-!
Decimal digits of all scripts, and the reading of a signed integer written with them. Numerals may
stand between blanks, and single underscores may stand between their digits.
-/
namespace ScriptLang.Text

/-- The zeros of the scripts that have decimal digits; the nine other digits follow each zero. -/
def zeros : List Nat := [
  48, 1632, 1776, 1984, 2406, 2534, 2662, 2790, 2918, 3046, 3174, 3302, 3430, 3558, 3664, 3792,
  3872, 4160, 4240, 6112, 6160, 6470, 6608, 6784, 6800, 6992, 7088, 7232, 7248, 42528, 43216,
  43264, 43472, 43504, 43600, 44016, 65296, 66720, 68912, 69734, 69872, 69942, 70096, 70384,
  70736, 70864, 71248, 71360, 71472, 71904, 72016, 72784, 73040, 73120, 92768, 92864, 93008,
  120782, 120792, 120802, 120812, 120822, 123200, 123632, 125264, 130032]

def digitValue? (c : Char) : Option Nat :=
  (zeros.find? fun z => z ≤ c.toNat && c.toNat < z + 10).map (c.toNat - ·)

/-- The number written by a run of digits in which single underscores may stand between digits,
together with the count of its digits. -/
def readDigits? : List Char → Option (Nat × Nat)
  | [] => none
  | c :: cs => do go (← digitValue? c) 1 cs
where
  go (n count : Nat) : List Char → Option (Nat × Nat)
    | [] => some (n, count)
    | '_' :: c :: cs => do go (n * 10 + (← digitValue? c)) (count + 1) cs
    | c :: cs => do go (n * 10 + (← digitValue? c)) (count + 1) cs

/-- Drops the blanks around a numeral. Information separators are not taken for blanks here. -/
def trimNumeral (s : String) : List Char :=
  trimBy (fun c => isBlank c && !isSeparator c) s.toList

def asciiDigit (c : Char) : Char :=
  match digitValue? c with
  | some d => Char.ofNat ('0'.toNat + d)
  | none => c

/-- Drops the underscores of a numeral in ASCII digits, each of which has to stand between two digits;
`afterDigit` tells whether a digit comes before. -/
def joinDigits? (afterDigit : Bool) : List Char → Option (List Char)
  | [] => some []
  | '_' :: c :: cs =>
    if afterDigit && c.isDigit then (joinDigits? true cs).map (c :: ·) else none
  | c :: cs => if c = '_' then none else (joinDigits? c.isDigit cs).map (c :: ·)

def digitLimit : Nat := 4300

def readInteger? (s : String) : Option Int :=
  match trimNumeral s with
  | '-' :: cs => (magnitude? cs).map fun n => -(n : Int)
  | '+' :: cs => (magnitude? cs).map Int.ofNat
  | cs => (magnitude? cs).map Int.ofNat
where
  magnitude? (cs : List Char) : Option Nat := do
    let (n, count) ← readDigits? cs
    if count ≤ digitLimit then some n else none

end ScriptLang.Text
