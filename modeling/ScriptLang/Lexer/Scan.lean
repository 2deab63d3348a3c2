import ScriptLang.Number.Numeral
import ScriptLang.Number.Range
import ScriptLang.Text.Digit
import ScriptLang.Token

/-!
Scanning one lexeme at the front of a text. The scanner takes the longest lexeme of the class that
the first character decides, and tells the characters it took apart from those it left, so that a
scan never loses or adds a character.
-/
namespace ScriptLang

def isSpace (c : Char) : Bool :=
  c == ' ' || c == '\t' || c == '\r' || c == '\n'

def isPunctuation (c : Char) : Bool :=
  ['(', ')', '{', '}', '[', ']', ';', ',', '.'].contains c

def isOperatorChar (c : Char) : Bool :=
  ['&', '|', '%', '*', '/', '+', '-', '=', '<', '>', '!'].contains c

def isNameStart (c : Char) : Bool :=
  c.isAlpha || c == '_'

def isNameChar (c : Char) : Bool :=
  isNameStart c || c.isDigit || c == '-'

inductive ScanFailure
  | unreadable (c : Char)
  | numeralTooLong
  | integerTooLarge
deriving DecidableEq, Repr

/-- The result of a scan: a lexeme or the reason why there is none, what was taken and what is left. -/
structure Scan where
  result : Except ScanFailure Lexeme
  taken : List Char
  rest : List Char

def scanText : Bool → List Char → List Char × List Char × List Char
  | _, [] => ([], [], [])
  | true, c :: cs =>
    let (value, taken, rest) := scanText false cs
    (unescape c :: value, c :: taken, rest)
  | false, c :: cs =>
    if c = '\\' then
      let (value, taken, rest) := scanText true cs
      (value, c :: taken, rest)
    else if c = '"' then ([], [c], cs)
    else
      let (value, taken, rest) := scanText false cs
      (c :: value, c :: taken, rest)

/-- An integer literal: its digits are counted before they are converted. -/
def integerLexeme (digits : List Char) : Except ScanFailure Lexeme :=
  if Text.digitLimit < digits.length then .error .numeralTooLong
  else
    let n := Binary64.ofDigits digits
    if Range.contains n then .ok (.integer n) else .error .integerTooLarge

def scanNumber (cs : List Char) : Scan :=
  let whole := cs.takeWhile Char.isDigit
  match cs.dropWhile Char.isDigit with
  | '.' :: rest =>
    let fraction := rest.takeWhile Char.isDigit
    ⟨.ok (.float (Binary64.ofPointed whole fraction)), whole ++ '.' :: fraction,
      rest.dropWhile Char.isDigit⟩
  | rest => ⟨integerLexeme whole, whole, rest⟩

def scanRun (p : Char → Bool) (make : String → Lexeme) (cs : List Char) : Scan :=
  let run := cs.takeWhile p
  ⟨.ok (make (String.ofList run)), run, cs.dropWhile p⟩

def scan (c : Char) (cs : List Char) : Scan :=
  if c = '"' then
    let (value, taken, rest) := scanText false cs
    ⟨.ok (.text (String.ofList value)), c :: taken, rest⟩
  else if isNameStart c then scanRun isNameChar .identifier (c :: cs)
  else if isPunctuation c then ⟨.ok (.punctuation c), [c], cs⟩
  else if isOperatorChar c then scanRun isOperatorChar .operator (c :: cs)
  else if c.isDigit then scanNumber (c :: cs)
  else ⟨.error (.unreadable c), [], c :: cs⟩

/-- What a text scan takes and leaves is the text. -/
theorem scanText_append (escaped : Bool) (cs : List Char) :
    (scanText escaped cs).2.1 ++ (scanText escaped cs).2.2 = cs := by
  induction cs generalizing escaped with
  | nil => cases escaped <;> rfl
  | cons c cs ih =>
    cases escaped with
    | true => simpa [scanText] using ih false
    | false =>
      by_cases hb : c = '\\'
      · simpa [scanText, hb] using ih true
      · by_cases hq : c = '"'
        · simp [scanText, hq]
        · simpa [scanText, hb, hq] using ih false

theorem scanNumber_append (cs : List Char) :
    (scanNumber cs).taken ++ (scanNumber cs).rest = cs := by
  unfold scanNumber
  split
  · next rest h =>
    simp only [List.append_assoc, List.cons_append, List.takeWhile_append_dropWhile]
    rw [← h, List.takeWhile_append_dropWhile]
  · next h => simp [List.takeWhile_append_dropWhile]

/-- A scan loses nothing: what it takes and leaves is its text. -/
theorem scan_append (c : Char) (cs : List Char) : (scan c cs).taken ++ (scan c cs).rest = c :: cs := by
  unfold scan
  split
  · simpa using scanText_append false cs
  · split
    · exact List.takeWhile_append_dropWhile
    · split
      · rfl
      · split
        · exact List.takeWhile_append_dropWhile
        · split
          · exact scanNumber_append (c :: cs)
          · rfl

end ScriptLang
