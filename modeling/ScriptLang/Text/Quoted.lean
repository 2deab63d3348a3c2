import ScriptLang.Text.Printable

/-!
Quoted text. The quote is the apostrophe unless the text has an apostrophe and no double quote;
the quote, the backslash and the characters that are not printable are escaped.
-/
namespace ScriptLang.Text

def hex (width n : Nat) : String :=
  let ds := Nat.toDigits 16 n
  String.ofList (List.replicate (width - ds.length) '0' ++ ds)

def escape (mark c : Char) : String :=
  if c = mark ∨ c = '\\' then String.ofList ['\\', c]
  else if c = '\n' then "\\n"
  else if c = '\r' then "\\r"
  else if c = '\t' then "\\t"
  else if isPrintable c then c.toString
  else if c.toNat < 0x100 then "\\x" ++ hex 2 c.toNat
  else if c.toNat < 0x10000 then "\\u" ++ hex 4 c.toNat
  else "\\U" ++ hex 8 c.toNat

def quoteMark (s : String) : Char :=
  if s.toList.contains '\'' && !s.toList.contains '"' then '"' else '\''

def quote (s : String) : String :=
  let mark := quoteMark s
  mark.toString ++ String.join (s.toList.map (escape mark)) ++ mark.toString

end ScriptLang.Text
