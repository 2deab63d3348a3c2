import ScriptLang.Text.Newline

/-!
The word under an editor's cursor. Cursor columns count UTF-16 units; a word is a run of ASCII
letters, digits and underscores.
-/
namespace ScriptLang.Text

def units16 (c : Char) : Nat :=
  if 0x10000 ≤ c.toNat then 2 else 1

def length16 : List Char → Nat
  | [] => 0
  | c :: cs => units16 c + length16 cs

/-- How many characters of a line are passed until at least so many UTF-16 units are. -/
def columnOfUnits : Nat → List Char → Nat
  | 0, _ => 0
  | _, [] => 0
  | n + 1, c :: cs => columnOfUnits (n + 1 - units16 c) cs + 1

def isWordChar (c : Char) : Bool :=
  c.isAlphanum || c == '_'

/-- The character column of a cursor: one past the end of the line goes to its last unit. -/
def cursorColumn (line : List Char) (char : Nat) : Nat :=
  let shown := joinPairs line
  let units := length16 shown
  columnOfUnits (if units < char then units - 1 else char) shown

/-- The word characters right before the end of a text, a last line feed aside. -/
def wordBefore (cs : List Char) : List Char :=
  let back := match cs.reverse with
    | '\n' :: rest => rest
    | rest => rest
  (back.takeWhile isWordChar).reverse

def wordAt (text : String) (line char : Nat) : String :=
  match (splitLines text.toList)[line]? with
  | none => ""
  | some cs =>
    let col := cursorColumn cs char
    String.ofList (wordBefore (cs.take col) ++ (cs.drop col).takeWhile isWordChar)

end ScriptLang.Text
