import ScriptLang.Fault

/-!
Cursors: the unread characters of a text and the position of the first of them.
-/
namespace ScriptLang

structure Cursor where
  rest : List Char
  pos : Position := .start
  file : String
deriving Repr, Inhabited

namespace Cursor

def ofText (text file : String) : Cursor :=
  ⟨text.toList, .start, file⟩

def atEnd (c : Cursor) : Bool :=
  c.rest.isEmpty

def peek (c : Cursor) : Except Fault Char :=
  match c.rest with
  | [] => .error .endOfText
  | x :: _ => .ok x

def next (c : Cursor) : Except Fault (Char × Cursor) :=
  match c.rest with
  | [] => .error .endOfText
  | x :: xs => .ok (x, { c with rest := xs, pos := c.pos.step x })

def move (c : Cursor) (taken rest : List Char) : Cursor :=
  { c with rest := rest, pos := c.pos.after taken }

def skipWhile (c : Cursor) (p : Char → Bool) : Cursor :=
  c.move (c.rest.takeWhile p) (c.rest.dropWhile p)

def fault (c : Cursor) (cause : Cause) : Fault :=
  .atPosition cause c.pos c.file

end Cursor
end ScriptLang
