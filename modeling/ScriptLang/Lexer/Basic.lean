import ScriptLang.Lexer.Cursor
import ScriptLang.Lexer.Scan

/-!
Lexers: a cursor and at most one token of lookahead. The end of the text is looked ahead to like any
token. A failed read leaves the cursor where the failure was found and nothing looked ahead to.
-/
namespace ScriptLang

def Cursor.read : EStateM Fault Cursor (Option Token) := fun cursor =>
  let cursor := cursor.skipWhile isSpace
  match cursor.rest with
  | [] => .ok none cursor
  | c :: cs =>
    let scanned := scan c cs
    let after := cursor.move scanned.taken scanned.rest
    match scanned.result with
    | .ok lexeme => .ok (some ⟨lexeme, cursor.pos⟩) after
    | .error (.unreadable x) => .error (after.fault (.unreadable x)) after
    | .error .numeralTooLong => .error .numeralTooLong after
    | .error .integerTooLarge => .error (after.fault .integerTooLarge) after

structure Lexer where
  cursor : Cursor
  ahead : Option (Option Token) := none
deriving Inhabited

namespace Lexer

def ofText (text file : String) : Lexer :=
  ⟨.ofText text file, none⟩

def next : EStateM Fault Lexer (Option Token) := fun lexer =>
  match lexer.ahead with
  | some token => .ok token { lexer with ahead := none }
  | none =>
    match Cursor.read lexer.cursor with
    | .ok token cursor => .ok token { lexer with cursor := cursor }
    | .error fault cursor => .error fault { lexer with cursor := cursor }

def peek : EStateM Fault Lexer (Option Token) := fun lexer =>
  match lexer.ahead with
  | some token => .ok token lexer
  | none =>
    match Cursor.read lexer.cursor with
    | .ok token cursor => .ok token { lexer with cursor := cursor, ahead := some token }
    | .error fault cursor => .error fault { lexer with cursor := cursor }

def skipLine (lexer : Lexer) : Lexer :=
  ⟨lexer.cursor.skipWhile (· != '\n'), none⟩

def size (lexer : Lexer) : Nat :=
  lexer.cursor.rest.length + match lexer.ahead with
    | some (some _) => 1
    | _ => 0

def tokensFrom : Nat → Cursor → Except Fault (List Token)
  | 0, _ => .error .unfinished
  | fuel + 1, cursor =>
    match Cursor.read cursor with
    | .error fault _ => .error fault
    | .ok none _ => .ok []
    | .ok (some token) cursor => (token :: ·) <$> tokensFrom fuel cursor

def tokenize (text file : String) : Except Fault (List Token) :=
  let cursor := Cursor.ofText text file
  tokensFrom (cursor.rest.length + 1) cursor

end Lexer
end ScriptLang
