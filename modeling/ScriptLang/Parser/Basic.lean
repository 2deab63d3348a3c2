import ScriptLang.Lexer.Basic
import ScriptLang.Operator

/-!
Parsers and their handling of tokens. A parser sees the significant tokens only: a token that begins
with two slashes opens a comment, which lasts to the end of its line. Faults keep the state they
were found in, so parsing can go on after one.
-/
namespace ScriptLang

structure Parser where
  lexer : Lexer
  needsSemicolon : Bool := true
deriving Inhabited

namespace Parser

def ofText (text file : String) : Parser :=
  ⟨.ofText text file, true⟩

def pos (p : Parser) : Position :=
  p.lexer.cursor.pos

def file (p : Parser) : String :=
  p.lexer.cursor.file

def size (p : Parser) : Nat :=
  p.lexer.size

/-- Where a diagnostic is placed: at the token looked ahead to, else at the cursor. -/
def place (p : Parser) : Position :=
  match p.lexer.ahead with
  | some (some token) => token.pos
  | _ => p.pos

end Parser

abbrev Parse := EStateM Fault Parser

namespace Parse

def ofLexer {α : Type} (step : EStateM Fault Lexer α) : Parse α := fun p =>
  match step p.lexer with
  | .ok a lexer => .ok a { p with lexer := lexer }
  | .error fault lexer => .error fault { p with lexer := lexer }

def refuse {α : Type} (cause : Cause) : Parse α := fun p =>
  .error (.atPosition cause p.place p.file) p

def setSemicolon (needed : Bool) : Parse Unit := fun p =>
  .ok () { p with needsSemicolon := needed }

/-- Drops the comment that comes next and, up to `fuel` in all, those that follow it; then looks at
the next token. -/
def skipComments : Nat → Parse (Option Token)
  | 0 => throw .unfinished
  | fuel + 1 => do
    modify fun p => { p with lexer := p.lexer.skipLine }
    let token ← ofLexer Lexer.peek
    if token.any (·.lexeme.isComment) then skipComments fuel else return token

def peek : Parse (Option Token) := do
  let token ← ofLexer Lexer.peek
  if token.any (·.lexeme.isComment) then skipComments ((← get).size + 1) else return token

def advance : Parse (Option Token) := do
  let _ ← peek
  ofLexer Lexer.next

def atMark (c : Char) : Parse Bool := do
  return (← peek).any (·.lexeme == .punctuation c)

def atName (name : String) : Parse Bool := do
  return (← peek).any (·.lexeme == .identifier name)

def found (token : Option Token) : String :=
  match token with
  | some t => t.lexeme.shown
  | none => "end of input"

def missing {α : Type} (mark : String) : Parse α := do
  refuse (.expected mark (found (← peek)))

def skip (c : Char) : Parse Unit := do
  if ← atMark c then
    let _ ← advance
  else missing c.toString

structure Ahead where
  spelling : String
  power : Nat
  line : Nat

def operatorAhead : Parse (Option Ahead) := do
  match ← peek with
  | some ⟨.operator s, pos⟩ => return (Operator.power? s).map fun power => ⟨s, power, pos.line⟩
  | _ => return none

end Parse
end ScriptLang
