import ScriptLang.Parser.Grammar

/-!
Symbols and notices of a document. The top-level statements that declare a name give symbols, also
in front of an error; the error itself gives one notice. Lines and columns count from 0.
-/
namespace ScriptLang

inductive SymbolKind
  | function
  | variable
  | struct
deriving DecidableEq, Repr

structure Symbol where
  name : String
  kind : SymbolKind
  uri : String
  line : Nat
  detail : String
deriving DecidableEq, Repr

structure Span where
  startLine : Nat
  startCol : Nat
  endLine : Nat
  endCol : Nat
deriving DecidableEq, Repr

structure Notice where
  message : String
  span : Span
deriving DecidableEq, Repr

namespace Symbol

def ofNode? (uri : String) : Node → Option Symbol
  | .function line header _ =>
    some ⟨header.name, .function, uri, line - 1,
      "let " ++ header.name ++ "(" ++ ", ".intercalate header.params ++ ")"⟩
  | .binary line operator (some (.declaration _ name)) _ =>
    if operator = Operator.assign.spelling then
      some ⟨name, .variable, uri, line - 1, "let " ++ name⟩
    else none
  | .struct line name => some ⟨name, .struct, uri, line - 1, "struct " ++ name⟩
  | _ => none

/-- As many characters as the name has, from the start of the symbol's line. -/
def span (s : Symbol) : Span :=
  ⟨s.line, 0, s.line, s.name.length⟩

end Symbol

def Notice.ofDiagnostic (d : Diagnostic) : Notice :=
  let line := ((d.line.getD 1) - 1).toNat
  let col := (d.col.getD 0).toNat
  ⟨d.bare, ⟨line, col, line, col + 1⟩⟩

/-- The notice that a fault gives, for the faults that a text itself can be blamed for. -/
def Notice.ofFault? (p : Parser) : Fault → Option Notice
  | .diagnostic d => some (.ofDiagnostic d)
  | .nesting => some (.ofDiagnostic ⟨.deepText, some p.pos.line, some p.pos.col, some p.file⟩)
  | _ => none

def analyze (nesting : Nat) (uri text : String) : Except Fault (List Symbol × List Notice) :=
  let (nodes, fault, p) := (Parser.ofText text uri).drain nesting
  let symbols := nodes.filterMap (Symbol.ofNode? uri)
  match fault with
  | none => .ok (symbols, [])
  | some fault =>
    match Notice.ofFault? p fault with
    | some notice => .ok (symbols, [notice])
    | none => .error fault

end ScriptLang
