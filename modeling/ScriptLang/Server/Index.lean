import ScriptLang.Server.Symbol
import ScriptLang.Table

/-!
The index of symbols: for each document the symbols of its latest text, the documents in the order in
which they were first indexed; and for each name the symbols of all documents. The latter are listed
anew whenever a document changes.
-/
namespace ScriptLang

structure Index where
  documents : Table (List Symbol) := {}
  globals : Table (List Symbol) := {}

namespace Index

def symbolsOf (index : Index) (uri : String) : List Symbol :=
  (index.documents.find? uri).getD []

def record (globals : Table (List Symbol)) (symbol : Symbol) : Table (List Symbol) :=
  globals.insert symbol.name ((globals.find? symbol.name).getD [] ++ [symbol])

/-- The symbols of some documents by name: by document and then in source order. -/
def globalsOf (documents : Table (List Symbol)) : Table (List Symbol) :=
  documents.entries.foldl (fun globals document => document.2.foldl record globals) {}

def named (index : Index) (name : String) : List Symbol :=
  (index.globals.find? name).getD []

def update (index : Index) (nesting : Nat) (uri text : String) : Except Fault (List Notice × Index) := do
  let (symbols, notices) ← analyze nesting uri text
  let documents := index.documents.insert uri symbols
  return (notices, ⟨documents, globalsOf documents⟩)

/-- The symbol of a name: one of the document `uri` before any other. -/
def lookup (index : Index) (uri name : String) : Option Symbol :=
  let found := index.named name
  (found.find? (·.uri = uri)).or found.head?

def sorted (names : List String) : List String :=
  names.mergeSort (fun a b => decide (a ≤ b))

def uris (index : Index) : List String :=
  sorted index.documents.names

def names (index : Index) : List String :=
  sorted index.globals.names

end Index
end ScriptLang
