import ScriptLang.Limits
import ScriptLang.Server.Index
import ScriptLang.Server.Uri
import ScriptLang.Text.Word
import ScriptLang.World.Disk

/-!
A server for editors: it keeps open documents, indexes them and the script files of the workspace,
and answers what is declared where. The workspace is indexed when a symbol is first looked up.
-/
namespace ScriptLang

structure Server where
  /-- The tree of directories, and the names on the way to the current one. -/
  tree : Entry := .directory []
  home : List String := []
  /-- The names on the way to the directory of the workspace, if there is one. -/
  root : Option (List String) := none
  texts : Table String := {}
  index : Index := {}
  indexed : Bool := false
  limits : Limits := .standard

inductive RequestFault
  | analysis (fault : Fault)
  | file (fault : FileFault)
  | address (fault : Authority.Fault)
  | notOpen (uri : String)

abbrev Request := EStateM RequestFault Server

namespace Request

def update (uri text : String) : Request (List Notice) := fun s =>
  match s.index.update s.limits.expressions uri text with
  | .ok (notices, index) => .ok notices { s with index := index }
  | .error fault => .error (.analysis fault) s

def pathOf (uri : String) : Request String :=
  match Uri.toPath uri with
  | .ok path => return path
  | .error fault => throw (.address fault)

def openDocument (uri text : String) : Request (List Notice) := do
  let _ ← pathOf uri
  modify fun s => { s with texts := s.texts.insert uri text }
  update uri text

def changeDocument (uri text : String) : Request (List Notice) := do
  if !(← get).texts.contains uri then throw (.notOpen uri)
  openDocument uri text

def isScript (path : List String) : Bool :=
  path.getLast?.any fun name => ".ct".toList.isSuffixOf name.toList

/-- Indexes the scripts among some files that are not indexed yet; those that are no text are left
out. -/
def indexFiles : List (String × List UInt8) → Request Unit
  | [] => return ()
  | (path, contents) :: files => do
    let uri := Uri.ofPath path
    if !(← get).index.documents.contains uri then
      match textOfBytes contents with
      | .ok text => let _ ← update uri text
      | .error _ => pure ()
    indexFiles files

def scripts (tree : Entry) (root : List String) : List (String × List UInt8) :=
  match tree.walk [] root with
  | .ok entry => (entry.files.filter fun file => isScript file.1).map fun (path, contents) =>
      ("/" ++ "/".intercalate (root ++ path), contents)
  | .error _ => []

def indexWorkspace : Request Unit := do
  let s ← get
  match s.root with
  | none => pure ()
  | some root => indexFiles (scripts s.tree root)
  modify fun s => { s with indexed := true }

def lookup (uri name : String) : Request (Option Symbol) := do
  if !(← get).indexed then indexWorkspace
  return (← get).index.lookup uri name

def textAt (path : String) : Request String := fun s =>
  match s.tree.read s.home path with
  | .error fault => .error (.file (.path fault)) s
  | .ok contents =>
    match textOfBytes contents with
    | .ok text => .ok text s
    | .error fault => .error (.file fault) s

def textOf (uri : String) : Request String := do
  match (← get).texts.find? uri with
  | some text => return text
  | none => textAt (← pathOf uri)

def symbolAt (uri : String) (line char : Nat) : Request (Option Symbol) := do
  let word := Text.wordAt (← textOf uri) line char
  if word = "" then return none
  lookup uri word

def documentSymbols (uri : String) : Request (List Symbol) := do
  return (← get).index.symbolsOf uri

end Request
end ScriptLang
