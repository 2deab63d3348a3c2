import ScriptLang.Text.Newline
import ScriptLang.Text.Quoted
import ScriptLang.Text.Utf8

/-!
Files. A tree of directories answers what opening a path gives; text files are UTF-8, and their line
endings are unified after decoding.
-/
namespace ScriptLang

inductive Entry
  | file (bytes : List UInt8)
  | directory (entries : List (String × Entry))

inductive PathFault
  | notFound
  | notDirectory
  | isDirectory
  | nameTooLong
  | nullByte
  | denied
deriving DecidableEq, Repr

inductive FileFault
  | path (fault : PathFault)
  | malformed (m : Text.Utf8.Malformed)
deriving DecidableEq, Repr

def PathFault.message (path : String) : PathFault → String
  | notFound => "[Errno 2] No such file or directory: " ++ Text.quote path
  | notDirectory => "[Errno 20] Not a directory: " ++ Text.quote path
  | isDirectory => "[Errno 21] Is a directory: " ++ Text.quote path
  | nameTooLong => "[Errno 36] File name too long: " ++ Text.quote path
  | nullByte => "embedded null byte"
  | denied => "[Errno 13] Permission denied: " ++ Text.quote path

def FileFault.message (path : String) : FileFault → String
  | .path fault => fault.message path
  | .malformed m => m.message

namespace Entry

def nameLimit : Nat := 255
def pathLimit : Nat := 4095

/-- The names that a path goes through. A slash at the end asks for a directory, as `.` does. -/
def steps (path : String) : List String :=
  let names := (path.splitOn "/").filter (· ≠ "")
  if path.toList.getLast? = some '/' then names ++ ["."] else names

/-- Follows names from an entry; `above` are the directories around it, the nearest first. -/
def walk (entry : Entry) (above : List Entry) : List String → Except PathFault Entry
  | [] => .ok entry
  | name :: names =>
    match entry with
    | file _ => .error .notDirectory
    | directory entries =>
      if name = "." then walk entry above names
      else if name = ".." then
        match above with
        | [] => walk entry [] names
        | parent :: rest => walk parent rest names
      else if nameLimit < name.utf8ByteSize then .error .nameTooLong
      else match entries.lookup name with
        | none => .error .notFound
        | some next => walk next (entry :: above) names

/-- What a path names, seen from the directory `home` below the root. -/
def resolve (root : Entry) (home : List String) (path : String) : Except PathFault Entry :=
  if path.toList.contains '\x00' then .error .nullByte
  else if path = "" then .error .notFound
  else if pathLimit < path.utf8ByteSize then .error .nameTooLong
  else if path.toList.head? = some '/' then walk root [] (steps path)
  else walk root [] (home ++ steps path)

def read (root : Entry) (home : List String) (path : String) : Except PathFault (List UInt8) := do
  match ← root.resolve home path with
  | file bytes => return bytes
  | directory _ => throw .isDirectory

mutual

def files : Entry → List (List String × List UInt8)
  | file bytes => [([], bytes)]
  | directory entries => filesIn entries

def filesIn : List (String × Entry) → List (List String × List UInt8)
  | [] => []
  | (name, entry) :: rest => (files entry).map (fun (path, b) => (name :: path, b)) ++ filesIn rest

end

def insert (leaf : Entry) : List String → List (String × Entry) → List (String × Entry)
  | [], entries => entries
  | [name], entries =>
    match leaf, entries.lookup name with
    | directory [], some _ => entries
    | _, _ => (name, leaf) :: entries.filter (·.1 ≠ name)
  | name :: names, entries =>
    let inner := match entries.lookup name with
      | some (directory es) => es
      | _ => []
    (name, directory (insert leaf names inner)) :: entries.filter (·.1 ≠ name)

end Entry

def textOfBytes (bytes : List UInt8) : Except FileFault String :=
  match Text.Utf8.decode bytes with
  | .ok cs => .ok (String.ofList (Text.unifyNewlines cs))
  | .error m => .error (.malformed m)

end ScriptLang
