import ScriptLang.Table
import ScriptLang.Value
import ScriptLang.World.Basic

/-!
Native functions: what a program can ask of the world around it. Bad arguments do not stop a
program; they make a native answer with a failure value.
-/
namespace ScriptLang

abbrev Native := List Value → EStateM Fault World Value

/-- Fills a format: a pair of braces stands for the next value, a doubled brace for itself. Values
that no pair asks for are left out, pairs without a value stay empty. -/
def fillFormat : List Char → List Value → List Char
  | [], _ => []
  | '{' :: '}' :: cs, [] => fillFormat cs []
  | '{' :: '}' :: cs, v :: vs => v.display.toList ++ fillFormat cs vs
  | '{' :: '{' :: cs, vs => '{' :: fillFormat cs vs
  | '}' :: '}' :: cs, vs => '}' :: fillFormat cs vs
  | c :: cs, vs => c :: fillFormat cs vs

/-- The text that values print as: a text comes first as a format, any other value alone. -/
def printed : List Value → String
  | [] => ""
  | .text format :: values => String.ofList (fillFormat format.toList values)
  | value :: _ => value.display

namespace Native

def print : Native := fun args => do
  World.write (printed args)
  return .nothing

def input : Native := fun args => do
  World.write (printed args)
  match ← World.readLine with
  | none => return .failure "Unable to read input"
  | some line => return .text (Text.trim line)

def readFile : Native
  | [.nothing] => return .failure "Not enough arguments provided"
  | [.text path] => do
    match ← World.readText path with
    | .ok text => return .text text
    | .error fault => return .failure (fault.message path)
  | [value] =>
    pure (.failure ("Expected file name to be of type string, but received: " ++ value.display))
  | _ => return .failure "Not enough arguments provided"

def length : Native
  | [.nothing] => return .failure "Not enough arguments provided"
  | [.text s] => return .integer s.length
  | [value] => pure (.failure
    ("Expected structure that has function length, but received: " ++ value.display))
  | _ => return .failure "Not enough arguments provided"

def standard : Table Native :=
  .ofList [("print", print), ("input", input), ("flush", print), ("read_file", readFile),
    ("len", length)]

end Native
end ScriptLang
