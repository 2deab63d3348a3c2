import ScriptLang.Fault
import ScriptLang.World.Disk

/-!
The world around a running program: standard input, what was written to standard output, and the
files that can be read. What the world does not know yet makes the program wait.
-/
namespace ScriptLang

inductive Reading
  | bytes (contents : List UInt8)
  | refused (fault : PathFault)
  | unknown

structure World where
  /-- Input that was not read yet, with unified line endings. -/
  input : List Char := []
  /-- Bytes behind the input that are no text. -/
  undecodable : Option Text.Utf8.Malformed := none
  /-- Whether more input may still arrive. -/
  inputOpen : Bool := false
  output : String := ""
  /-- The characters that the output has bytes for. -/
  encodes : Char → Bool := fun _ => true
  disk : String → Reading := fun _ => .refused .notFound

instance : Inhabited World := ⟨{}⟩

def Entry.disk (root : Entry) (home : List String) (path : String) : Reading :=
  match root.read home path with
  | .ok contents => .bytes contents
  | .error fault => .refused fault

namespace World

def closed (input : String) (disk : String → Reading) : World :=
  { input := Text.unifyNewlines input.toList, disk := disk }

/-- A text is written as a whole, or not at all. -/
def write (text : String) : EStateM Fault World Unit := fun w =>
  match text.toList.find? fun c => !w.encodes c with
  | some c => .error (.waiting (.encoding c)) w
  | none => .ok () { w with output := w.output ++ text }

/-- Reads one line; `none` at the end of the input. A line that goes on with bytes that are no text is
lost with them. -/
def readLine : EStateM Fault World (Option String) := fun w =>
  let (line, rest) := Text.firstLine w.input
  if line.getLast? = some '\n' then .ok (some (String.ofList line)) { w with input := rest }
  else match w.undecodable with
    | some m => .error (.waiting (.decoding m)) { w with input := rest, undecodable := none }
    | none =>
      if w.input.isEmpty then
        if w.inputOpen then .error (.waiting .line) w else .ok none w
      else .ok (some (String.ofList line)) { w with input := rest }

def readText (path : String) : EStateM Fault World (Except FileFault String) := fun w =>
  match w.disk path with
  | .bytes contents => .ok (textOfBytes contents) w
  | .refused fault => .ok (.error (.path fault)) w
  | .unknown => .error (.waiting (.file path)) w

end World
end ScriptLang
