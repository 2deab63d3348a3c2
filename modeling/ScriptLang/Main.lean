import ScriptLang.CommandLine

/-!
The program. The pure command line is run against the part of the world that is known; when it waits
for a line or a file, that much is fetched and the run is repeated with it. Output is written as soon
as a run gets past it. Standard input is taken as UTF-8, and so is standard output, which has bytes for
every character.
-/
namespace ScriptLang

structure Known where
  files : List (String × Reading) := []
  input : List Char := []
  undecodable : Option Text.Utf8.Malformed := none
  inputClosed : Bool := false

def Known.world (known : Known) : World :=
  { input := known.input
    undecodable := known.undecodable
    inputOpen := !known.inputClosed
    disk := fun path => (known.files.lookup path).getD .unknown }

def refusal (number : UInt32) : PathFault :=
  let code := if number < 0x80000000 then number else 0 - number
  if code = 2 then .notFound
  else if code = 20 then .notDirectory
  else if code = 21 then .isDirectory
  else if code = 36 then .nameTooLong
  else .denied

def readingOf (error : IO.Error) : Reading :=
  match error with
  | .noFileOrDirectory _ code _ | .inappropriateType _ code _ | .invalidArgument _ code _
  | .permissionDenied _ code _ | .resourceExhausted _ code _ => .refused (refusal code)
  | _ => .refused .denied

def fetchFile (path : String) : IO Reading := do
  if path.toList.contains '\x00' then return .refused .nullByte
  if path = "" then return .refused .notFound
  try
    return .bytes (← IO.FS.readBinFile path).toList
  catch error => return readingOf error

def fetchLine : IO (List UInt8) := do
  let stdin ← IO.getStdin
  let mut line : List UInt8 := []
  while true do
    match (← stdin.read 1).toList with
    | [] => return line
    | b :: _ =>
      line := line ++ [b]
      if b = 10 then return line
  return line

/-- Learns a line of input. Bytes that are no text end the input behind what comes before them. -/
def Known.learnLine (known : Known) : IO Known := do
  match ← fetchLine with
  | [] => return { known with inputClosed := true }
  | bytes =>
    match Text.Utf8.decode bytes with
    | .ok line => return { known with input := known.input ++ Text.unifyNewlines line }
    | .error m => return { known with undecodable := some m }

def Known.learnFile (known : Known) (path : String) : IO Known := do
  return { known with files := (path, ← fetchFile path) :: known.files }

def showFrom (shown : Nat) (output : String) : IO Unit := do
  let out ← IO.getStdout
  out.putStr (String.ofList (output.toList.drop shown))
  out.flush

end ScriptLang

open ScriptLang in
def main (args : List String) : IO UInt32 := do
  let settings : Settings :=
    { debug := ← IO.getEnv "CTDEBUG", maxDepth := ← IO.getEnv "CTMAXDEPTH" }
  let mut known : Known := {}
  let mut shown := 0
  while true do
    match CommandLine.run .standard settings args known.world with
    | .ok status world =>
      showFrom shown world.output
      return UInt32.ofNat status
    | .error (.waiting .line) world =>
      showFrom shown world.output
      shown := max shown world.output.length
      known ← known.learnLine
    | .error (.waiting (.file path)) world =>
      showFrom shown world.output
      shown := max shown world.output.length
      known ← known.learnFile path
    | .error fault world =>
      showFrom shown world.output
      (← IO.getStderr).putStrLn fault.message
      return 1
  return 1
