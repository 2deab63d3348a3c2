import ScriptLang.Interpreter
import ScriptLang.Text.Digit

/-!
The command line: what is run for which arguments, and what it prints. Settings come from the
environment; the exit status is 0 unless a script could not be read or ended with a diagnostic.
-/
namespace ScriptLang

structure Settings where
  debug : Option String := none
  maxDepth : Option String := none

namespace CommandLine

def printLine (line : String) : EStateM Fault World Unit :=
  World.write (line ++ "\n")

def usage : List String :=
  ["", "ctlang Interpreter", "", "Usage:", "    ct <script.ct>", "", "Arguments:",
    "    <script.ct>", "        Path to a ctlang source file to execute.", "", "Example:",
    "    ct hello.ct", "", "Options:", "    -h, --help",
    "        Show this help message and exit."]

def printUsage : EStateM Fault World Unit :=
  usage.forM printLine

def isSet (setting : Option String) : Bool :=
  setting.any (· ≠ "")

def bracketed (items : List String) : String :=
  "[" ++ ", ".intercalate items ++ "]"

def tokenLines (tokens : List Token) : List String :=
  ["\nTokens:\n", bracketed (tokens.map Token.listing), "\nAST:\n"]

def treeLines (nodes : List Node) : List String :=
  [bracketed (nodes.map Node.listing), " "]

def ofExcept {α : Type} (result : Except Fault α) : EStateM Fault World α := fun w =>
  match result with
  | .ok a => .ok a w
  | .error fault => .error fault w

def debug (limits : Limits) (code script : String) : EStateM Fault World Unit := do
  let tokens ← ofExcept (Lexer.tokenize code script)
  let nodes ← ofExcept (Parser.parse limits.expressions code script)
  (tokenLines tokens).forM printLine
  if limits.listings < Node.levelsList nodes then throw .nesting
  (treeLines nodes).forM printLine

def defaultDepth : Int := 64

/-- The limit of call depth; a setting that is no integer is told and ignored. -/
def depthLimit (settings : Settings) : EStateM Fault World Int := do
  match settings.maxDepth with
  | none | some "" => return defaultDepth
  | some setting =>
    match Text.readInteger? setting with
    | some n => return n
    | none =>
      printLine ("Ignoring invalid CTMAXDEPTH: " ++ setting)
      return defaultDepth

def execute (host : Host) (code : String) : EStateM Fault World Unit := fun w =>
  match Run.execute host ⟨.ofText code host.file, { world := w }⟩ with
  | .ok _ i => .ok () i.state.world
  | .error fault i => .error fault i.state.world

def runCode (limits : Limits) (settings : Settings) (code script : String) : EStateM Fault World Unit := do
  if isSet settings.debug then debug limits code script
  let limit ← depthLimit settings
  execute { file := script, depthLimit := limit, limits } code

def reporting (steps : EStateM Fault World Unit) : EStateM Fault World Nat := fun w =>
  match steps w with
  | .ok _ w => .ok 0 w
  | .error (.diagnostic d) w =>
    (do printLine (d.family.title ++ ": " ++ d.text); return 1 : EStateM Fault World Nat) w
  | .error fault w => .error fault w

def runScript (limits : Limits) (settings : Settings) (script : String) :
    EStateM Fault World Nat := do
  match ← World.readText script with
  | .error fault =>
    printLine (fault.message script)
    return 1
  | .ok code => reporting (runCode limits settings code script)

def run (limits : Limits) (settings : Settings) : List String → EStateM Fault World Nat
  | [] => do
    printLine "Command line interpreter is not yet implemented."
    printUsage
    return 0
  | ["-h"] | ["--help"] => do
    printUsage
    return 0
  | [script] => runScript limits settings script
  | _ => do
    printUsage
    return 1

end CommandLine
end ScriptLang
