import ScriptLang.Evaluator.Evaluate
import ScriptLang.Parser.Grammar

/-!
Interpreters. A program is run one statement at a time: each is evaluated before the next is parsed.
An interpreter can be run again; it goes on where its parser stands.
-/
namespace ScriptLang

structure Interpreter where
  parser : Parser
  state : State := {}

abbrev Run := EStateM Fault Interpreter

namespace Run
variable {α : Type}

def ofParse (step : Parse α) : Run α := fun i =>
  match step i.parser with
  | .ok a parser => .ok a { i with parser := parser }
  | .error fault parser => .error fault { i with parser := parser }

def ofEval (step : Eval α) : Run α := fun i =>
  match step i.state with
  | .ok a state => .ok a { i with state := state }
  | .error fault state => .error fault { i with state := state }

def nextStatement (host : Host) : Run (Option Node) :=
  ofParse (Parse.next host.limits.expressions)

def evaluate (host : Host) (node : Node) : Run Outcome :=
  ofEval (Eval.evaluate host host.limits.evaluations node)

/-- Runs the statements that are left; `last` is the value of the one before. A `return` ends the
run with its value. -/
def statements (host : Host) : Nat → Value → Run Value
  | 0, _ => throw .unfinished
  | fuel + 1, last => do
    match ← nextStatement host with
    | none => return last
    | some node =>
      match ← evaluate host node with
      | .returning value => return value
      | outcome => statements host fuel outcome.value

/-- Runs the program; one that nests too deeply ends with a diagnostic. -/
def execute (host : Host) : Run Value := fun i =>
  match statements host (i.parser.size + 1) .nothing i with
  | .error .nesting i => .error (.diagnostic ⟨.deepProgram, none, none, some host.file⟩) i
  | result => result

end Run
end ScriptLang
