import ScriptLang.Text.Blank
import ScriptLang.Text.Position
import ScriptLang.Text.Utf8

/-!
Faults. A diagnostic is a fatal error of the language: a cause and the place it was found at. The
other faults come from the limits of the machine that runs the program. Each text has its one place
in `Cause.message` or `Fault.message`.
-/
namespace ScriptLang

/-- The kinds of diagnostics; the last five report errors of evaluation. -/
inductive Family
  | general
  | lexical
  | grammatical
  | evaluation
  | undefinedName
  | unknownOperator
  | arity
  | callDepth
deriving DecidableEq, Repr, Inhabited

def Family.ofEvaluation : Family → Bool
  | general | lexical | grammatical => false
  | _ => true

def Family.title : Family → String
  | general => "CtException"
  | lexical => "LexerException"
  | grammatical => "ParserException"
  | evaluation => "EvaluationException"
  | undefinedName => "UndefinedVariableException"
  | unknownOperator => "UnknownOpException"
  | arity => "ArityException"
  | callDepth => "CallDepthException"

inductive Cause
  -- a diagnostic whose text comes from its maker
  | stated (family : Family) (text : String)
  -- characters
  | unreadable (c : Char)
  | integerTooLarge
  -- grammar
  | unexpected (found : String)
  | expected (mark found : String)
  | operandMissing (before : String)
  | argumentMissing
  | conditionMissing
  | attributeExpected (found : String)
  | variableMissing
  | variableExpected (found : String)
  | parameterExpected (function : String)
  | ifExpected
  | forLoop
  | structNameExpected (found : String)
  | structBody (name : String)
  | deepText
  -- evaluation
  | undefinedName (kind name : String)
  | unassigned (name : String)
  | functionExists (name : String)
  | notEvaluable (form : String)
  | signalAsValue (signal : String)
  | incomplete (expression : String)
  | notAssignable (target value : String)
  | unknownOperator (operator left right : String)
  | overflow (operator : String) (left right : Int)
  | divisionByZero
  | moduloByZero
  | notCallable (name : String)
  | arity (name : String) (expected received : Int)
  | callDepth (limit : Int)
  | unknownStruct (type expression : String)
  | notBoolean (statement value : String)
  | deepProgram
deriving DecidableEq, Repr, Inhabited

namespace Cause

def family : Cause → Family
  | stated f _ => f
  | unreadable _ | integerTooLarge => .lexical
  | unexpected _ | expected .. | operandMissing _ | argumentMissing | conditionMissing
  | attributeExpected _ | variableMissing | variableExpected _ | parameterExpected _ | ifExpected
  | forLoop | structNameExpected _ | structBody _ | deepText => .grammatical
  | undefinedName .. => .undefinedName
  | unknownOperator .. => .unknownOperator
  | arity .. => .arity
  | callDepth _ => .callDepth
  | unassigned _ | functionExists _ | notEvaluable _ | signalAsValue _ | incomplete _
  | notAssignable .. | overflow .. | divisionByZero | moduloByZero | notCallable _
  | unknownStruct .. | notBoolean .. | deepProgram => .evaluation

def arityText (name wanted received : String) : String :=
  s!"Function '{name}' expects {wanted} argument(s) but received {received}"

def callDepthText (limit : String) : String :=
  s!"Maximum call depth of {limit} exceeded"

def message : Cause → String
  | stated _ text => text
  | unreadable c => s!"Cannot identify: {c}"
  | integerTooLarge => "Expected an integer"
  | unexpected found => s!"Unable to parse: {found}"
  | expected mark found => s!"Expected '{mark}', but received {found}"
  | operandMissing before => s!"Expected an expression after '{before}'"
  | argumentMissing => "Invalid parameter in function arguments"
  | conditionMissing => "Expected a condition"
  | attributeExpected found =>
    s!"Expected structure attribute to be an identifier, but received: {found}"
  | variableMissing => "Expected variable name, found end of input"
  | variableExpected found => s!"Expected variable name, found: {found}"
  | parameterExpected function => s!"Expected a parameter name in the definition of '{function}'"
  | ifExpected => "Expected 'if' identifier after 'else' identifier"
  | forLoop => "'for' loops are not supported"
  | structNameExpected found => s!"Expected a name after 'struct' keyword, but received {found}"
  | structBody name => s!"Struct '{name}' must have an empty body"
  | deepText => "Program nests too deeply to parse"
  | undefinedName kind name => s!"Unknown {kind} '{name}'"
  | unassigned name => s!"Declaration of '{name}' must be assigned a value"
  | functionExists name => s!"Function already exists: {name}"
  | notEvaluable form => s!"Unable to evaluate: {form}"
  | signalAsValue signal => s!"'{signal}' cannot be used as a value"
  | incomplete expression => s!"Unable to parse binary expression: {expression}"
  | notAssignable target value =>
    s!"Unable to assign right hand value to left hand variable: {target} = {value}"
  | unknownOperator operator left right =>
    Text.trim s!"Unknown operator expression: {left} {operator} {right}"
  | overflow operator left right => s!"Integer overflow: {left} {operator} {right}"
  | divisionByZero => "Division by zero"
  | moduloByZero => "Modulo by zero"
  | notCallable name => s!"Unable to execute function: {name}"
  | arity name wanted received => arityText name (toString wanted) (toString received)
  | callDepth limit => callDepthText (toString limit)
  | unknownStruct type expression => s!"Unknown structure '{type}' for {expression}"
  | notBoolean statement value =>
    s!"Expected boolean expression inside {statement} statement, but received: {value}"
  | deepProgram => "Program nests too deeply for the host interpreter"

end Cause

structure Site where
  line : Option Int
  file : String
deriving DecidableEq, Repr, Inhabited

structure Diagnostic where
  cause : Cause
  line : Option Int := none
  col : Option Int := none
  file : Option String := none
deriving DecidableEq, Repr, Inhabited

namespace Diagnostic

def family (d : Diagnostic) : Family :=
  d.cause.family

def bare (d : Diagnostic) : String :=
  d.cause.message

/-- How a place is told behind a text: a column only together with its line. -/
def placeText (line col file : Option String) : String :=
  let place := match line, col with
    | some line, some col => s!" (line: {line}, col: {col})"
    | some line, none => s!" on line {line}"
    | none, _ => ""
  place ++ file.elim "" (" in " ++ ·)

def text (d : Diagnostic) : String :=
  d.bare ++ placeText (d.line.map toString) (d.col.map toString) d.file

end Diagnostic

/-- What a running program needs of the world around it: more of the input or a file, which may not be
known yet, a text for what was read, and room in the output's encoding for a character. -/
inductive Need
  | line
  | file (path : String)
  | decoding (m : Text.Utf8.Malformed)
  | encoding (c : Char)
deriving DecidableEq, Repr

def Need.message : Need → String
  | line | file _ => "waiting"
  | decoding m => m.message
  | encoding c => "can't encode character " ++ Text.quote c.toString

inductive Fault
  | diagnostic (d : Diagnostic)
  /-- Reading a character behind the last one. -/
  | endOfText
  /-- An integer numeral with more digits than are ever converted. -/
  | numeralTooLong
  /-- The remainder of an infinite number. -/
  | remainderDomain
  /-- An integer beyond all finite floating-point numbers, where one is needed. -/
  | beyondFloats
  /-- More nested forms or evaluations than the machine has room for. -/
  | nesting
  /-- Taking the last scope off a chain. -/
  | lastScope
  /-- A loop that did not end within its bound. -/
  | unfinished
  /-- The world does not give the program what it needs, or not yet. -/
  | waiting (need : Need)
deriving DecidableEq, Repr

namespace Fault

def message : Fault → String
  | diagnostic d => d.text
  | endOfText => "string index out of range"
  | numeralTooLong => "Exceeds the limit for integer string conversion"
  | remainderDomain => "math domain error"
  | beyondFloats => "int too large to convert to float"
  | nesting => "nested too deeply"
  | lastScope => "Cannot pop the global scope"
  | unfinished => "not finished"
  | waiting need => need.message

def atPosition (cause : Cause) (pos : Position) (file : String) : Fault :=
  diagnostic ⟨cause, some pos.line, some pos.col, some file⟩

def atSite (cause : Cause) (site : Site) : Fault :=
  diagnostic ⟨cause, site.line, none, some site.file⟩

end Fault
end ScriptLang
