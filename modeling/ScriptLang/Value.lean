import ScriptLang.Tree.Listing

/-!
Runtime values, their type names and their texts. A quoted value is a piece of syntax that a host
hands in; it is evaluated as code wherever a value is evaluated again.
-/
namespace ScriptLang

inductive Quoted
  | node (n : Node)
  | branch (b : Branch)
  | header (h : Header)

inductive Value
  | nothing
  | boolean (b : Bool)
  | integer (n : Int)
  | float (x : Binary64)
  | text (s : String)
  | failure (message : String)
  | function (f : Function)
  | quoted (q : Quoted)

instance : Inhabited Value := ⟨.nothing⟩

def Quoted.listing : Quoted → String
  | node n => n.listing
  | branch b => b.listing
  | header h => h.listing

def Quoted.formatted : Quoted → String
  | node n => n.formatted
  | branch _ => "<Branch>"
  | header _ => "<FunctionHeader>"

namespace Value

def ofLiteral : Literal → Value
  | .text s => text s
  | .boolean b => boolean b
  | .integer n => integer n
  | .float x => float x

def ofNode : Node → Value
  | .function line header body => function ⟨line, header, body⟩
  | node => quoted (.node node)

/-- The name of a value's type, under which structs serve it. -/
def typeName : Value → String
  | boolean _ => "bool"
  | integer _ => "int"
  | float _ => "float"
  | text _ => "String"
  | function _ => "fun"
  | failure _ => "err"
  | nothing | quoted _ => "null"

def display : Value → String
  | nothing => "None"
  | boolean b => if b then "true" else "false"
  | integer n => toString n
  | float x => x.display
  | text s => s
  | failure message => "Error(\"" ++ message ++ "\")"
  | function f => "<fun " ++ f.name ++ ">"
  | quoted q => q.listing

/-- The bare text of a value: like `display`, but for truth values and floats. -/
def bare : Value → String
  | boolean b => if b then "True" else "False"
  | float x => x.text
  | v => v.display

def listing : Value → String
  | text s => Text.quote s
  | failure message => "ErrorValue(message=" ++ Text.quote message ++ ")"
  | function f => f.toNode.listing
  | v => v.bare

def formatted : Value → String
  | function _ => "<FunctionDef>"
  | quoted q => q.formatted
  | v => v.display

end Value
end ScriptLang
