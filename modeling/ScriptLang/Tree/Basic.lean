import ScriptLang.Number.Binary64

/-!
Syntax trees. A program is a list of nodes; every node knows the line it starts on. A binary node
may lack an operand when it is built by hand, and evaluation rejects it; trees that come from the
parser never do.
-/
namespace ScriptLang

inductive Literal
  | text (s : String)
  | boolean (b : Bool)
  | integer (n : Nat)
  | float (x : Binary64)
deriving DecidableEq, Repr, Inhabited

structure Header where
  line : Nat
  name : String
  params : List String
  returnType : String := "any"
deriving DecidableEq, Repr, Inhabited

mutual

inductive Node
  | literal (line : Nat) (value : Literal)
  | binary (line : Nat) (operator : String) (left right : Option Node)
  | reference (line : Nat) (name : String)
  | declaration (line : Nat) (name : String)
  | call (line : Nat) (name : String) (args : List Node)
  | member (line : Nat) (receiver attr : String)
  | memberCall (line : Nat) (receiver attr : String) (args : List Node)
  | function (line : Nat) (header : Header) (body : List Node)
  | conditional (line : Nat) (branches : List Branch)
  | loop (line : Nat) (condition : Node) (body : List Node)
  | returning (line : Nat) (value : Option Node)
  | breaking (line : Nat)
  | continuing (line : Nat)
  | struct (line : Nat) (name : String)

/-- A condition and the statements it guards; a last `else` has the condition `true`. -/
inductive Branch
  | mk (line : Nat) (condition : Node) (body : List Node)

end

instance : Inhabited Node := ⟨.breaking 0⟩
instance : Inhabited Branch := ⟨.mk 0 default []⟩

namespace Branch

def line : Branch → Nat
  | mk line _ _ => line

def condition : Branch → Node
  | mk _ condition _ => condition

def body : Branch → List Node
  | mk _ _ body => body

end Branch

namespace Node

def line : Node → Nat
  | literal line _ | binary line _ _ _ | reference line _ | declaration line _ | call line _ _
  | member line _ _ | memberCall line _ _ _ | function line _ _ | conditional line _
  | loop line _ _ | returning line _ | breaking line | continuing line | struct line _ => line

def label : Node → String
  | literal _ (.text _) => "StringLiteral"
  | literal _ (.boolean _) => "BooleanLiteral"
  | literal _ (.integer _) => "IntegerLiteral"
  | literal _ (.float _) => "FloatLiteral"
  | binary .. => "Binary"
  | reference .. => "VariableReference"
  | declaration .. => "Declaration"
  | call .. => "FunctionCall"
  | member .. | memberCall .. => "StructureCall"
  | function .. => "FunctionDef"
  | conditional .. => "IfChain"
  | loop .. => "WhileLoop"
  | returning .. => "Return"
  | breaking .. => "Break"
  | continuing .. => "Continue"
  | struct .. => "StructDecl"

end Node

structure Function where
  line : Nat
  header : Header
  body : List Node
deriving Inhabited

namespace Function

def name (f : Function) : String := f.header.name

def params (f : Function) : List String := f.header.params

def toNode (f : Function) : Node :=
  .function f.line f.header f.body

def empty (name returnType : String) : Function :=
  ⟨0, ⟨0, name, [], returnType⟩, []⟩

end Function
end ScriptLang
