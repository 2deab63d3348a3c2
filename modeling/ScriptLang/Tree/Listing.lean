import ScriptLang.Number.Numeral
import ScriptLang.Text.Quoted
import ScriptLang.Tree.Basic

/-!
Two texts of a tree. The listing names every constructor and field, lines aside; it is made for trees
of a limited number of levels only. The formatted form is close to source and stands in diagnostics.
-/
namespace ScriptLang

def tuple : List String → String
  | [] => "()"
  | [x] => "(" ++ x ++ ",)"
  | xs => "(" ++ ", ".intercalate xs ++ ")"

namespace Literal

def listing : Literal → String
  | text s => Text.quote s
  | boolean b => if b then "True" else "False"
  | integer n => Nat.repr n
  | float x => x.text

end Literal

def Binary64.display (x : Binary64) : String :=
  match x.toInt? with
  | some n => toString n
  | none => x.text

def Literal.formatted : Literal → String
  | text s => Text.quote s
  | boolean b => if b then "true" else "false"
  | integer n => Nat.repr n
  | float x => x.display

def Header.listing (h : Header) : String :=
  "FunctionHeader(name=" ++ Text.quote h.name ++ ", params=" ++ tuple (h.params.map Text.quote) ++
    ", return_type=" ++ Text.quote h.returnType ++ ")"

mutual

def Node.listing : Node → String
  | .literal _ (.text s) => "StringLiteral(value=" ++ Text.quote s ++ ")"
  | .literal _ (.boolean b) => "BooleanLiteral(value=" ++ (Literal.boolean b).listing ++ ")"
  | .literal _ (.integer n) => "IntegerLiteral(value=" ++ Nat.repr n ++ ")"
  | .literal _ (.float x) => "FloatLiteral(value=" ++ x.text ++ ")"
  | .binary _ operator left right =>
    "Binary(operator=" ++ Text.quote operator ++ ", left=" ++ Node.listingOption left ++ ", right=" ++
      Node.listingOption right ++ ")"
  | .reference _ name => "VariableReference(name=" ++ Text.quote name ++ ")"
  | .declaration _ name => "Declaration(name=" ++ Text.quote name ++ ", type_tag='any')"
  | .call _ name args =>
    "FunctionCall(name=" ++ Text.quote name ++ ", args=" ++ tuple (Node.listings args) ++ ")"
  | .member _ receiver attr =>
    "StructureCall(name=" ++ Text.quote receiver ++ ", attribute=" ++ Text.quote attr ++
      ", args=None)"
  | .memberCall _ receiver attr args =>
    "StructureCall(name=" ++ Text.quote receiver ++ ", attribute=" ++ Text.quote attr ++
      ", args=" ++ tuple (Node.listings args) ++ ")"
  | .function _ header body =>
    "FunctionDef(header=" ++ header.listing ++ ", body=" ++ tuple (Node.listings body) ++ ")"
  | .conditional _ branches => "IfChain(branches=" ++ tuple (Node.branchListings branches) ++ ")"
  | .loop _ condition body =>
    "WhileLoop(condition=" ++ condition.listing ++ ", body=" ++ tuple (Node.listings body) ++ ")"
  | .returning _ value => "Return(value=" ++ Node.listingOption value ++ ")"
  | .breaking _ => "Break()"
  | .continuing _ => "Continue()"
  | .struct _ name => "StructDecl(name=" ++ Text.quote name ++ ")"

def Node.listingOption : Option Node → String
  | none => "None"
  | some node => node.listing

def Node.listings : List Node → List String
  | [] => []
  | node :: nodes => node.listing :: Node.listings nodes

def Branch.listing : Branch → String
  | .mk _ condition body =>
    "Branch(condition=" ++ condition.listing ++ ", body=" ++ tuple (Node.listings body) ++ ")"

def Node.branchListings : List Branch → List String
  | [] => []
  | branch :: branches => branch.listing :: Node.branchListings branches

end

mutual

/-- How many levels the listing of a tree has, one inside the other. -/
def Node.levels : Node → Nat
  | .literal .. | .reference .. | .declaration .. | .member .. | .breaking _ | .continuing _
  | .struct .. => 1
  | .binary _ _ left right => 1 + max (Node.levelsOption left) (Node.levelsOption right)
  | .call _ _ args | .memberCall _ _ _ args => 1 + Node.levelsList args
  | .function _ _ body => 1 + max 1 (Node.levelsList body)
  | .conditional _ branches => 1 + Node.branchLevels branches
  | .loop _ condition body => 1 + max condition.levels (Node.levelsList body)
  | .returning _ value => 1 + Node.levelsOption value

def Node.levelsOption : Option Node → Nat
  | none => 0
  | some node => node.levels

def Node.levelsList : List Node → Nat
  | [] => 0
  | node :: nodes => max node.levels (Node.levelsList nodes)

def Branch.levels : Branch → Nat
  | .mk _ condition body => 1 + max condition.levels (Node.levelsList body)

def Node.branchLevels : List Branch → Nat
  | [] => 0
  | branch :: branches => max branch.levels (Node.branchLevels branches)

end

mutual

/-- Source-like text of an expression; forms that are no expressions show their kind only. -/
def Node.formatted : Node → String
  | .literal _ value => value.formatted
  | .reference _ name => name
  | .declaration _ name => "let " ++ name
  | .binary _ operator left right =>
    "(" ++ Node.formattedOption left ++ " " ++ operator ++ " " ++ Node.formattedOption right ++ ")"
  | .call _ name args => name ++ "(" ++ ", ".intercalate (Node.formattedList args) ++ ")"
  | .member _ receiver attr => receiver ++ "." ++ attr
  | .memberCall _ receiver attr args =>
    receiver ++ "." ++ attr ++ "(" ++ ", ".intercalate (Node.formattedList args) ++ ")"
  | node => "<" ++ node.label ++ ">"

def Node.formattedOption : Option Node → String
  | none => "None"
  | some node => node.formatted

def Node.formattedList : List Node → List String
  | [] => []
  | node :: nodes => node.formatted :: Node.formattedList nodes

end
end ScriptLang
