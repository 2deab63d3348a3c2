import ScriptLang.Parser.Basic
import ScriptLang.Tree.Basic

/-!
The grammar. Every rule takes the rule `sub` for a nested expression as an argument, and only
`primary` ties the knot, so its argument bounds how deeply expressions nest. Repetitions are bounded
by the size of the text that is left, which each round makes smaller.

A form that ends with a block waives the semicolon of its statement; parentheses and argument lists
ask for it again.
-/
namespace ScriptLang

structure Link where
  spelling : String
  line : Nat
  right : Node

def Link.attach (left : Option Node) (link : Link) : Node :=
  .binary link.line link.spelling left (some link.right)

def Node.extend (left : Node) (links : List Link) : Node :=
  links.foldl (fun tree link => link.attach (some tree)) left

namespace Parse

def bounded {α : Type} (step : Nat → Parse α) : Parse α := do
  step ((← get).size + 1)

section Rules
variable (sub : Parse (Option Node))

def statement : Parse (Option Node) := do
  match ← sub with
  | none => return none
  | some node =>
    if (← get).needsSemicolon then skip ';' else setSemicolon true
    return some node

def argumentsBefore : Nat → Parse (List Node)
  | 0 => throw .unfinished
  | fuel + 1 => do
    if ← atMark ')' then return []
    match ← sub with
    | none => refuse .argumentMissing
    | some node =>
      if !(← atMark ')') then skip ','
      return node :: (← argumentsBefore fuel)

def arguments : Parse (List Node) := do
  skip '('
  let args ← bounded (argumentsBefore sub)
  skip ')'
  setSemicolon true
  return args

def statementsBefore : Nat → Parse (List Node)
  | 0 => throw .unfinished
  | fuel + 1 => do
    if ← atMark '}' then return []
    match ← statement sub with
    | none => refuse (.expected "\x7d" (found none))
    | some node => return node :: (← statementsBefore fuel)

def block : Parse (List Node) := do
  skip '{'
  setSemicolon true
  let body ← bounded (statementsBefore sub)
  skip '}'
  setSemicolon false
  return body

def condition : Parse Node := do
  skip '('
  match ← sub with
  | none => refuse .conditionMissing
  | some node =>
    skip ')'
    return node

def parenthesis : Parse Node := do
  skip '('
  match ← sub with
  | none => refuse (.operandMissing "(")
  | some node =>
    skip ')'
    setSemicolon true
    return node

def parameters (function : String) : List Node → Parse (List String)
  | [] => return []
  | .declaration _ name :: nodes | .reference _ name :: nodes =>
    return name :: (← parameters function nodes)
  | _ :: _ => refuse (.parameterExpected function)

def letForm : Parse Node := do
  match ← advance with
  | none => refuse .variableMissing
  | some ⟨.identifier name, pos⟩ =>
    if !(← atMark '(') then return .declaration pos.line name
    let params ← parameters name (← arguments sub)
    let body ← block sub
    return .function pos.line ⟨pos.line, name, params, "any"⟩ body
  | some token => refuse (.variableExpected token.lexeme.shown)

/-- The branches of a conditional from the block of `test` on. -/
def branchesFrom : Nat → Node → Parse (List Branch)
  | 0, _ => throw .unfinished
  | fuel + 1, test => do
    let branch := Branch.mk test.line test (← block sub)
    if !(← atName "else") then return [branch]
    let line := (← advance).elim 0 (·.pos.line)
    if ← atName "if" then
      let _ ← advance
      let test ← condition sub
      return branch :: (← branchesFrom fuel test)
    match ← peek with
    | some ⟨.identifier _, _⟩ => refuse .ifExpected
    | _ => return [branch, .mk line (.literal line (.boolean true)) (← block sub)]

def ifForm : Parse Node := do
  let test ← condition sub
  let branches ← bounded fun fuel => branchesFrom sub fuel test
  setSemicolon false
  return .conditional test.line branches

def whileForm : Parse Node := do
  let test ← condition sub
  return .loop test.line test (← block sub)

def forForm : Parse Node :=
  refuse .forLoop

def structForm : Parse Node := do
  match ← advance with
  | some ⟨.identifier name, pos⟩ =>
    skip '{'
    if !(← atMark '}') then refuse (.structBody name)
    skip '}'
    setSemicolon false
    return .struct pos.line name
  | token => refuse (.structNameExpected (found token))

/-- What follows a name that is no keyword: a member access, a call, or nothing. -/
def nameForm (name : String) (line : Nat) : Parse Node := do
  if ← atMark '.' then
    let _ ← advance
    match ← advance with
    | some ⟨.identifier attr, _⟩ =>
      if ← atMark '(' then return .memberCall line name attr (← arguments sub)
      return .member line name attr
    | token => refuse (.attributeExpected (found token))
  if ← atMark '(' then return .call line name (← arguments sub)
  return .reference line name

def returnForm (line : Nat) : Parse Node := do
  if ← atMark ';' then return .returning line none
  return .returning line (← sub)

def namedForm (name : String) (line : Nat) : Parse Node :=
  match Keyword.ofName? name with
  | some .trueForm => return .literal line (.boolean true)
  | some .falseForm => return .literal line (.boolean false)
  | some .returnForm => returnForm sub line
  | some .breakForm => return .breaking line
  | some .continueForm => return .continuing line
  | some .letForm => letForm sub
  | some .ifForm => ifForm sub
  | some .whileForm => whileForm sub
  | some .forForm => forForm
  | some .structForm => structForm
  | some .elseForm | none => nameForm sub name line

def identifier : Parse (Option Node) := do
  match ← advance with
  | none => return none
  | some token => some <$> namedForm sub token.lexeme.shown token.pos.line

def literal (line : Nat) (value : Literal) : Parse (Option Node) := do
  let _ ← advance
  return some (.literal line value)

def operand : Parse (Option Node) := do
  match ← peek with
  | none => return none
  | some ⟨.identifier _, _⟩ => identifier sub
  | some ⟨.text s, pos⟩ => literal pos.line (.text s)
  | some ⟨.integer n, pos⟩ => literal pos.line (.integer n)
  | some ⟨.float x, pos⟩ => literal pos.line (.float x)
  | some ⟨.punctuation '(', _⟩ => some <$> parenthesis sub
  | some token => refuse (.unexpected token.lexeme.shown)

/-- The operators that come next and have at least the power `floor`, with their right operands. A
right operand takes in the operators after it that bind tighter. -/
def links : Nat → Nat → Parse (List Link)
  | 0, _ => throw .unfinished
  | fuel + 1, floor => do
    match ← operatorAhead with
    | none => return []
    | some op =>
      if op.power < floor then return []
      let _ ← advance
      match ← operand sub with
      | none => refuse (.operandMissing op.spelling)
      | some right =>
        let tighter := (← operatorAhead).any fun next => op.power < next.power
        let inner ← if tighter then links fuel (op.power + 1) else pure []
        return ⟨op.spelling, op.line, right.extend inner⟩ :: (← links fuel floor)

/-- What taking links without any floor comes to: whatever stands next counts as an operator, so that
only a fault ends it. A token that is no binary operator binds weaker than all operators. -/
def linksWithoutFloor {α : Type} : Nat → Parse α
  | 0 => throw .unfinished
  | fuel + 1 => do
    let spelling := (← peek).bind (·.lexeme.operator?)
    let power := (← operatorAhead).map (·.power)
    let _ ← advance
    match ← operand sub with
    | none => refuse (.operandMissing (spelling.getD "None"))
    | some _ =>
      let floor := power.elim 0 (· + 1)
      if (← operatorAhead).any (floor ≤ ·.power) then
        let _ ← links sub fuel floor
      linksWithoutFloor fuel

/-- Folds the operators that come next onto a left operand, which may be missing. No token is below a
negative floor. -/
def foldOnto (floor : Int) (left : Option Node) : Parse (Option Node) :=
  if floor < 0 then bounded (linksWithoutFloor sub)
  else do
    let chain ← bounded fun fuel => links sub fuel floor.toNat
    return chain.foldl (fun tree link => some (link.attach tree)) left

def expression : Parse (Option Node) := do
  match ← operand sub with
  | none => return none
  | some left => return some (left.extend (← bounded fun fuel => links sub fuel 0))

end Rules

def primary : Nat → Parse (Option Node)
  | 0 => throw .nesting
  | nesting + 1 => expression (primary nesting)

def next (nesting : Nat) : Parse (Option Node) :=
  statement (primary nesting)

def statements (nesting : Nat) : Nat → Parse (List Node)
  | 0 => throw .unfinished
  | fuel + 1 => do
    match ← next nesting with
    | none => return []
    | some node => return node :: (← statements nesting fuel)

def program (nesting : Nat) : Parse (List Node) :=
  bounded (statements nesting)

end Parse

namespace Parser

def drainFrom (nesting : Nat) : Nat → Parser → List Node × Option Fault × Parser
  | 0, p => ([], some .unfinished, p)
  | fuel + 1, p =>
    match Parse.next nesting p with
    | .ok none p => ([], none, p)
    | .ok (some node) p =>
      let (nodes, fault, p) := drainFrom nesting fuel p
      (node :: nodes, fault, p)
    | .error fault p => ([], some fault, p)

def drain (nesting : Nat) (p : Parser) : List Node × Option Fault × Parser :=
  drainFrom nesting (p.size + 1) p

def parse (nesting : Nat) (text file : String) : Except Fault (List Node) :=
  match Parse.program nesting (Parser.ofText text file) with
  | .ok nodes _ => .ok nodes
  | .error fault _ => .error fault

end Parser
end ScriptLang
