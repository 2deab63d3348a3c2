import ScriptLang.Evaluator.Basic
import ScriptLang.Evaluator.Operation

/-!
Evaluation. Every rule takes the rule `sub` for the nodes inside as an argument, and only `evaluate`
ties the knot, so its argument bounds how deeply evaluations nest. A `while` loop is the one form
whose rounds have no bound in the program itself.

A value that is evaluated again, as a returned value and the receiver of a member call are, stays
what it is unless it is a piece of syntax: a function defines itself once more.
-/
namespace ScriptLang.Eval

section Rules
variable (host : Host) (sub : Node → Eval Outcome)

def expression (node : Node) : Eval Value := do
  match ← sub node with
  | .normal value => return value
  | outcome => refuse host (.signalAsValue outcome.flow) node.line

def again : Value → Eval Value
  | .function f => expression host sub f.toNode
  | .quoted (.node node) => expression host sub node
  | .quoted (.branch branch) => refuse host (.notEvaluable "<Branch>") branch.line
  | .quoted (.header header) => refuse host (.notEvaluable "<FunctionHeader>") header.line
  | value => return value

def expressions : List Node → Eval (List Value)
  | [] => return []
  | node :: nodes => do
    let value ← expression host sub node
    return value :: (← expressions nodes)

def block : List Node → Eval Outcome
  | [] => return .normal .nothing
  | node :: nodes => do
    match ← sub node with
    | .normal _ => block nodes
    | signal => return signal

/-- Runs the statements of a function up to a `return`; other signals end nothing there. -/
def functionBody : List Node → Eval Value
  | [] => return .nothing
  | node :: nodes => do
    match ← sub node with
    | .returning value => again host sub value
    | _ => functionBody nodes

/-- Calls a function that was found under `name`. A receiver comes before the other arguments. -/
def callFunction (name : String) (function : Value) (receiver : Option Value) (args : List Node)
    (line : Nat) : Eval Value := do
  match function with
  | .function f =>
    let received := receiver.toList.length + args.length
    if received ≠ f.params.length then
      refuse host (.arity name f.params.length received) line
    if host.depthLimit ≤ (← get).depth then
      refuse host (.callDepth host.depthLimit) line
    let first ← receiver.toList.mapM (again host sub)
    let others ← expressions host sub args
    let scope := Table.ofList (f.params.zip (first ++ others))
    oneDeeper (inScope scope (functionBody host sub f.body))
  | _ => refuse host (.notCallable name) line

def lookup (kind name : String) (line : Nat) : Eval Value := do
  match (← get).scopes.find? name with
  | some value => return value
  | none => refuse host (.undefinedName kind name) line

/-- A call: natives come before all bound names. -/
def call (name : String) (args : List Node) (line : Nat) : Eval Value := do
  match host.natives.find? name with
  | some native => ofWorld (native (← expressions host sub args))
  | none => callFunction host sub name (← lookup host "function" name line) none args line

def memberOf (node : Node) (receiver : Value) (attr : String) : Eval Value :=
  match host.structs.find? receiver.typeName with
  | some prototype => return prototype.member attr
  | none => refuse host (.unknownStruct receiver.typeName node.formatted) node.line

/-- A member access, and with arguments the call of the member with its receiver in front; a member
without a value is not called. -/
def member (node : Node) (name attr : String) (args : Option (List Node)) : Eval Value := do
  let receiver ← lookup host "variable" name node.line
  let value ← memberOf host node receiver attr
  match args with
  | none => return value
  | some args =>
    if Operation.isNothing value then return value
    callFunction host sub attr value (some receiver) args node.line

/-- An assignment to a new or to a bound variable. -/
def assign (site : Site) (left right : Node) : Eval Value := do
  match left with
  | .declaration _ name => define name (← expression host sub right)
  | .reference _ name =>
    let value ← expression host sub right
    if !(← get).scopes.contains name then refuseAt site (.undefinedName "variable" name)
    modifyScopes (·.assign name value)
    return value
  | _ => refuseAt site (.notAssignable left.formatted right.formatted)

def binary (site : Site) (operator : String) (left right : Option Node) : Eval Value :=
  match left, right with
  | some l, some r =>
    if operator = Operator.assign.spelling then assign host sub site l r
    else do
      let lv ← expression host sub l
      let rv ← expression host sub r
      ofExcept (Operation.apply site operator lv rv)
  | _, _ => refuseAt site (.incomplete (Node.binary 0 operator left right).formatted)

def test (statement : String) (condition : Node) : Eval Bool := do
  match ← expression host sub condition with
  | .boolean b => return b
  | value => refuse host (.notBoolean statement value.display) condition.line

def branches : List Branch → Eval Outcome
  | [] => return .normal .nothing
  | branch :: rest => do
    if ← test host sub "if" branch.condition then inScope {} (block sub branch.body)
    else branches rest

/-- Runs a block as long as a condition holds, each time in a scope of its own. -/
def loop (condition : Node) (body : List Node) : Nat → Eval Outcome
  | 0 => throw .unfinished
  | rounds + 1 => do
    if ← test host sub "while" condition then
      match ← inScope {} (block sub body) with
      | .breaking => return .normal .nothing
      | .returning value => return .returning value
      | _ => loop condition body rounds
    else return .normal .nothing

def step (node : Node) : Eval Outcome :=
  match node with
  | .literal _ value => return .normal (.ofLiteral value)
  | .breaking _ => return .breaking
  | .continuing _ => return .continuing
  | .returning _ none => return .returning .nothing
  | .returning _ (some payload) => return .returning (← expression host sub payload)
  | .reference line name => return .normal (← lookup host "variable" name line)
  | .binary line operator left right =>
    return .normal (← binary host sub (host.site line) operator left right)
  | .declaration line name => refuse host (.unassigned name) line
  | .function line header body => do
    if (← get).scopes.contains header.name then refuse host (.functionExists header.name) line
    return .normal (← define header.name (.function ⟨line, header, body⟩))
  | .call line name args => return .normal (← call host sub name args line)
  | .conditional _ bs => branches host sub bs
  | .loop _ condition body => loop host sub condition body host.limits.rounds
  | .member _ name attr => return .normal (← member host sub node name attr none)
  | .memberCall _ name attr args => return .normal (← member host sub node name attr (some args))
  | .struct _ _ => return .normal .nothing

end Rules

/-- Evaluates a node in which at most `nesting` evaluations are nested. -/
def evaluate (host : Host) : Nat → Node → Eval Outcome
  | 0, _ => throw .nesting
  | nesting + 1, node => step host (evaluate host nesting) node

def evaluateValue (host : Host) (nesting : Nat) : Value → Eval Outcome
  | .function f => evaluate host nesting f.toNode
  | .quoted (.node node) => evaluate host nesting node
  | value => return .normal (← again host (evaluate host nesting) value)

end ScriptLang.Eval
