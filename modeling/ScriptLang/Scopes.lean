import ScriptLang.Fault
import ScriptLang.Table
import ScriptLang.Value

/-!
Chains of scopes. A chain is never empty: besides the innermost scope it has the scopes around it,
from the inside out. Names are looked up from the inside out and defined in the innermost scope.
-/
namespace ScriptLang

structure Scopes (α : Type) where
  innermost : Table α := {}
  around : List (Table α) := []
deriving Repr, Inhabited

namespace Scopes
variable {α : Type}

def toList (c : Scopes α) : List (Table α) :=
  (c.innermost :: c.around).reverse

def size (c : Scopes α) : Nat :=
  c.around.length + 1

def push (c : Scopes α) (scope : Table α) : Scopes α :=
  ⟨scope, c.innermost :: c.around⟩

/-- Takes the innermost scope off; the last scope stays. -/
def pop (c : Scopes α) : Except Fault (Table α × Scopes α) :=
  match c.around with
  | [] => .error .lastScope
  | scope :: scopes => .ok (c.innermost, ⟨scope, scopes⟩)

def dropInnermost (c : Scopes α) : Scopes α :=
  match c.around with
  | [] => c
  | scope :: scopes => ⟨scope, scopes⟩

def find? (c : Scopes α) (name : String) : Option α :=
  (c.innermost :: c.around).findSome? (·.find? name)

def contains (c : Scopes α) (name : String) : Bool :=
  (c.find? name).isSome

def index? (c : Scopes α) (name : String) : Option Nat :=
  ((c.innermost :: c.around).findIdx? (·.contains name)).map (c.size - 1 - ·)

def define (c : Scopes α) (name : String) (a : α) : Scopes α :=
  { c with innermost := c.innermost.insert name a }

def assignIn (name : String) (a : α) : List (Table α) → List (Table α)
  | [] => []
  | scope :: scopes =>
    if scope.contains name then scope.insert name a :: scopes
    else scope :: assignIn name a scopes

/-- Overwrites the innermost binding of a name; a name that is not bound stays so. -/
def assign (c : Scopes α) (name : String) (a : α) : Scopes α :=
  if c.innermost.contains name then { c with innermost := c.innermost.insert name a }
  else { c with around := assignIn name a c.around }

def outermost (c : Scopes α) : Table α :=
  c.around.getLastD c.innermost

def modifyOutermost (f : Table α → Table α) (c : Scopes α) : Scopes α :=
  match c.around.getLast? with
  | none => { c with innermost := f c.innermost }
  | some scope => { c with around := c.around.dropLast ++ [f scope] }

@[simp] theorem size_push (c : Scopes α) (scope : Table α) : (c.push scope).size = c.size + 1 := rfl

@[simp] theorem dropInnermost_push (c : Scopes α) (scope : Table α) :
    (c.push scope).dropInnermost = c := rfl

@[simp] theorem size_define (c : Scopes α) (name : String) (a : α) :
    (c.define name a).size = c.size := rfl

@[simp] theorem length_assignIn (name : String) (a : α) (scopes : List (Table α)) :
    (assignIn name a scopes).length = scopes.length := by
  induction scopes with
  | nil => rfl
  | cons scope scopes ih =>
    unfold assignIn
    split
    · rfl
    · simp [ih]

@[simp] theorem size_assign (c : Scopes α) (name : String) (a : α) :
    (c.assign name a).size = c.size := by
  unfold assign
  split <;> simp [size]

end Scopes

def scopeListing (scope : Table Value) : String :=
  let items := scope.entries.map fun (name, value) => Text.quote name ++ ": " ++ value.listing
  "Environment(\x7b" ++ ", ".intercalate items ++ "\x7d)"

end ScriptLang
