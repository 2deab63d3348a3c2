import ScriptLang.Operator
import ScriptLang.Proofs.Tree.Parts

/-! What a tree does to names, and where it loops. A node writes a name when somewhere in it, however deep,
the name is defined or assigned. It declares a name only where the definition reaches the scope that the
node stands in, so not within a block. -/
namespace ScriptLang.Node

def defines? : Node → Option String
  | binary _ operator (some (declaration _ name)) _ =>
    if operator = Operator.assign.spelling then some name else none
  | function _ header _ => some header.name
  | _ => none

def assigns? : Node → Option String
  | binary _ operator (some (reference _ name)) _ =>
    if operator = Operator.assign.spelling then some name else none
  | _ => none

/-- Somewhere in the node the name is defined or assigned. -/
def Writes (name : String) (n : Node) : Prop :=
  ∃ inner : Node, inner.Occurs n ∧ (inner.defines? = some name ∨ inner.assigns? = some name)

/-- The name is defined by the node, or by one that is exposed in it. -/
inductive Declares (name : String) : Node → Prop
  | here {n : Node} : n.defines? = some name → Declares name n
  | exposed {n part : Node} : part ∈ n.exposed → Declares name part → Declares name n

def isLoop : Node → Bool
  | loop .. => true
  | _ => false

def Loopless (n : Node) : Prop :=
  n.Every fun inner => inner.isLoop = false

/-- A node writes the names that its parts write. -/
theorem Writes.of_mem_parts {name : String} {part n : Node} (hp : part ∈ n.parts)
    (h : part.Writes name) : n.Writes name := by
  obtain ⟨inner, ho, hw⟩ := h
  exact ⟨inner, .inside hp ho, hw⟩

/-- A name that neither a node nor any of its parts binds is not written. -/
theorem not_writes_of_parts {name : String} {n : Node} (hd : n.defines? ≠ some name)
    (ha : n.assigns? ≠ some name) (hp : ∀ part ∈ n.parts, ¬part.Writes name) : ¬n.Writes name := by
  rintro ⟨inner, ho, hw⟩
  cases ho with
  | itself => exact hw.elim hd ha
  | inside hpart ho => exact hp _ hpart ⟨inner, ho, hw⟩

theorem Loopless.of_mem_parts {part n : Node} (hn : n.Loopless) (hp : part ∈ n.parts) :
    part.Loopless :=
  fun inner ho => hn inner (.inside hp ho)

end ScriptLang.Node
