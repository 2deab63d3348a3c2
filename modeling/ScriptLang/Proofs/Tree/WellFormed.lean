import ScriptLang.Proofs.Lexer.Source
import ScriptLang.Proofs.Tree.Parts
import ScriptLang.Parser.Grammar

/-! Well-formed trees: no operand is missing, operators and names are those of the language, and integers are
in its range. -/
namespace ScriptLang

/-- A name that begins no form of its own; `else` alone is a name as well. -/
def IsFreeName (name : String) : Prop :=
  IsName name ∧ (Keyword.ofName? name = none ∨ Keyword.ofName? name = some .elseForm)

namespace Node

def Formed : Node → Prop
  | literal _ (.integer n) => Range.contains n = true
  | literal _ _ => True
  | binary _ operator left right =>
    (∃ o : Operator, operator = o.spelling) ∧ left.isSome = true ∧ right.isSome = true
  | reference _ name => IsFreeName name
  | declaration _ name => IsName name
  | call _ name _ => IsFreeName name
  | member _ receiver attr => IsFreeName receiver ∧ IsName attr
  | memberCall _ receiver attr _ => IsFreeName receiver ∧ IsName attr
  | function _ header _ => IsName header.name ∧ ∀ param ∈ header.params, IsName param
  | conditional _ branches => branches ≠ []
  | struct _ name => IsName name
  | loop .. | returning .. | breaking _ | continuing _ => True

def WellFormed (n : Node) : Prop :=
  n.Every Formed

theorem wellFormed_of_parts_eq_nil {n : Node} (h : n.Formed) (hp : n.parts = []) : n.WellFormed := by
  apply every_of_parts h
  rw [hp]
  intro part hpart
  cases hpart

end Node

def Link.WellFormed (link : Link) : Prop :=
  (∃ o : Operator, link.spelling = o.spelling) ∧ link.right.WellFormed

/-- A link of a chain makes a well-formed operation of a well-formed left side. -/
theorem Link.wellFormed_attach {link : Link} {left : Node} (h : link.WellFormed)
    (hl : left.WellFormed) : (link.attach (some left)).WellFormed := by
  apply Node.every_of_parts
  · exact ⟨h.1, rfl, rfl⟩
  · intro part hp
    have hcases : part = left ∨ part = link.right := by simpa [attach, Node.parts] using hp
    rcases hcases with rfl | rfl
    · exact hl
    · exact h.2

/-- A chain of well-formed links behind a well-formed operand is well formed. -/
theorem Node.wellFormed_extend {left : Node} {links : List Link} (hl : left.WellFormed)
    (h : ∀ link ∈ links, link.WellFormed) : (left.extend links).WellFormed := by
  induction links generalizing left with
  | nil => exact hl
  | cons link links ih =>
    obtain ⟨hlink, hlinks⟩ := List.forall_mem_cons.mp h
    have ht := ih (Link.wellFormed_attach hlink hl) hlinks
    exact ht

def BranchesFormed (branches : List Branch) : Prop :=
  branches ≠ [] ∧ ∀ b ∈ branches, ∀ n ∈ b.parts, n.WellFormed

end ScriptLang
