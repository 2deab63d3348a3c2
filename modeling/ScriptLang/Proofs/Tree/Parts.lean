import ScriptLang.Tree.Basic

/-! What stands in a tree. A node occurs in another one when it is that node, or occurs in one of the
nodes that stand directly in it. Of these, some are exposed to the scope of the node, the others belong to
blocks that have scopes of their own. -/
namespace ScriptLang

def Branch.parts (b : Branch) : List Node :=
  b.condition :: b.body

namespace Node

def parts : Node → List Node
  | binary _ _ left right => left.toList ++ right.toList
  | call _ _ args | memberCall _ _ _ args => args
  | function _ _ body => body
  | conditional _ branches => branches.flatMap Branch.parts
  | loop _ condition body => condition :: body
  | returning _ value => value.toList
  | literal .. | reference .. | declaration .. | member .. | breaking _ | continuing _ | struct .. => []

/-- The nodes in a node that are evaluated in the scope it stands in: operands, arguments, conditions and
what is returned. -/
def exposed : Node → List Node
  | binary _ _ left right => left.toList ++ right.toList
  | call _ _ args | memberCall _ _ _ args => args
  | conditional _ branches => branches.map Branch.condition
  | loop _ condition _ => [condition]
  | returning _ value => value.toList
  | function .. | literal .. | reference .. | declaration .. | member .. | breaking _ | continuing _
  | struct .. => []

def enclosed : Node → List Node
  | function _ _ body => body
  | conditional _ branches => branches.flatMap Branch.body
  | loop _ _ body => body
  | binary .. | call .. | memberCall .. | returning .. | literal .. | reference .. | declaration ..
  | member .. | breaking _ | continuing _ | struct .. => []

/-- The parts of a node run in its scope or in one of their own. -/
theorem mem_parts_iff {part n : Node} : part ∈ n.parts ↔ part ∈ n.exposed ∨ part ∈ n.enclosed := by
  cases n with
  | conditional line branches =>
    simp only [parts, exposed, enclosed, Branch.parts, List.mem_flatMap, List.mem_map, List.mem_cons]
    constructor
    · rintro ⟨b, hb, rfl | hbody⟩
      · exact Or.inl ⟨b, hb, rfl⟩
      · exact Or.inr ⟨b, hb, hbody⟩
    · rintro (⟨b, hb, rfl⟩ | ⟨b, hb, hbody⟩)
      · exact ⟨b, hb, Or.inl rfl⟩
      · exact ⟨b, hb, Or.inr hbody⟩
  | _ => simp [parts, exposed, enclosed]

inductive Occurs : Node → Node → Prop
  | itself (n : Node) : Occurs n n
  | inside {inner part outer : Node} : part ∈ outer.parts → Occurs inner part → Occurs inner outer

theorem Occurs.trans {a b c : Node} (hab : a.Occurs b) (hbc : b.Occurs c) : a.Occurs c := by
  induction hbc with
  | itself => exact hab
  | inside hp _ ih => exact .inside hp ih

theorem occurs_of_mem_parts {part n : Node} (h : part ∈ n.parts) : part.Occurs n :=
  .inside h (.itself part)

def Every (P : Node → Prop) (n : Node) : Prop :=
  ∀ inner, inner.Occurs n → P inner

theorem Every.of_mem_parts {P : Node → Prop} {part n : Node} (h : n.Every P) (hp : part ∈ n.parts) :
    part.Every P :=
  fun inner hi => h inner (hi.trans (occurs_of_mem_parts hp))

/-- A property holds throughout a tree if it holds of the root and throughout its parts. -/
theorem every_of_parts {P : Node → Prop} {n : Node} (h : P n) (hp : ∀ part ∈ n.parts, part.Every P) :
    n.Every P := by
  intro inner hi
  cases hi with
  | itself => exact h
  | inside hpart hi => exact hp _ hpart inner hi

end Node

namespace Node

end Node
end ScriptLang
