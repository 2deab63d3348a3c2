import ScriptLang.Parser.Grammar
import ScriptLang.Tree.Same

/-! Trees with other lines. Two trees are the same up to lines when they become equal as soon as all
lines are replaced by one. -/
namespace ScriptLang

def Header.mapLines (f : Nat → Nat) (h : Header) : Header :=
  { h with line := f h.line }

mutual

def Node.mapLines (f : Nat → Nat) : Node → Node
  | .literal line value => .literal (f line) value
  | .binary line operator left right =>
    .binary (f line) operator (Node.mapLinesOption f left) (Node.mapLinesOption f right)
  | .reference line name => .reference (f line) name
  | .declaration line name => .declaration (f line) name
  | .call line name args => .call (f line) name (Node.mapLinesList f args)
  | .member line receiver attr => .member (f line) receiver attr
  | .memberCall line receiver attr args =>
    .memberCall (f line) receiver attr (Node.mapLinesList f args)
  | .function line header body => .function (f line) (header.mapLines f) (Node.mapLinesList f body)
  | .conditional line branches => .conditional (f line) (Node.mapLinesBranches f branches)
  | .loop line condition body => .loop (f line) (condition.mapLines f) (Node.mapLinesList f body)
  | .returning line value => .returning (f line) (Node.mapLinesOption f value)
  | .breaking line => .breaking (f line)
  | .continuing line => .continuing (f line)
  | .struct line name => .struct (f line) name

def Node.mapLinesOption (f : Nat → Nat) : Option Node → Option Node
  | none => none
  | some node => some (node.mapLines f)

def Node.mapLinesList (f : Nat → Nat) : List Node → List Node
  | [] => []
  | node :: nodes => node.mapLines f :: Node.mapLinesList f nodes

def Branch.mapLines (f : Nat → Nat) : Branch → Branch
  | .mk line condition body => .mk (f line) (condition.mapLines f) (Node.mapLinesList f body)

def Node.mapLinesBranches (f : Nat → Nat) : List Branch → List Branch
  | [] => []
  | branch :: branches => branch.mapLines f :: Node.mapLinesBranches f branches

end

def Link.mapLines (f : Nat → Nat) (link : Link) : Link :=
  ⟨link.spelling, f link.line, link.right.mapLines f⟩

namespace Node
variable (f : Nat → Nat)

@[simp] theorem mapLinesOption_eq (node : Option Node) :
    mapLinesOption f node = node.map (mapLines f) := by
  cases node <;> rfl

@[simp] theorem mapLinesList_eq (nodes : List Node) :
    mapLinesList f nodes = nodes.map (mapLines f) := by
  induction nodes with
  | nil => rfl
  | cons node nodes ih => simp [mapLinesList, ih]

@[simp] theorem mapLinesBranches_eq (branches : List Branch) :
    mapLinesBranches f branches = branches.map (Branch.mapLines f) := by
  induction branches with
  | nil => rfl
  | cons branch branches ih => simp [mapLinesBranches, ih]

@[simp] theorem line_mapLines (node : Node) : (node.mapLines f).line = f node.line := by
  cases node <;> rfl

/-- Trees that are the same under two maps of lines have lines that the maps make the same. -/
theorem line_eq_of_mapLines_eq {f g : Nat → Nat} {a b : Node} (h : a.mapLines f = b.mapLines g) :
    f a.line = g b.line := by
  have hl := congrArg Node.line h
  simpa using hl

/-- An operand that takes in links does so with whatever lines. -/
theorem extend_mapLines (left : Node) (links : List Link) :
    (left.extend links).mapLines f = (left.mapLines f).extend (links.map (Link.mapLines f)) := by
  induction links generalizing left with
  | nil => rfl
  | cons link links ih =>
    have hl : (link.attach (some left)).mapLines f =
        (link.mapLines f).attach (some (left.mapLines f)) := rfl
    have hc : left.extend (link :: links) = (link.attach (some left)).extend links := rfl
    rw [hc, ih, hl]
    rfl

end Node

/-- Whether arguments can be parameters does not hang on their lines. -/
theorem Parse.parameters_mapLines (function : String) (f : Nat → Nat) (nodes : List Node) :
    Parse.parameters function (nodes.map (Node.mapLines f)) = Parse.parameters function nodes := by
  induction nodes with
  | nil => rfl
  | cons node nodes ih =>
    cases node with
    | declaration line name =>
      simp only [List.map_cons, Node.mapLines, Parse.parameters, ih]
    | reference line name =>
      simp only [List.map_cons, Node.mapLines, Parse.parameters, ih]
    | _ => rfl

mutual

/-- A tree whose lines are mapped to themselves is the same tree. -/
theorem Node.mapLines_id (node : Node) : node.mapLines id = node := by
  cases node with
  | binary line operator left right =>
    simp only [Node.mapLines, Node.mapLinesOption_id left, Node.mapLinesOption_id right, id]
  | call line name args => simp only [Node.mapLines, Node.mapLinesList_id args, id]
  | memberCall line receiver attr args => simp only [Node.mapLines, Node.mapLinesList_id args, id]
  | function line header body => simp only [Node.mapLines, Node.mapLinesList_id body, Header.mapLines, id]
  | conditional line branches => simp only [Node.mapLines, Node.mapLinesBranches_id branches, id]
  | loop line condition body =>
    simp only [Node.mapLines, Node.mapLines_id condition, Node.mapLinesList_id body, id]
  | returning line value => simp only [Node.mapLines, Node.mapLinesOption_id value, id]
  | _ => rfl

theorem Node.mapLinesOption_id (node : Option Node) : Node.mapLinesOption id node = node := by
  cases node with
  | none => rfl
  | some node => rw [Node.mapLinesOption, Node.mapLines_id node]

theorem Node.mapLinesList_id (nodes : List Node) : Node.mapLinesList id nodes = nodes := by
  cases nodes with
  | nil => rfl
  | cons node nodes => rw [Node.mapLinesList, Node.mapLines_id node, Node.mapLinesList_id nodes]

theorem Branch.mapLines_id (branch : Branch) : branch.mapLines id = branch := by
  cases branch with
  | mk line condition body =>
    simp only [Branch.mapLines, Node.mapLines_id condition, Node.mapLinesList_id body, id]

theorem Node.mapLinesBranches_id (branches : List Branch) :
    Node.mapLinesBranches id branches = branches := by
  cases branches with
  | nil => rfl
  | cons branch branches =>
    rw [Node.mapLinesBranches, Branch.mapLines_id branch, Node.mapLinesBranches_id branches]

end

mutual

/-- Lines that are replaced twice. -/
theorem Node.mapLines_mapLines (f g : Nat → Nat) (node : Node) :
    (node.mapLines f).mapLines g = node.mapLines (g ∘ f) := by
  cases node with
  | binary line operator left right =>
    have hl := Node.mapLinesOption_mapLinesOption f g left
    have hr := Node.mapLinesOption_mapLinesOption f g right
    simp only [Node.mapLines, hl, hr, Function.comp]
  | call line name args =>
    have ha := Node.mapLinesList_mapLinesList f g args
    simp only [Node.mapLines, ha, Function.comp]
  | memberCall line receiver attr args =>
    have ha := Node.mapLinesList_mapLinesList f g args
    simp only [Node.mapLines, ha, Function.comp]
  | function line header body =>
    have hb := Node.mapLinesList_mapLinesList f g body
    simp only [Node.mapLines, Header.mapLines, hb, Function.comp]
  | conditional line branches =>
    have hb := Node.mapLinesBranches_mapLinesBranches f g branches
    simp only [Node.mapLines, hb, Function.comp]
  | loop line condition body =>
    have hc := Node.mapLines_mapLines f g condition
    have hb := Node.mapLinesList_mapLinesList f g body
    simp only [Node.mapLines, hc, hb, Function.comp]
  | returning line value =>
    have hv := Node.mapLinesOption_mapLinesOption f g value
    simp only [Node.mapLines, hv, Function.comp]
  | _ => rfl

theorem Node.mapLinesOption_mapLinesOption (f g : Nat → Nat) (node : Option Node) :
    Node.mapLinesOption g (Node.mapLinesOption f node) = Node.mapLinesOption (g ∘ f) node := by
  cases node with
  | none => rfl
  | some node => simp only [Node.mapLinesOption, Node.mapLines_mapLines f g node]

theorem Node.mapLinesList_mapLinesList (f g : Nat → Nat) (nodes : List Node) :
    Node.mapLinesList g (Node.mapLinesList f nodes) = Node.mapLinesList (g ∘ f) nodes := by
  cases nodes with
  | nil => rfl
  | cons node nodes =>
    have hn := Node.mapLines_mapLines f g node
    have hs := Node.mapLinesList_mapLinesList f g nodes
    simp only [Node.mapLinesList, hn, hs]

theorem Branch.mapLines_mapLines (f g : Nat → Nat) (branch : Branch) :
    (branch.mapLines f).mapLines g = branch.mapLines (g ∘ f) := by
  cases branch with
  | mk line condition body =>
    have hc := Node.mapLines_mapLines f g condition
    have hb := Node.mapLinesList_mapLinesList f g body
    simp only [Branch.mapLines, hc, hb, Function.comp]

theorem Node.mapLinesBranches_mapLinesBranches (f g : Nat → Nat) (branches : List Branch) :
    Node.mapLinesBranches g (Node.mapLinesBranches f branches) =
      Node.mapLinesBranches (g ∘ f) branches := by
  cases branches with
  | nil => rfl
  | cons branch branches =>
    have hb := Branch.mapLines_mapLines f g branch
    have hs := Node.mapLinesBranches_mapLinesBranches f g branches
    simp only [Node.mapLinesBranches, hb, hs]

end

theorem Header.same_of_mapLines_eq {f g : Nat → Nat} {h k : Header}
    (he : h.mapLines f = k.mapLines g) : h.same k = true := by
  have hn := congrArg Header.name he
  have hp := congrArg Header.params he
  have hr := congrArg Header.returnType he
  simp only [Header.mapLines] at hn hp hr
  simp [Header.same, hn, hp, hr]

mutual

/-- Trees that become equal with other lines are the same up to lines. -/
theorem Node.same_of_mapLines_eq {f g : Nat → Nat} (a b : Node)
    (h : a.mapLines f = b.mapLines g) : a.same b = true := by
  cases a <;> cases b <;> simp only [Node.mapLines, reduceCtorEq, Node.literal.injEq,
    Node.binary.injEq, Node.reference.injEq, Node.declaration.injEq, Node.call.injEq,
    Node.member.injEq, Node.memberCall.injEq, Node.function.injEq, Node.conditional.injEq,
    Node.loop.injEq, Node.returning.injEq, Node.breaking.injEq, Node.continuing.injEq,
    Node.struct.injEq] at h
  case literal.literal => simp [Node.same, h]
  case binary.binary left right _ _ left' right' =>
    have hl := Node.sameOption_of_mapLines_eq left left' h.2.2.1
    have hr := Node.sameOption_of_mapLines_eq right right' h.2.2.2
    simp [Node.same, h, hl, hr]
  case reference.reference => simp [Node.same, h]
  case declaration.declaration => simp [Node.same, h]
  case call.call args _ _ args' =>
    have ha := Node.sameList_of_mapLines_eq args args' h.2.2
    simp [Node.same, h, ha]
  case member.member => simp [Node.same, h]
  case memberCall.memberCall args _ _ _ args' =>
    have ha := Node.sameList_of_mapLines_eq args args' h.2.2.2
    simp [Node.same, h, ha]
  case function.function header body _ header' body' =>
    have hh := Header.same_of_mapLines_eq h.2.1
    have hb := Node.sameList_of_mapLines_eq body body' h.2.2
    simp [Node.same, hh, hb]
  case conditional.conditional branches _ branches' =>
    have hb := Node.sameBranches_of_mapLines_eq branches branches' h.2
    simp [Node.same, hb]
  case loop.loop condition body _ condition' body' =>
    have hc := Node.same_of_mapLines_eq condition condition' h.2.1
    have hb := Node.sameList_of_mapLines_eq body body' h.2.2
    simp [Node.same, hc, hb]
  case returning.returning value _ value' =>
    have hv := Node.sameOption_of_mapLines_eq value value' h.2
    simp [Node.same, hv]
  case breaking.breaking => simp [Node.same]
  case continuing.continuing => simp [Node.same]
  case struct.struct => simp [Node.same, h]
termination_by structural a

theorem Node.sameOption_of_mapLines_eq {f g : Nat → Nat} (a b : Option Node)
    (h : Node.mapLinesOption f a = Node.mapLinesOption g b) : Node.sameOption a b = true := by
  cases a with
  | none => cases b with
    | none => simp [Node.sameOption]
    | some b => cases h
  | some a => cases b with
    | none => cases h
    | some b => simpa [Node.sameOption] using Node.same_of_mapLines_eq a b (Option.some.inj h)
termination_by structural a

/-- Lists of trees that differ in lines only count as the same. -/
theorem Node.sameList_of_mapLines_eq {f g : Nat → Nat} (as bs : List Node)
    (h : Node.mapLinesList f as = Node.mapLinesList g bs) : Node.sameList as bs = true := by
  cases as with
  | nil => cases bs with
    | nil => simp [Node.sameList]
    | cons b bs => cases h
  | cons a as => cases bs with
    | nil => cases h
    | cons b bs =>
      obtain ⟨hn, hs⟩ := List.cons.inj h
      simp [Node.sameList, Node.same_of_mapLines_eq a b hn, Node.sameList_of_mapLines_eq as bs hs]
termination_by structural as

theorem Branch.same_of_mapLines_eq {f g : Nat → Nat} (a b : Branch)
    (h : a.mapLines f = b.mapLines g) : a.same b = true := by
  cases a with
  | mk line condition body =>
    cases b with
    | mk line' condition' body' =>
      simp only [Branch.mapLines, Branch.mk.injEq] at h
      have hc := Node.same_of_mapLines_eq condition condition' h.2.1
      have hb := Node.sameList_of_mapLines_eq body body' h.2.2
      simp [Branch.same, hc, hb]
termination_by structural a

theorem Node.sameBranches_of_mapLines_eq {f g : Nat → Nat} (as bs : List Branch)
    (h : Node.mapLinesBranches f as = Node.mapLinesBranches g bs) :
    Node.sameBranches as bs = true := by
  cases as with
  | nil => cases bs with
    | nil => simp [Node.sameBranches]
    | cons b bs => cases h
  | cons a as => cases bs with
    | nil => cases h
    | cons b bs =>
      obtain ⟨hn, hs⟩ := List.cons.inj h
      simp [Node.sameBranches, Branch.same_of_mapLines_eq a b hn,
        Node.sameBranches_of_mapLines_eq as bs hs]
termination_by structural as

end
end ScriptLang
