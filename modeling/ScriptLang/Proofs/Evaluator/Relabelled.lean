import ScriptLang.Evaluator.Basic
import ScriptLang.Evaluator.Operation
import ScriptLang.Proofs.Parser.Moved
import ScriptLang.Proofs.ScopeChains
import ScriptLang.Proofs.Tree.Lines

/-! Values, scopes and states with other lines. Lines are told in diagnostics only: no text of a tree
or of a value shows them, and no operator computes with them. -/
namespace ScriptLang

section Texts
variable (f : Nat → Nat)

@[simp] theorem Header.listing_mapLines (h : Header) : (h.mapLines f).listing = h.listing := rfl

section Listing
variable (line : Nat) (name attr operator : String) (nodes : List Node) (part : Option Node)

theorem Node.listing_binary (right : Option Node) :
    (Node.binary line operator part right).listing = "Binary(operator=" ++ Text.quote operator ++
      ", left=" ++ Node.listingOption part ++ ", right=" ++ Node.listingOption right ++ ")" := rfl

theorem Node.listing_call : (Node.call line name nodes).listing =
    "FunctionCall(name=" ++ Text.quote name ++ ", args=" ++ tuple (Node.listings nodes) ++ ")" := rfl

theorem Node.listing_memberCall : (Node.memberCall line name attr nodes).listing =
    "StructureCall(name=" ++ Text.quote name ++ ", attribute=" ++ Text.quote attr ++
      ", args=" ++ tuple (Node.listings nodes) ++ ")" := rfl

theorem Node.listing_function (header : Header) : (Node.function line header nodes).listing =
    "FunctionDef(header=" ++ header.listing ++ ", body=" ++ tuple (Node.listings nodes) ++ ")" := rfl

theorem Node.listing_conditional (branches : List Branch) :
    (Node.conditional line branches).listing =
      "IfChain(branches=" ++ tuple (Node.branchListings branches) ++ ")" := rfl

theorem Node.listing_loop (condition : Node) : (Node.loop line condition nodes).listing =
    "WhileLoop(condition=" ++ condition.listing ++ ", body=" ++ tuple (Node.listings nodes) ++ ")" := rfl

theorem Node.listing_returning : (Node.returning line part).listing =
    "Return(value=" ++ Node.listingOption part ++ ")" := rfl

end Listing

mutual

/-- The listing of a tree does not show lines. -/
theorem Node.listing_mapLines (node : Node) : (node.mapLines f).listing = node.listing := by
  cases node with
  | literal line value => cases value <;> rfl
  | binary line operator left right =>
    have hl := Node.listingOption_mapLines left
    have hr := Node.listingOption_mapLines right
    rw [Node.mapLines, Node.listing_binary, Node.listing_binary, hl, hr]
  | call line name args =>
    have ha := Node.listings_mapLines args
    rw [Node.mapLines, Node.listing_call, Node.listing_call, ha]
  | memberCall line receiver attr args =>
    have ha := Node.listings_mapLines args
    rw [Node.mapLines, Node.listing_memberCall, Node.listing_memberCall, ha]
  | function line header body =>
    have hb := Node.listings_mapLines body
    rw [Node.mapLines, Node.listing_function, Node.listing_function, hb, Header.listing_mapLines]
  | conditional line branches =>
    have hb := Node.branchListings_mapLines branches
    rw [Node.mapLines, Node.listing_conditional, Node.listing_conditional, hb]
  | loop line condition body =>
    have hc := Node.listing_mapLines condition
    have hb := Node.listings_mapLines body
    rw [Node.mapLines, Node.listing_loop, Node.listing_loop, hc, hb]
  | returning line value =>
    have hv := Node.listingOption_mapLines value
    rw [Node.mapLines, Node.listing_returning, Node.listing_returning, hv]
  | _ => rfl
termination_by structural node

theorem Node.listingOption_mapLines (node : Option Node) :
    Node.listingOption (Node.mapLinesOption f node) = Node.listingOption node := by
  cases node with
  | none => rfl
  | some node => exact Node.listing_mapLines node
termination_by structural node

theorem Node.listings_mapLines (nodes : List Node) :
    Node.listings (Node.mapLinesList f nodes) = Node.listings nodes := by
  cases nodes with
  | nil => rfl
  | cons node nodes =>
    exact congrArg₂ List.cons (Node.listing_mapLines node) (Node.listings_mapLines nodes)
termination_by structural nodes

theorem Branch.listing_mapLines (branch : Branch) : (branch.mapLines f).listing = branch.listing := by
  cases branch with
  | mk line condition body =>
    have hc := Node.listing_mapLines condition
    have hb := Node.listings_mapLines body
    exact congrArg₂ (fun c b => "Branch(condition=" ++ c ++ ", body=" ++ tuple b ++ ")") hc hb
termination_by structural branch

theorem Node.branchListings_mapLines (branches : List Branch) :
    Node.branchListings (Node.mapLinesBranches f branches) = Node.branchListings branches := by
  cases branches with
  | nil => rfl
  | cons branch branches =>
    exact congrArg₂ List.cons (Branch.listing_mapLines branch) (Node.branchListings_mapLines branches)
termination_by structural branches

end

mutual

/-- The source text of a tree does not depend on its lines. -/
theorem Node.formatted_mapLines (node : Node) : (node.mapLines f).formatted = node.formatted := by
  cases node with
  | binary line operator left right =>
    have hl := Node.formattedOption_mapLines left
    have hr := Node.formattedOption_mapLines right
    simp only [Node.mapLines, Node.formatted, hl, hr]
  | call line name args =>
    have ha := Node.formattedList_mapLines args
    simp only [Node.mapLines, Node.formatted, ha]
  | memberCall line receiver attr args =>
    have ha := Node.formattedList_mapLines args
    simp only [Node.mapLines, Node.formatted, ha]
  | _ => simp only [Node.mapLines, Node.formatted, Node.label]
termination_by structural node

theorem Node.formattedOption_mapLines (node : Option Node) :
    Node.formattedOption (Node.mapLinesOption f node) = Node.formattedOption node := by
  cases node with
  | none => rfl
  | some node =>
    simp only [Node.mapLinesOption, Node.formattedOption, Node.formatted_mapLines node]
termination_by structural node

theorem Node.formattedList_mapLines (nodes : List Node) :
    Node.formattedList (Node.mapLinesList f nodes) = Node.formattedList nodes := by
  cases nodes with
  | nil => rfl
  | cons node nodes =>
    simp only [Node.mapLinesList, Node.formattedList, Node.formatted_mapLines node,
      Node.formattedList_mapLines nodes]
termination_by structural nodes

end

attribute [simp] Node.listing_mapLines Branch.listing_mapLines Node.formatted_mapLines

end Texts

def Function.mapLines (f : Nat → Nat) (function : Function) : Function :=
  ⟨f function.line, function.header.mapLines f, function.body.map (Node.mapLines f)⟩

def Quoted.mapLines (f : Nat → Nat) : Quoted → Quoted
  | node n => node (n.mapLines f)
  | branch b => branch (b.mapLines f)
  | header h => header (h.mapLines f)

def Value.mapLines (f : Nat → Nat) : Value → Value
  | function g => function (g.mapLines f)
  | quoted q => quoted (q.mapLines f)
  | value => value

/-- A line as diagnostics tell it; only lines of a text are replaced. -/
def relabel (f : Nat → Nat) : Int → Int
  | .ofNat n => .ofNat (f n)
  | .negSucc n => .negSucc n

def Site.mapLines (f : Nat → Nat) (site : Site) : Site :=
  { site with line := site.line.map (relabel f) }

def Fault.mapLines (f : Nat → Nat) : Fault → Fault
  | diagnostic d => diagnostic { d with line := d.line.map (relabel f) }
  | fault => fault

section Values
variable (f : Nat → Nat)

@[simp] theorem Function.toNode_mapLines (g : Function) :
    (g.mapLines f).toNode = g.toNode.mapLines f := by
  simp [Function.toNode, Function.mapLines, Node.mapLines]

@[simp] theorem Function.params_mapLines (g : Function) : (g.mapLines f).params = g.params := rfl

@[simp] theorem Function.name_mapLines (g : Function) : (g.mapLines f).name = g.name := rfl

@[simp] theorem Quoted.listing_mapLines (q : Quoted) : (q.mapLines f).listing = q.listing := by
  cases q <;> simp [Quoted.mapLines, Quoted.listing]

@[simp] theorem Value.typeName_mapLines (v : Value) : (v.mapLines f).typeName = v.typeName := by
  cases v <;> rfl

@[simp] theorem Value.display_mapLines (v : Value) : (v.mapLines f).display = v.display := by
  cases v <;> simp [Value.mapLines, Value.display]

@[simp] theorem Value.mapLines_ofLiteral (l : Literal) :
    (Value.ofLiteral l).mapLines f = .ofLiteral l := by
  cases l <;> rfl

@[simp] theorem Operation.isNothing_mapLines (v : Value) :
    Operation.isNothing (v.mapLines f) = Operation.isNothing v := by
  cases v <;> rfl

end Values

theorem Function.mapLines_id (g : Function) : g.mapLines id = g := by
  have hb := Node.mapLinesList_id g.body
  rw [Node.mapLinesList_eq] at hb
  simp only [Function.mapLines, hb]
  rfl

theorem Value.mapLines_id (v : Value) : v.mapLines id = v := by
  cases v with
  | function g => simp only [Value.mapLines, Function.mapLines_id]
  | quoted q =>
    cases q with
    | node n => simp only [Value.mapLines, Quoted.mapLines, Node.mapLines_id]
    | branch b => simp only [Value.mapLines, Quoted.mapLines, Branch.mapLines_id]
    | header h => rfl
  | _ => rfl

theorem Value.mapLines_mapLines (f g : Nat → Nat) (v : Value) :
    (v.mapLines f).mapLines g = v.mapLines (g ∘ f) := by
  cases v with
  | function h =>
    have hb : (h.body.map (Node.mapLines f)).map (Node.mapLines g) = h.body.map (Node.mapLines (g ∘ f)) := by
      simp [Node.mapLines_mapLines]
    simp only [Value.mapLines, Function.mapLines, hb]
    rfl
  | quoted q =>
    cases q with
    | node n => simp only [Value.mapLines, Quoted.mapLines, Node.mapLines_mapLines]
    | branch b => simp only [Value.mapLines, Quoted.mapLines, Branch.mapLines_mapLines]
    | header h => rfl
  | _ => rfl

theorem Fault.mapLines_id (e : Fault) : e.mapLines id = e := by
  cases e with
  | diagnostic d =>
    obtain ⟨cause, line, col, file⟩ := d
    cases line with
    | none => rfl
    | some line => cases line <;> rfl
  | _ => rfl

/-- Faults told alike with other lines are of one class with one bare message. -/
theorem Fault.alike_of_mapLines_eq {f g : Nat → Nat} {e e' : Fault}
    (h : e.mapLines f = e'.mapLines g) : e.Alike e' := by
  cases e with
  | diagnostic d =>
    cases e' with
    | diagnostic d' =>
      simp only [Fault.mapLines, Fault.diagnostic.injEq, Diagnostic.mk.injEq] at h
      exact Or.inr ⟨d, d', rfl, rfl, h.1⟩
    | _ => cases h
  | _ =>
    cases e' with
    | diagnostic d' => cases h
    | _ => exact Or.inl h

def relabelled (f : Nat → Nat) : Except Fault Value → Except Fault Value
  | .ok value => .ok (value.mapLines f)
  | .error fault => .error (fault.mapLines f)

namespace Operation
variable (f : Nat → Nat) (site : Site)

theorem ranged_mapLines (a : Arithmetic) (l r result : Int) :
    ranged (site.mapLines f) a l r result = relabelled f (ranged site a l r result) := by
  unfold ranged
  split <;> rfl

theorem computeInt_mapLines (a : Arithmetic) (l r : Int) :
    computeInt (site.mapLines f) a l r = relabelled f (computeInt site a l r) := by
  cases a with
  | div =>
    simp only [computeInt, ranged_mapLines]
    split <;> rfl
  | mod =>
    simp only [computeInt, ranged_mapLines]
    split <;> rfl
  | _ => simp only [computeInt, ranged_mapLines]

theorem computeFloat_mapLines (a : Arithmetic) (l r : Binary64) :
    computeFloat (site.mapLines f) a l r = relabelled f (computeFloat site a l r) := by
  cases a with
  | div =>
    simp only [computeFloat]
    split <;> rfl
  | mod =>
    simp only [computeFloat]
    split
    · rfl
    · cases l.rem? r <;> rfl
  | _ => rfl

theorem onBooleans_mapLines (op : Operator) (l r : Bool) :
    ((onBooleans op l r).map .ok).map (relabelled f) = (onBooleans op l r).map .ok := by
  unfold onBooleans
  split <;> rfl

theorem onTexts_mapLines (op : Operator) (l r : String) :
    ((onTexts op l r).map .ok).map (relabelled f) = (onTexts op l r).map .ok := by
  unfold onTexts
  split <;> rfl

/-- What an operator means for two values changes only in the place its faults name. -/
theorem meaning_mapLines (op : Operator) (l r : Value) :
    meaning (site.mapLines f) op (l.mapLines f) (r.mapLines f) =
      (meaning site op l r).map (relabelled f) := by
  cases l <;> cases r
  case integer.integer m n =>
    cases op with
    | arithmetic a => simp only [Value.mapLines, meaning, onInts, computeInt_mapLines, Option.map_some]
    | _ => rfl
  case float.float x y =>
    cases op with
    | arithmetic a =>
      simp only [Value.mapLines, meaning, onFloats, computeFloat_mapLines, Option.map_some]
    | _ => rfl
  case boolean.boolean a b => exact (onBooleans_mapLines f op a b).symm
  case text.text a b => exact (onTexts_mapLines f op a b).symm
  all_goals rfl

theorem unify_mapLines (l r : Value) :
    unify (l.mapLines f) (r.mapLines f) =
      match unify l r with
      | .ok (l, r) => .ok (l.mapLines f, r.mapLines f)
      | .error fault => .error (fault.mapLines f) := by
  cases l <;> cases r
  case integer.float n x =>
    simp only [Value.mapLines, unify, toFloat]
    cases Binary64.ofInt? n <;> rfl
  case float.integer x n =>
    simp only [Value.mapLines, unify, toFloat]
    cases Binary64.ofInt? n <;> rfl
  all_goals rfl

/-- Applying an operator at a changed place gives the same value, or the same fault at the
changed place. -/
theorem apply_mapLines (spelling : String) (l r : Value) :
    apply (site.mapLines f) spelling (l.mapLines f) (r.mapLines f) =
      relabelled f (apply site spelling l r) := by
  simp only [apply, isNothing_mapLines, Value.display_mapLines, unify_mapLines]
  split
  · rfl
  · cases unify l r with
    | error fault => rfl
    | ok pair =>
      obtain ⟨l', r'⟩ := pair
      cases Operator.ofSpelling? spelling with
      | none => rfl
      | some op =>
        simp only [bind, Except.bind, Option.bind, meaning_mapLines]
        cases meaning site op l' r' <;> rfl

end Operation

/-- Formats are filled alike, for the text of a value does not show lines. -/
theorem fillFormat_mapLines (f : Nat → Nat) (format : List Char) (values : List Value) :
    fillFormat format (values.map (Value.mapLines f)) = fillFormat format values := by
  fun_induction fillFormat format values with
  | case1 values => rw [fillFormat]
  | case2 cs ih => rw [List.map_nil, fillFormat]
  | case3 cs v vs ih => rw [List.map_cons, fillFormat, Value.display_mapLines, ih]
  | case4 cs vs ih => rw [fillFormat, ih]
  | case5 cs vs ih => rw [fillFormat, ih]
  | case6 c cs vs hnil hcons hopen hclose ih =>
    rw [fillFormat, ih]
    · exact hopen
    · exact hclose
    · intro cs' hvs
      exact hnil cs' (List.map_eq_nil_iff.mp hvs)
    · intro cs' v vs' hvs
      obtain ⟨u, us, hu, -⟩ := List.map_eq_cons_iff.mp hvs
      exact hcons cs' u us hu

theorem printed_mapLines (f : Nat → Nat) (values : List Value) :
    printed (values.map (Value.mapLines f)) = printed values := by
  cases values with
  | nil => rfl
  | cons v vs =>
    have hd := v.display_mapLines f
    cases v with
    | text format => simp only [List.map_cons, Value.mapLines, printed, fillFormat_mapLines]
    | _ => exact hd

namespace Native
variable (f : Nat → Nat) (args : List Value)

theorem print_mapLines : print (args.map (Value.mapLines f)) = print args := by
  simp only [print, printed_mapLines]

theorem input_mapLines : input (args.map (Value.mapLines f)) = input args := by
  simp only [input, printed_mapLines]

theorem readFile_mapLines : readFile (args.map (Value.mapLines f)) = readFile args := by
  cases args with
  | nil => rfl
  | cons v vs =>
    cases vs with
    | cons u us => cases v <;> rfl
    | nil =>
      have hd := congrArg (fun shown => (pure (Value.failure
        ("Expected file name to be of type string, but received: " ++ shown)) :
          EStateM Fault World Value)) (v.display_mapLines f)
      cases v with
      | function g => exact hd
      | quoted q => exact hd
      | _ => rfl

theorem length_mapLines : length (args.map (Value.mapLines f)) = length args := by
  cases args with
  | nil => rfl
  | cons v vs =>
    cases vs with
    | cons u us => cases v <;> rfl
    | nil =>
      have hd := congrArg (fun shown => (pure (Value.failure
        ("Expected structure that has function length, but received: " ++ shown)) :
          EStateM Fault World Value)) (v.display_mapLines f)
      cases v with
      | function g => exact hd
      | quoted q => exact hd
      | _ => rfl

/-- The standard natives do not look at the lines of their arguments. -/
theorem standard_mapLines {name : String} {native : Native} (hf : standard.find? name = some native) :
    native (args.map (Value.mapLines f)) = native args := by
  have hmem := Table.mem_of_find?_ofList hf
  simp only [List.mem_cons, Prod.mk.injEq, List.not_mem_nil, or_false] at hmem
  rcases hmem with ⟨-, rfl⟩ | ⟨-, rfl⟩ | ⟨-, rfl⟩ | ⟨-, rfl⟩ | ⟨-, rfl⟩
  · exact print_mapLines f args
  · exact input_mapLines f args
  · exact print_mapLines f args
  · exact readFile_mapLines f args
  · exact length_mapLines f args

end Native

/-! Tables and chains of scopes with another value under each name. -/

def Table.map {α β : Type} (g : α → β) (t : Table α) : Table β :=
  ⟨t.entries.map fun e => (e.1, g e.2)⟩

namespace Table
variable {α β : Type} (g : α → β)

@[simp] theorem find?_map (t : Table α) (name : String) :
    (t.map g).find? name = (t.find? name).map g := by
  obtain ⟨es⟩ := t
  simp only [find?, map]
  induction es with
  | nil => rfl
  | cons e es ih =>
    obtain ⟨n, a⟩ := e
    simp only [List.map_cons, List.lookup_cons]
    cases name == n with
    | true => rfl
    | false => exact ih

@[simp] theorem contains_map (t : Table α) (name : String) :
    (t.map g).contains name = t.contains name := by
  simp [contains]

theorem map_insert (t : Table α) (name : String) (a : α) :
    (t.insert name a).map g = (t.map g).insert name (g a) := by
  obtain ⟨es⟩ := t
  simp only [insert, map, Table.mk.injEq]
  induction es with
  | nil => rfl
  | cons e es ih =>
    by_cases h : name = e.1
    · simp [insert.go, h]
    · simp [insert.go, h, ih]

theorem map_ofList (bindings : List (String × α)) :
    (ofList bindings).map g = ofList (bindings.map fun b => (b.1, g b.2)) := by
  have hgo : ∀ t : Table α, (bindings.foldl (fun t b => t.insert b.1 b.2) t).map g =
      (bindings.map fun b => (b.1, g b.2)).foldl (fun t b => t.insert b.1 b.2) (t.map g) := by
    induction bindings with
    | nil => intro t; rfl
    | cons b bs ih =>
      intro t
      simp only [List.foldl_cons, List.map_cons, ih, map_insert]
  exact hgo empty

end Table

def Scopes.map {α β : Type} (g : α → β) (c : Scopes α) : Scopes β :=
  ⟨c.innermost.map g, c.around.map (Table.map g)⟩

namespace Scopes
variable {α β : Type} (g : α → β)

theorem map_dropInnermost (c : Scopes α) : c.dropInnermost.map g = (c.map g).dropInnermost := by
  obtain ⟨innermost, around⟩ := c
  cases around <;> rfl

@[simp] theorem find?_map (c : Scopes α) (name : String) :
    (c.map g).find? name = (c.find? name).map g := by
  have hgo : ∀ scopes : List (Table α), (scopes.map (Table.map g)).findSome? (·.find? name) =
      (scopes.findSome? (·.find? name)).map g := by
    intro scopes
    induction scopes with
    | nil => rfl
    | cons scope scopes ih =>
      simp only [List.map_cons, List.findSome?_cons, Table.find?_map, ih]
      cases scope.find? name <;> rfl
  exact hgo (c.innermost :: c.around)

@[simp] theorem contains_map (c : Scopes α) (name : String) :
    (c.map g).contains name = c.contains name := by
  simp [contains]

theorem map_define (c : Scopes α) (name : String) (a : α) :
    (c.define name a).map g = (c.map g).define name (g a) := by
  simp only [map, define, Table.map_insert]

theorem map_assignIn (name : String) (a : α) (scopes : List (Table α)) :
    (assignIn name a scopes).map (Table.map g) = assignIn name (g a) (scopes.map (Table.map g)) := by
  induction scopes with
  | nil => rfl
  | cons scope scopes ih =>
    simp only [assignIn, List.map_cons, Table.contains_map]
    split
    · simp only [List.map_cons, Table.map_insert]
    · simp only [List.map_cons, ih]

/-- Assigning a changed value in changed scopes is the change of the assignment. -/
theorem map_assign (c : Scopes α) (name : String) (a : α) :
    (c.assign name a).map g = (c.map g).assign name (g a) := by
  simp only [assign, map, Table.contains_map]
  split
  · simp only [Table.map_insert]
  · simp only [map_assignIn]

end Scopes
end ScriptLang
