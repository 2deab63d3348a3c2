import ScriptLang.Proofs.Evaluator.Regime
import ScriptLang.Proofs.Tree.Bindings

/-! What an evaluation is made of. One evaluation of a node does a few kinds of things only: it evaluates
nodes that stand in it, binds a name that it names, asks a native, computes, and calls functions, always one
deeper and in a scope of their own. This is said once for all nodes, and for every limit and every rule for
the nodes inside, so that whatever is to hold of evaluations is shown by induction on it. -/
namespace ScriptLang

def Value.code? : Value → Option Node
  | function f => some f.toNode
  | quoted (.node node) => some node
  | _ => none

structure Bounds where
  depth : Int
  evaluations : Nat

def Host.within (host : Host) (b : Bounds) : Host :=
  { host with depthLimit := b.depth, limits := { host.limits with evaluations := b.evaluations } }

def Host.bounds (host : Host) : Bounds :=
  ⟨host.depthLimit, host.limits.evaluations⟩

/-- What some steps may do by themselves: the nodes that they evaluate where they are taken, those that they
evaluate in a block within, those whose operators and rounds are theirs, the names that they define, and
those that they assign. -/
structure Permit where
  nodes : Node → Prop
  inner : Node → Prop
  own : Node → Prop
  defines : String → Prop
  assigns : String → Prop

def Permit.only (nodes : Node → Prop) : Permit :=
  ⟨nodes, fun _ => False, fun _ => False, fun _ => False, fun _ => False⟩

namespace Eval

abbrev Steps (α : Type) := Bounds → (Node → Eval Outcome) → Eval α

def around {α : Type} (before after : State → State) (steps : Eval α) : Eval α := fun s =>
  match steps (before s) with
  | .ok a t => .ok a (after t)
  | .error fault t => .error fault (after t)

theorem inScope_eq_around {α : Type} (scope : Table Value) (steps : Eval α) :
    inScope scope steps = around (fun s => { s with scopes := s.scopes.push scope })
      (fun s => { s with scopes := s.scopes.dropInnermost }) steps :=
  rfl

theorem oneDeeper_eq_around {α : Type} (steps : Eval α) :
    oneDeeper steps = around (fun s => { s with depth := s.depth + 1 })
      (fun s => { s with depth := s.depth - 1 }) steps :=
  rfl

def enter {α : Type} (limit : Int) (site : Site) (params : List String) (args : Eval (List Value))
    (body : Eval α) : Eval α := fun s =>
  if limit ≤ s.depth then refuseAt site (.callDepth limit) s
  else (do
    let values ← args
    oneDeeper (inScope (Table.ofList (params.zip values)) body)) s

/-- A function is entered when it is called with as many arguments as it has parameters. -/
theorem callFunction_function (host : Host) (sub : Node → Eval Outcome) (name : String) (f : Function)
    (receiver : Option Value) (args : List Node) (line : Nat) :
    callFunction host sub name (.function f) receiver args line =
      if receiver.toList.length + args.length ≠ f.params.length then
        refuse host (.arity name f.params.length (receiver.toList.length + args.length)) line
      else enter host.depthLimit (host.site line) f.params (handOver host sub receiver args)
        (functionBody host sub f.body) := by
  funext t
  rw [callFunction_eq]
  split
  · rfl
  · rw [enter]
    split
    · rfl
    · rfl

end Eval

namespace Regime
open Eval
variable {host : Host}

def Received (R : Regime host) (node : Node) : Prop :=
  ∃ v, R.value v ∧ (host.structs.find? v.typeName).isSome = true ∧ v.code? = some node

def permit (R : Regime host) (n : Node) : Permit where
  nodes part := part ∈ n.exposed ∨ R.Received part
  inner part := part ∈ n.enclosed
  own node := node = n
  defines name := n.defines? = some name
  assigns name := n.assigns? = some name

/-- What a step in the regime may be refused for: only a piece of syntax that is handed in cannot be
evaluated at all. -/
def Refuses (R : Regime host) : Cause → Prop
  | .notEvaluable _ => ∃ q, R.value (.quoted q)
  | _ => True

/-- Steps that are made of what a permit allows, with results in `Q` in scopes of the regime. -/
inductive Composed (R : Regime host) : Permit → {α : Type} → (α → Prop) → Steps α → Prop
  | pure {l : Permit} {α : Type} {Q : α → Prop} {a : α} :
    Q a → Composed R l Q fun _ _ => Pure.pure a
  | refuse {l : Permit} {α : Type} {Q : α → Prop} {cause : Cause} (line : Nat) : R.Refuses cause →
    Composed R l Q fun _ _ => (Eval.refuse host cause line : Eval α)
  /-- Only a loop has rounds that run out. -/
  | unfinished {l : Permit} {α : Type} {Q : α → Prop} {line : Nat} {condition : Node}
    {body : List Node} : l.own (.loop line condition body) →
    Composed R l Q fun _ _ => (MonadExcept.throw Fault.unfinished : Eval α)
  | evaluate {l : Permit} {node : Node} :
    l.nodes node → Composed R l (fun outcome => R.value outcome.value) fun _ sub => sub node
  | bind {l : Permit} {α β : Type} {Q : α → Prop} {Q' : β → Prop} {m : Steps α}
    {f : α → Steps β} : Composed R l Q m → (∀ a, Q a → Composed R l Q' (f a)) →
    Composed R l Q' fun b sub => m b sub >>= fun a => f a b sub
  | read {l : Permit} {α : Type} {Q : α → Prop} {f : State → Steps α} :
    (∀ s, R.Holds s → Composed R l Q (f s)) →
    Composed R l Q fun b sub => MonadState.get >>= fun s => f s b sub
  | define {l : Permit} {name : String} {value : Value} :
    l.defines name → R.value value → Composed R l R.value fun _ _ => Eval.define name value
  | assign {l : Permit} {name : String} {value : Value} :
    l.assigns name → R.value value →
    Composed R l (fun _ => True) fun _ _ => modifyScopes (·.assign name value)
  | native {l : Permit} {name : String} {native : Native} {args : List Value} :
    host.natives.find? name = some native → (∀ v ∈ args, R.value v) →
    Composed R l R.value fun _ _ => ofWorld (native args)
  /-- Only the operator of a node computes. -/
  | operation {l : Permit} {line : Nat} (spelling : String) {first second : Option Node}
    {left right : Value} : l.own (.binary line spelling first second) →
    R.value left → R.value right → Composed R l R.value fun _ _ =>
      Eval.ofExcept (Operation.apply (host.site line) spelling left right)
  | block {l : Permit} {α : Type} {Q : α → Prop} {m : Steps α} :
    Composed R (.only l.inner) Q m → Composed R l Q fun b sub => inScope {} (m b sub)
  | enter {l : Permit} {α : Type} {Q : α → Prop} (line : Nat) (params : List String)
    {args : Steps (List Value)} {body : Steps α} :
    Composed R l (fun values => ∀ v ∈ values, R.value v) args → Composed R (.only R.node) Q body →
    Composed R l Q fun b sub =>
      Eval.enter b.depth (host.site line) params (args b sub) (body b sub)

variable {R : Regime host} {l : Permit}

/-- The code that a value of the regime stands for belongs to the regime. -/
theorem node_of_code {v : Value} {node : Node} (hv : R.value v) (hc : v.code? = some node) :
    R.node node := by
  cases v with
  | function f =>
    cases hc
    exact R.node_function hv
  | quoted q =>
    cases q with
    | node n =>
      cases hc
      exact R.node_quoted hv
    | branch | header => cases hc
  | _ => cases hc

theorem node_of_received {node : Node} (h : R.Received node) : R.node node := by
  obtain ⟨v, hv, -, hc⟩ := h
  exact node_of_code hv hc

/-- Of the standard types only texts have members, and a text is no code. -/
theorem not_received_of_standard (hs : host.structs = Prototype.standard) (node : Node) :
    ¬R.Received node := by
  rintro ⟨v, -, hm, hc⟩
  have hfun : (Prototype.standard.find? "fun").isSome = false := by decide
  have hnull : (Prototype.standard.find? "null").isSome = false := by decide
  rw [hs] at hm
  cases v with
  | function f => exact Bool.false_ne_true (hfun.symm.trans hm)
  | quoted q => exact Bool.false_ne_true (hnull.symm.trans hm)
  | _ => cases hc

theorem composed_expression {node : Node} (h : l.nodes node) :
    R.Composed l R.value fun b sub => expression (host.within b) sub node := by
  apply Composed.bind (.evaluate h)
  intro outcome hv
  cases outcome with
  | normal value => exact .pure hv
  | breaking => exact .refuse _ trivial
  | continuing => exact .refuse _ trivial
  | returning value => exact .refuse _ trivial

theorem composed_again {value : Value} (hv : R.value value)
    (h : ∀ node, value.code? = some node → l.nodes node) :
    R.Composed l R.value fun b sub => again (host.within b) sub value := by
  cases value with
  | function f => exact composed_expression (h f.toNode rfl)
  | quoted q =>
    cases q with
    | node node => exact composed_expression (h node rfl)
    | branch branch => exact .refuse _ ⟨_, hv⟩
    | header header => exact .refuse _ ⟨_, hv⟩
  | _ => exact .pure hv

theorem composed_expressions {nodes : List Node} (h : ∀ n ∈ nodes, l.nodes n) :
    R.Composed l (fun values => ∀ v ∈ values, R.value v) fun b sub =>
      expressions (host.within b) sub nodes := by
  induction nodes with
  | nil => exact .pure (List.forall_mem_nil _)
  | cons node nodes ih =>
    obtain ⟨hnode, hnodes⟩ := List.forall_mem_cons.mp h
    apply Composed.bind (composed_expression hnode)
    intro value hv
    apply Composed.bind (ih hnodes)
    intro values hvs
    exact .pure (List.forall_mem_cons.mpr ⟨hv, hvs⟩)

theorem composed_block {nodes : List Node} (h : ∀ n ∈ nodes, l.nodes n) :
    R.Composed l (fun outcome => R.value outcome.value) fun _ sub => block sub nodes := by
  induction nodes with
  | nil => exact .pure R.value_nothing
  | cons node nodes ih =>
    obtain ⟨hnode, hnodes⟩ := List.forall_mem_cons.mp h
    apply Composed.bind (.evaluate hnode)
    intro outcome hv
    cases outcome with
    | normal value => exact ih hnodes
    | breaking => exact .pure hv
    | continuing => exact .pure hv
    | returning value => exact .pure hv

/-- What a function returns is evaluated once more where its body runs. -/
theorem composed_functionBody {nodes : List Node} (h : ∀ n ∈ nodes, R.node n) :
    R.Composed (.only R.node) R.value fun b sub => functionBody (host.within b) sub nodes := by
  induction nodes with
  | nil => exact .pure R.value_nothing
  | cons node nodes ih =>
    obtain ⟨hnode, hnodes⟩ := List.forall_mem_cons.mp h
    apply Composed.bind (.evaluate hnode)
    intro outcome hv
    cases outcome with
    | returning value =>
      apply composed_again hv
      intro code hc
      exact node_of_code hv hc
    | normal value => exact ih hnodes
    | breaking => exact ih hnodes
    | continuing => exact ih hnodes

/-- A receiver is evaluated where the arguments are. -/
theorem composed_handOver {receiver : Option Value} {args : List Node}
    (hr : ∀ v ∈ receiver, R.value v ∧ ∀ node, v.code? = some node → l.nodes node)
    (ha : ∀ n ∈ args, l.nodes n) :
    R.Composed l (fun values => ∀ v ∈ values, R.value v) fun b sub =>
      handOver (host.within b) sub receiver args := by
  have hfirst : R.Composed l (fun values => ∀ v ∈ values, R.value v) fun b sub =>
      receiver.toList.mapM (again (host.within b) sub) := by
    cases receiver with
    | none => exact .pure (List.forall_mem_nil _)
    | some value =>
      obtain ⟨hv, hcode⟩ := hr value rfl
      simp only [Option.toList, List.mapM_cons, List.mapM_nil, pure_bind]
      apply Composed.bind (composed_again hv hcode)
      intro first hf
      exact .pure (List.forall_mem_singleton.mpr hf)
  apply Composed.bind hfirst
  intro first hf
  apply Composed.bind (composed_expressions ha)
  intro others ho
  exact .pure (List.forall_mem_append.mpr ⟨hf, ho⟩)

/-- A call is composed of its arguments and of the body of the function, one level deeper and in
a scope with its parameters. -/
theorem composed_callFunction (name : String) {function : Value} (hf : R.value function)
    {receiver : Option Value} {args : List Node}
    (hr : ∀ v ∈ receiver, R.value v ∧ ∀ node, v.code? = some node → l.nodes node)
    (ha : ∀ n ∈ args, l.nodes n) (line : Nat) :
    R.Composed l R.value fun b sub =>
      callFunction (host.within b) sub name function receiver args line := by
  cases function with
  | function f =>
    have hbody : ∀ n ∈ f.body, R.node n := fun n hn => R.node_of_mem_parts (R.node_function hf) hn
    simp only [callFunction_function]
    split
    · exact .refuse _ trivial
    · exact .enter line f.params (composed_handOver hr ha) (composed_functionBody hbody)
  | _ => exact .refuse _ trivial

theorem composed_lookup (kind name : String) (line : Nat) :
    R.Composed l R.value fun b _ => lookup (host.within b) kind name line := by
  apply Composed.read
  intro s hs
  split
  · next value hf => exact .pure (Scopes.Binds.find? hs hf)
  · exact .refuse _ trivial

theorem composed_call (name : String) {args : List Node} (ha : ∀ n ∈ args, l.nodes n) (line : Nat) :
    R.Composed l R.value fun b sub => call (host.within b) sub name args line := by
  unfold call
  cases hf : host.natives.find? name with
  | some native =>
    simp only [Host.within, hf]
    apply Composed.bind (composed_expressions ha)
    intro values hv
    exact .native hf hv
  | none =>
    simp only [Host.within, hf]
    apply Composed.bind (composed_lookup "function" name line)
    intro function hv
    apply composed_callFunction name hv _ ha line
    simp

/-- A member is only ever found in a struct that the host has for the kind of the receiver. -/
theorem composed_memberOf (node : Node) (receiver : Value) (attr : String) :
    R.Composed l (fun v => R.value v ∧ (host.structs.find? receiver.typeName).isSome = true)
      fun b _ => memberOf (host.within b) node receiver attr := by
  unfold memberOf
  cases hp : host.structs.find? receiver.typeName with
  | some prototype =>
    simp only [Host.within, hp]
    exact .pure ⟨R.value_member attr hp, rfl⟩
  | none =>
    simp only [Host.within, hp]
    exact .refuse _ trivial

/-- A member call has a receiver with members. -/
theorem composed_member (node : Node) (name attr : String) {args : Option (List Node)}
    (hr : ∀ n, R.Received n → l.nodes n) (ha : ∀ nodes ∈ args, ∀ n ∈ nodes, l.nodes n) :
    R.Composed l R.value fun b sub => member (host.within b) sub node name attr args := by
  apply Composed.bind (composed_lookup "variable" name node.line)
  intro receiver hv
  apply Composed.bind (composed_memberOf node receiver attr)
  intro value hm
  cases args with
  | none => exact .pure hm.1
  | some args =>
    dsimp only
    split
    · exact .pure hm.1
    · apply composed_callFunction attr hm.1 _ (ha args rfl)
      intro v hmem
      cases hmem
      exact ⟨hv, fun code hc => hr code ⟨receiver, hv, hm.2, hc⟩⟩

theorem composed_assign {line : Nat} {left right : Node} (hn : l.nodes right)
    (hd : ∀ at' name, left = .declaration at' name → l.defines name)
    (hs : ∀ at' name, left = .reference at' name → l.assigns name) :
    R.Composed l R.value fun b sub =>
      Eval.assign (host.within b) sub ((host.within b).site line) left right := by
  cases left with
  | declaration at' name =>
    apply Composed.bind (composed_expression hn)
    intro value hv
    exact .define (hd at' name rfl) hv
  | reference at' name =>
    apply Composed.bind (composed_expression hn)
    intro value hv
    apply Composed.read
    intro s _
    split
    · exact .bind (.refuse (Q := fun _ => False) line trivial) fun _ => False.elim
    · apply Composed.bind (.assign (hs at' name rfl) hv)
      intro _ _
      exact .pure hv
  | _ => exact .refuse line trivial

/-- An operator is composed of its operands, of the name it binds and of one application. -/
theorem composed_binary {line : Nat} {operator : String} {left right : Option Node}
    (hb : l.own (.binary line operator left right)) (hn : ∀ n, n ∈ left ∨ n ∈ right → l.nodes n)
    (hd : ∀ name, (Node.binary line operator left right).defines? = some name → l.defines name)
    (hs : ∀ name, (Node.binary line operator left right).assigns? = some name → l.assigns name) :
    R.Composed l R.value fun b sub =>
      binary (host.within b) sub ((host.within b).site line) operator left right := by
  cases left with
  | none => exact .refuse line trivial
  | some left =>
    cases right with
    | none => exact .refuse line trivial
    | some right =>
      simp only [binary]
      split
      · next ho =>
        apply composed_assign (hn right (Or.inr rfl))
        · rintro at' name rfl
          exact hd name (by simp [Node.defines?, ho])
        · rintro at' name rfl
          exact hs name (by simp [Node.assigns?, ho])
      · apply Composed.bind (composed_expression (hn left (Or.inl rfl)))
        intro lv hl
        apply Composed.bind (composed_expression (hn right (Or.inr rfl)))
        intro rv hr
        exact .operation operator hb hl hr

theorem composed_test (statement : String) {condition : Node} (h : l.nodes condition) :
    R.Composed l (fun _ => True) fun b sub => test (host.within b) sub statement condition := by
  apply Composed.bind (composed_expression h)
  intro value _
  cases value with
  | boolean holds => exact .pure trivial
  | _ => exact .refuse _ trivial

theorem composed_branches {bs : List Branch} (hc : ∀ b ∈ bs, l.nodes b.condition)
    (hb : ∀ b ∈ bs, ∀ n ∈ b.body, l.inner n) :
    R.Composed l (fun outcome => R.value outcome.value) fun b sub =>
      branches (host.within b) sub bs := by
  induction bs with
  | nil => exact .pure R.value_nothing
  | cons branch bs ih =>
    obtain ⟨hcondition, hconditions⟩ := List.forall_mem_cons.mp hc
    obtain ⟨hbody, hbodies⟩ := List.forall_mem_cons.mp hb
    apply Composed.bind (composed_test "if" hcondition)
    intro holds _
    cases holds with
    | true => exact .block (composed_block hbody)
    | false => exact ih hconditions hbodies

theorem composed_loop {line : Nat} {condition : Node} {body : List Node}
    (hl : l.own (.loop line condition body)) (hc : l.nodes condition) (hb : ∀ n ∈ body, l.inner n)
    (rounds : Nat) :
    R.Composed l (fun outcome => R.value outcome.value) fun b sub =>
      loop (host.within b) sub condition body rounds := by
  induction rounds with
  | zero => exact .unfinished hl
  | succ rounds ih =>
    apply Composed.bind (composed_test "while" hc)
    intro holds _
    cases holds with
    | false => exact .pure R.value_nothing
    | true =>
      apply Composed.bind (.block (composed_block hb))
      intro outcome hv
      cases outcome with
      | breaking => exact .pure R.value_nothing
      | returning value => exact .pure hv
      | normal value => exact ih
      | continuing => exact ih

theorem composed_normal {m : Steps Value} (h : R.Composed l R.value m) :
    R.Composed l (fun outcome => R.value outcome.value) fun b sub =>
      (do return Outcome.normal (← m b sub)) :=
  .bind h fun _ hv => .pure hv

/-- One evaluation is made of what its node permits. -/
theorem composed_step {node : Node} (hn : R.node node) :
    R.Composed (R.permit node) (fun outcome => R.value outcome.value) fun b sub =>
      step (host.within b) sub node := by
  have hreceived : ∀ n, R.Received n → (R.permit node).nodes n := fun n => Or.inr
  cases node with
  | literal line value => exact .pure (R.value_literal hn)
  | breaking line => exact .pure R.value_nothing
  | continuing line => exact .pure R.value_nothing
  | struct line name => exact .pure R.value_nothing
  | declaration line name => exact .refuse line trivial
  | returning line payload =>
    cases payload with
    | none => exact .pure R.value_nothing
    | some payload =>
      have hpayload : (R.permit (.returning line (some payload))).nodes payload :=
        Or.inl (by simp [Node.exposed])
      apply Composed.bind (composed_expression hpayload)
      intro value hv
      exact .pure hv
  | reference line name => exact composed_normal (composed_lookup _ name line)
  | binary line operator left right =>
    apply composed_normal
    apply composed_binary rfl
    · rintro n (hmem | hmem)
      · exact Or.inl (by simp [Node.exposed, Option.mem_def.mp hmem])
      · exact Or.inl (by simp [Node.exposed, Option.mem_def.mp hmem])
    · exact fun name => id
    · exact fun name => id
  | function line header body =>
    apply Composed.read
    intro s _
    have hdefine : R.Composed (R.permit (.function line header body)) R.value fun _ _ =>
        Eval.define header.name (.function ⟨line, header, body⟩) :=
      .define rfl (R.value_function (f := ⟨line, header, body⟩) hn)
    split
    · exact .bind (.refuse (Q := fun _ => False) line trivial) fun _ => False.elim
    · exact composed_normal hdefine
  | call line name args =>
    exact composed_normal (composed_call name (fun n hmem => Or.inl hmem) line)
  | conditional line bs =>
    apply composed_branches
    · intro b hb
      exact Or.inl (List.mem_map.mpr ⟨b, hb, rfl⟩)
    · intro b hb n hmem
      exact List.mem_flatMap.mpr ⟨b, hb, hmem⟩
  | loop line condition body =>
    exact composed_loop rfl (Or.inl List.mem_cons_self) (fun n => id) _
  | member line name attr =>
    apply composed_normal
    apply composed_member _ name attr hreceived
    intro nodes hmem
    cases hmem
  | memberCall line name attr args =>
    apply composed_normal
    apply composed_member _ name attr hreceived
    intro nodes hmem
    cases hmem
    exact fun n hn => Or.inl hn

end Regime
end ScriptLang
