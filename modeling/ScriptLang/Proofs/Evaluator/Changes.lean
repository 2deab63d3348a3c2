import ScriptLang.Proofs.Evaluator.Regime
import ScriptLang.Proofs.Evaluator.Relabelled

/-! Evaluations that differ in what they only carry along. A change gives the lines of a program other
numbers and puts text before all that was written. Evaluating what a change makes of a program, in
what it makes of a state, comes to what it makes of the result: lines are looked at by nothing but
diagnostics, and what was written is not looked at at all. -/
namespace ScriptLang

structure Change where
  lines : Nat → Nat := id
  before : String := ""

namespace Change

def value (c : Change) : Value → Value :=
  Value.mapLines c.lines

def node (c : Change) : Node → Node :=
  Node.mapLines c.lines

def outcome (c : Change) : Outcome → Outcome
  | .normal v => .normal (c.value v)
  | .returning v => .returning (c.value v)
  | .breaking => .breaking
  | .continuing => .continuing

def world (c : Change) (w : World) : World :=
  { w with output := c.before ++ w.output }

def state (c : Change) (s : State) : State :=
  ⟨s.scopes.map c.value, s.depth, c.world s.world⟩

def result {σ α β : Type} (c : Change) (f : σ → σ) (g : α → β) :
    EStateM.Result Fault σ α → EStateM.Result Fault σ β
  | .ok a s => .ok (g a) (f s)
  | .error fault s => .error (fault.mapLines c.lines) (f s)

def FollowsNative (c : Change) (native native' : Native) : Prop :=
  ∀ args w, native' (args.map c.value) (c.world w) = c.result c.world c.value (native args w)

structure FollowsHost (c : Change) (host host' : Host) : Prop where
  file : host'.file = host.file
  depthLimit : host'.depthLimit = host.depthLimit
  limits : host'.limits = host.limits
  natives : ∀ name, Option.Rel c.FollowsNative (host.natives.find? name) (host'.natives.find? name)
  structs : ∀ name, (host'.structs.find? name).map (·.members) =
    (host.structs.find? name).map (·.members.map c.value)

/-- Steps that come to the changed result in the changed state. -/
def Follows {α β : Type} (c : Change) (g : α → β) (m : Eval α) (m' : Eval β) : Prop :=
  ∀ s, m' (c.state s) = c.result c.state g (m s)

variable {c : Change} {α β γ δ : Type} {g : α → β} {h : γ → δ}

namespace Follows

theorem pure (g : α → β) (a : α) : c.Follows g (Pure.pure a) (Pure.pure (g a)) :=
  fun _ => rfl

theorem throw (g : α → β) (fault : Fault) :
    c.Follows g (MonadExcept.throw fault) (MonadExcept.throw (fault.mapLines c.lines)) :=
  fun _ => rfl

theorem refuseAt (g : α → β) (site : Site) (cause : Cause) :
    c.Follows g (Eval.refuseAt site cause) (Eval.refuseAt (site.mapLines c.lines) cause) :=
  fun _ => rfl

theorem bind {m : Eval α} {m' : Eval β} {f : α → Eval γ} {f' : β → Eval δ} (hm : c.Follows g m m')
    (hf : ∀ a, c.Follows h (f a) (f' (g a))) : c.Follows h (m >>= f) (m' >>= f') := by
  intro s
  have hs := hm s
  simp only [Bind.bind, EStateM.bind]
  rw [hs]
  cases m s with
  | ok a t => exact hf a t
  | error fault t => rfl

theorem get {f : State → Eval γ} {f' : State → Eval δ} (hf : ∀ s, c.Follows h (f s) (f' (c.state s))) :
    c.Follows h (MonadState.get >>= f) (MonadState.get >>= f') :=
  fun s => hf s s

theorem ofExcept {result : Except Fault Value} :
    c.Follows c.value (Eval.ofExcept result) (Eval.ofExcept (relabelled c.lines result)) := by
  intro s
  cases result <;> rfl

/-- A native that follows under the change may be called on either side. -/
theorem ofWorld {native native' : Native} (hn : c.FollowsNative native native') (args : List Value) :
    c.Follows c.value (Eval.ofWorld (native args)) (Eval.ofWorld (native' (args.map c.value))) := by
  intro s
  have hw : native' (args.map c.value) (c.state s).world = _ := hn args s.world
  simp only [Eval.ofWorld, hw]
  cases native args s.world <;> rfl

theorem inScope {m : Eval α} {m' : Eval β} (hm : c.Follows g m m') (scope : Table Value) :
    c.Follows g (Eval.inScope scope m) (Eval.inScope (scope.map c.value) m') := by
  intro s
  have hs := hm { s with scopes := s.scopes.push scope }
  have hpush : c.state { s with scopes := s.scopes.push scope } =
      { c.state s with scopes := (c.state s).scopes.push (scope.map c.value) } := rfl
  rw [hpush] at hs
  simp only [Eval.inScope, hs]
  cases m { s with scopes := s.scopes.push scope } with
  | ok a t => simp only [result, state, Scopes.map_dropInnermost]
  | error fault t => simp only [result, state, Scopes.map_dropInnermost]

theorem oneDeeper {m : Eval α} {m' : Eval β} (hm : c.Follows g m m') :
    c.Follows g (Eval.oneDeeper m) (Eval.oneDeeper m') := by
  intro s
  have hs := hm { s with depth := s.depth + 1 }
  have hdeeper : c.state { s with depth := s.depth + 1 } =
      { c.state s with depth := (c.state s).depth + 1 } := rfl
  rw [hdeeper] at hs
  simp only [Eval.oneDeeper, hs]
  cases m { s with depth := s.depth + 1 } <;> rfl

theorem define (name : String) (v : Value) :
    c.Follows c.value (Eval.define name v) (Eval.define name (c.value v)) := by
  intro s
  have hscopes := Scopes.map_define c.value s.scopes name v
  have hd : (c.state s).scopes.define name (c.value v) = (s.scopes.define name v).map c.value :=
    hscopes.symm
  simp only [Eval.define, Eval.modifyScopes, Bind.bind, EStateM.bind, hd]
  rfl

theorem assign (name : String) (v : Value) :
    c.Follows id (Eval.modifyScopes (·.assign name v)) (Eval.modifyScopes (·.assign name (c.value v))) := by
  intro s
  have hscopes := Scopes.map_assign c.value s.scopes name v
  have ha : (c.state s).scopes.assign name (c.value v) = (s.scopes.assign name v).map c.value :=
    hscopes.symm
  simp only [Eval.modifyScopes, ha]
  rfl

/-- A refusal hides what would come after it. -/
theorem refuseAt_bind (site : Site) (cause : Cause) (f : α → Eval γ) (f' : β → Eval δ) :
    c.Follows h (Eval.refuseAt site cause >>= f)
      (Eval.refuseAt (site.mapLines c.lines) cause >>= f') :=
  fun _ => rfl

end Follows

/-! The rules, given rules for the nodes inside that follow each other. -/
section Rules
open Eval

variable {host host' : Host} {sub sub' : Node → Eval Outcome}

def FollowsRule (c : Change) (sub sub' : Node → Eval Outcome) : Prop :=
  ∀ node, c.Follows c.outcome (sub node) (sub' (c.node node))

theorem FollowsHost.site (hh : c.FollowsHost host host') (line : Nat) :
    host'.site (c.lines line) = (host.site line).mapLines c.lines := by
  unfold Host.site
  rw [hh.file]
  rfl

theorem FollowsHost.refuse (hh : c.FollowsHost host host') (g : α → β) (cause : Cause) (line : Nat) :
    c.Follows g (Eval.refuse host cause line) (Eval.refuse host' cause (c.lines line)) := by
  unfold Eval.refuse
  rw [hh.site]
  exact .refuseAt g _ cause

variable (hh : c.FollowsHost host host') (hs : c.FollowsRule sub sub')
include hh hs

theorem follows_expression (node : Node) :
    c.Follows c.value (expression host sub node) (expression host' sub' (c.node node)) := by
  have hline : (c.node node).line = c.lines node.line := node.line_mapLines c.lines
  apply (hs node).bind
  intro outcome
  cases outcome with
  | normal v => exact .pure c.value v
  | breaking => exact hline ▸ hh.refuse c.value _ node.line
  | continuing => exact hline ▸ hh.refuse c.value _ node.line
  | returning v => exact hline ▸ hh.refuse c.value _ node.line

theorem follows_again (v : Value) :
    c.Follows c.value (again host sub v) (again host' sub' (c.value v)) := by
  cases v with
  | function f =>
    have hf := follows_expression hh hs f.toNode
    have hnode : c.node f.toNode = (f.mapLines c.lines).toNode := (f.toNode_mapLines c.lines).symm
    rwa [hnode] at hf
  | quoted q =>
    cases q with
    | node node => exact follows_expression hh hs node
    | branch branch =>
      have hline : (branch.mapLines c.lines).line = c.lines branch.line := by
        cases branch
        rfl
      simp only [again, value, Value.mapLines, Quoted.mapLines, hline]
      exact hh.refuse c.value _ branch.line
    | header header => exact hh.refuse c.value _ header.line
  | _ => exact .pure c.value _

theorem follows_expressions (nodes : List Node) :
    c.Follows (List.map c.value) (expressions host sub nodes)
      (expressions host' sub' (nodes.map c.node)) := by
  induction nodes with
  | nil => exact .pure (List.map c.value) []
  | cons node nodes ih =>
    apply (follows_expression hh hs node).bind
    intro v
    apply ih.bind
    intro vs
    exact .pure (List.map c.value) (v :: vs)

omit hh in
theorem follows_block (nodes : List Node) :
    c.Follows c.outcome (Eval.block sub nodes) (Eval.block sub' (nodes.map c.node)) := by
  induction nodes with
  | nil => exact .pure c.outcome (.normal .nothing)
  | cons node nodes ih =>
    apply (hs node).bind
    intro outcome
    cases outcome with
    | normal v => exact ih
    | breaking => exact .pure c.outcome .breaking
    | continuing => exact .pure c.outcome .continuing
    | returning v => exact .pure c.outcome (.returning v)

theorem follows_functionBody (nodes : List Node) :
    c.Follows c.value (functionBody host sub nodes) (functionBody host' sub' (nodes.map c.node)) := by
  induction nodes with
  | nil => exact .pure c.value .nothing
  | cons node nodes ih =>
    apply (hs node).bind
    intro outcome
    cases outcome with
    | returning v => exact follows_again hh hs v
    | normal v => exact ih
    | breaking => exact ih
    | continuing => exact ih

/-- The arguments handed to a function are the changed ones, the receiver among them. -/
theorem follows_handOver (receiver : Option Value) (args : List Node) :
    c.Follows (List.map c.value) (handOver host sub receiver args)
      (handOver host' sub' (receiver.map c.value) (args.map c.node)) := by
  have hfirst : c.Follows (List.map c.value) (receiver.toList.mapM (again host sub))
      ((receiver.map c.value).toList.mapM (again host' sub')) := by
    cases receiver with
    | none => exact .pure (List.map c.value) []
    | some v =>
      simp only [Option.map_some, Option.toList, List.mapM_cons, List.mapM_nil, pure_bind]
      apply (follows_again hh hs v).bind
      intro first
      exact .pure (List.map c.value) [first]
  apply hfirst.bind
  intro first
  apply (follows_expressions hh hs args).bind
  intro others
  rw [← List.map_append]
  exact .pure (List.map c.value) (first ++ others)

/-- A call follows the call of the changed function with changed arguments. -/
theorem follows_callFunction (name : String) (function : Value) (receiver : Option Value)
    (args : List Node) (line : Nat) :
    c.Follows c.value (callFunction host sub name function receiver args line)
      (callFunction host' sub' name (c.value function) (receiver.map c.value) (args.map c.node)
        (c.lines line)) := by
  cases function with
  | function f =>
    have hlen : (receiver.map c.value).toList.length = receiver.toList.length := by
      cases receiver <;> rfl
    have hvalue : c.value (.function f) = .function (f.mapLines c.lines) := rfl
    have hbody : (f.mapLines c.lines).body = f.body.map c.node := rfl
    intro s
    have hdepth : (c.state s).depth = s.depth := rfl
    rw [hvalue, callFunction_eq, callFunction_eq, hlen, List.length_map, Function.params_mapLines,
      hh.depthLimit, hdepth, hbody]
    split
    · exact hh.refuse c.value _ line s
    · split
      · exact hh.refuse c.value _ line s
      · refine ((follows_handOver hh hs receiver args).bind fun values => ?_) s
        have hscope : Table.ofList (f.params.zip (values.map c.value)) =
            (Table.ofList (f.params.zip values)).map c.value := by
          rw [Table.map_ofList, List.zip_map_right]
          rfl
        rw [hscope]
        exact .oneDeeper (.inScope (follows_functionBody hh hs f.body) _)
  | _ => exact hh.refuse c.value _ line

omit hs in
theorem follows_lookup (kind name : String) (line : Nat) :
    c.Follows c.value (lookup host kind name line) (lookup host' kind name (c.lines line)) := by
  apply Follows.get
  intro s
  have hfind : (c.state s).scopes.find? name = (s.scopes.find? name).map c.value :=
    Scopes.find?_map c.value s.scopes name
  rw [hfind]
  cases s.scopes.find? name with
  | some v => exact .pure c.value v
  | none => exact hh.refuse c.value _ line

theorem follows_call (name : String) (args : List Node) (line : Nat) :
    c.Follows c.value (call host sub name args line)
      (call host' sub' name (args.map c.node) (c.lines line)) := by
  have hn := hh.natives name
  unfold call
  generalize host.natives.find? name = native at hn
  generalize host'.natives.find? name = native' at hn
  cases hn with
  | some hn =>
    apply (follows_expressions hh hs args).bind
    intro values
    exact .ofWorld hn values
  | none =>
    apply (follows_lookup hh "function" name line).bind
    intro function
    exact follows_callFunction hh hs name function none args line

omit hs in
/-- The member found for a changed receiver is the changed member. -/
theorem follows_memberOf (node : Node) (receiver : Value) (attr : String) :
    c.Follows c.value (memberOf host node receiver attr)
      (memberOf host' (c.node node) (c.value receiver) attr) := by
  have hp := hh.structs receiver.typeName
  have htype : (c.value receiver).typeName = receiver.typeName := receiver.typeName_mapLines c.lines
  have htext : (c.node node).formatted = node.formatted := node.formatted_mapLines c.lines
  have hline : (c.node node).line = c.lines node.line := node.line_mapLines c.lines
  simp only [memberOf, htype, htext, hline]
  cases hf : host.structs.find? receiver.typeName with
  | none =>
    rw [hf, Option.map_none, Option.map_eq_none_iff] at hp
    rw [hp]
    exact hh.refuse c.value _ node.line
  | some prototype =>
    rw [hf, Option.map_some] at hp
    obtain ⟨prototype', hf', hm⟩ := Option.map_eq_some_iff.mp hp
    have hmember : prototype'.member attr = c.value (prototype.member attr) := by
      simp only [Prototype.member, hm, Table.find?_map]
      cases prototype.members.find? attr <;> rfl
    rw [hf']
    simp only [hmember]
    exact .pure c.value _

theorem follows_member (node : Node) (name attr : String) (args : Option (List Node)) :
    c.Follows c.value (member host sub node name attr args)
      (member host' sub' (c.node node) name attr (args.map (List.map c.node))) := by
  have hline : (c.node node).line = c.lines node.line := node.line_mapLines c.lines
  unfold member
  rw [hline]
  apply (follows_lookup hh "variable" name node.line).bind
  intro receiver
  apply (follows_memberOf hh node receiver attr).bind
  intro v
  cases args with
  | none => exact .pure c.value v
  | some args =>
    have hnothing : Operation.isNothing (c.value v) = Operation.isNothing v :=
      Operation.isNothing_mapLines c.lines v
    simp only [Option.map_some, hnothing]
    split
    · exact .pure c.value v
    · exact follows_callFunction hh hs attr v (some receiver) args node.line

theorem follows_assign (site : Site) (left right : Node) :
    c.Follows c.value (Eval.assign host sub site left right)
      (Eval.assign host' sub' (site.mapLines c.lines) (c.node left) (c.node right)) := by
  have hleft : (c.node left).formatted = left.formatted := left.formatted_mapLines c.lines
  have hright : (c.node right).formatted = right.formatted := right.formatted_mapLines c.lines
  cases left with
  | declaration line name =>
    apply (follows_expression hh hs right).bind
    intro v
    exact .define name v
  | reference line name =>
    apply (follows_expression hh hs right).bind
    intro v
    apply Follows.get
    intro s
    have hc : (c.state s).scopes.contains name = s.scopes.contains name :=
      Scopes.contains_map c.value s.scopes name
    simp only [hc]
    split
    · exact .refuseAt_bind site _ _ _
    · apply (Follows.assign name v).bind
      intro _
      exact .pure c.value v
  | _ =>
    simp only [Eval.assign, node, Node.mapLines] at hleft ⊢
    rw [hleft, ← node, hright]
    exact .refuseAt c.value site _

theorem follows_binary (site : Site) (operator : String) (left right : Option Node) :
    c.Follows c.value (binary host sub site operator left right)
      (binary host' sub' (site.mapLines c.lines) operator (left.map c.node) (right.map c.node)) := by
  have htext : (Node.binary 0 operator (left.map c.node) (right.map c.node)).formatted =
      (Node.binary 0 operator left right).formatted := by
    have hf := Node.formatted_mapLines c.lines (Node.binary 0 operator left right)
    rwa [Node.mapLines, Node.mapLinesOption_eq, Node.mapLinesOption_eq] at hf
  have hr : c.Follows c.value
      (Eval.refuseAt site (.incomplete (Node.binary 0 operator left right).formatted))
      (Eval.refuseAt (site.mapLines c.lines)
        (.incomplete (Node.binary 0 operator (left.map c.node) (right.map c.node)).formatted)) := by
    rw [htext]
    exact .refuseAt c.value site _
  cases left with
  | none => exact hr
  | some l =>
    cases right with
    | none => exact hr
    | some r =>
      simp only [binary, Option.map_some]
      split
      · exact follows_assign hh hs site l r
      · apply (follows_expression hh hs l).bind
        intro lv
        apply (follows_expression hh hs r).bind
        intro rv
        have happly := Operation.apply_mapLines c.lines site operator lv rv
        rw [value, happly]
        exact .ofExcept

theorem follows_test (statement : String) (condition : Node) :
    c.Follows id (test host sub statement condition) (test host' sub' statement (c.node condition)) := by
  have hline : (c.node condition).line = c.lines condition.line := condition.line_mapLines c.lines
  unfold test
  rw [hline]
  apply (follows_expression hh hs condition).bind
  intro v
  have hdisplay : (c.value v).display = v.display := v.display_mapLines c.lines
  have hr : c.Follows (id : Bool → Bool)
      (Eval.refuse host (.notBoolean statement v.display) condition.line)
      (Eval.refuse host' (.notBoolean statement (c.value v).display) (c.lines condition.line)) := by
    rw [hdisplay]
    exact hh.refuse id _ condition.line
  cases v with
  | boolean b => exact .pure id b
  | _ => exact hr

omit hh in
theorem follows_inner_block (body : List Node) :
    c.Follows c.outcome (Eval.inScope {} (Eval.block sub body))
      (Eval.inScope {} (Eval.block sub' (body.map c.node))) :=
  .inScope (follows_block hs body) {}

theorem follows_branches (bs : List Branch) :
    c.Follows c.outcome (branches host sub bs)
      (branches host' sub' (bs.map (Branch.mapLines c.lines))) := by
  induction bs with
  | nil => exact .pure c.outcome (.normal .nothing)
  | cons branch bs ih =>
    obtain ⟨line, condition, body⟩ := branch
    have hbody : Node.mapLinesList c.lines body = body.map c.node := Node.mapLinesList_eq c.lines body
    simp only [branches, List.map_cons, Branch.mapLines, Branch.condition, Branch.body, hbody]
    apply (follows_test hh hs "if" condition).bind
    intro holds
    cases holds with
    | true => exact follows_inner_block hs body
    | false => exact ih

/-- A loop follows round by round: the changed condition holds as long as the condition does. -/
theorem follows_loop (condition : Node) (body : List Node) (rounds : Nat) :
    c.Follows c.outcome (loop host sub condition body rounds)
      (loop host' sub' (c.node condition) (body.map c.node) rounds) := by
  induction rounds with
  | zero => exact .throw c.outcome .unfinished
  | succ rounds ih =>
    apply (follows_test hh hs "while" condition).bind
    intro holds
    cases holds with
    | false => exact .pure c.outcome (.normal .nothing)
    | true =>
      apply (follows_inner_block hs body).bind
      intro outcome
      cases outcome with
      | breaking => exact .pure c.outcome (.normal .nothing)
      | returning v => exact .pure c.outcome (.returning v)
      | normal v => exact ih
      | continuing => exact ih

omit hh hs in
theorem follows_normal {m m' : Eval Value} (hm : c.Follows c.value m m') :
    c.Follows c.outcome (do return Outcome.normal (← m)) (do return Outcome.normal (← m')) :=
  hm.bind fun v => .pure c.outcome (.normal v)

/-- One evaluation of a changed node, given rules for the nodes inside that follow each other. -/
theorem follows_step (node : Node) :
    c.Follows c.outcome (step host sub node) (step host' sub' (c.node node)) := by
  cases node with
  | literal line literal =>
    have hv : c.value (.ofLiteral literal) = .ofLiteral literal :=
      Value.mapLines_ofLiteral c.lines literal
    have hp := Follows.pure (c := c) c.outcome (.normal (.ofLiteral literal))
    rw [outcome, hv] at hp
    exact hp
  | breaking line => exact .pure c.outcome .breaking
  | continuing line => exact .pure c.outcome .continuing
  | struct line name => exact .pure c.outcome (.normal .nothing)
  | declaration line name => exact hh.refuse c.outcome _ line
  | returning line payload =>
    cases payload with
    | none => exact .pure c.outcome (.returning .nothing)
    | some payload =>
      apply (follows_expression hh hs payload).bind
      intro v
      exact .pure c.outcome (.returning v)
  | reference line name => exact follows_normal (follows_lookup hh "variable" name line)
  | binary line operator left right =>
    apply follows_normal
    have hb := follows_binary hh hs (host.site line) operator left right
    rw [← hh.site] at hb
    simpa only [node, Node.mapLinesOption_eq] using hb
  | function line header body =>
    apply Follows.get
    intro s
    have hc : (c.state s).scopes.contains (header.mapLines c.lines).name =
        s.scopes.contains header.name := Scopes.contains_map c.value s.scopes header.name
    have hf : Function.mk (c.lines line) (header.mapLines c.lines) (Node.mapLinesList c.lines body) =
        (Function.mk line header body).mapLines c.lines := by
      rw [Node.mapLinesList_eq]
      rfl
    simp only [hc, hf]
    split
    · have hr := hh.site line
      unfold Eval.refuse
      rw [hr]
      exact .refuseAt_bind _ _ _ _
    · exact follows_normal (.define header.name (.function ⟨line, header, body⟩))
  | call line name args =>
    apply follows_normal
    simpa only [node, Node.mapLinesList_eq] using follows_call hh hs name args line
  | conditional line bs =>
    simpa only [step, node, Node.mapLines, Node.mapLinesBranches_eq] using follows_branches hh hs bs
  | loop line condition body =>
    have hl := follows_loop hh hs condition body host.limits.rounds
    simpa only [step, node, Node.mapLines, Node.mapLinesList_eq, hh.limits] using hl
  | member line name attr =>
    exact follows_normal (follows_member hh hs (.member line name attr) name attr none)
  | memberCall line name attr args =>
    apply follows_normal
    have hm := follows_member hh hs (.memberCall line name attr args) name attr (some args)
    simpa only [node, Node.mapLines, Node.mapLinesList_eq, Option.map_some] using hm

end Rules

/-- Evaluating what a change makes of a node comes to what it makes of the result. -/
theorem follows_evaluate {host host' : Host} (hh : c.FollowsHost host host') (nesting : Nat) :
    c.FollowsRule (Eval.evaluate host nesting) (Eval.evaluate host' nesting) := by
  induction nesting with
  | zero => exact fun node => .throw c.outcome .nesting
  | succ nesting ih => exact fun node => follows_step hh ih node

section Natives
variable (c : Change) (w : World)

theorem world_write (text : String) :
    World.write text (c.world w) = c.result c.world id (World.write text w) := by
  have hencodes : (c.world w).encodes = w.encodes := rfl
  unfold World.write
  rw [hencodes]
  cases text.toList.find? fun x => !w.encodes x with
  | some x => rfl
  | none => simp only [world, result, String.append_assoc, id]

theorem world_readLine : World.readLine (c.world w) = c.result c.world id (World.readLine w) := by
  have hinput : (c.world w).input = w.input := rfl
  have hopen : (c.world w).inputOpen = w.inputOpen := rfl
  have hundecodable : (c.world w).undecodable = w.undecodable := rfl
  unfold World.readLine
  rw [hinput, hopen, hundecodable]
  obtain ⟨line, rest⟩ := Text.firstLine w.input
  by_cases hline : line.getLast? = some '\n'
  · simp only [if_pos hline]
    rfl
  · simp only [if_neg hline]
    cases w.undecodable with
    | some m => rfl
    | none =>
      cases w.input.isEmpty with
      | false => rfl
      | true => cases w.inputOpen <;> rfl

theorem world_readText (path : String) :
    World.readText path (c.world w) = c.result c.world id (World.readText path w) := by
  have hdisk : (c.world w).disk path = w.disk path := rfl
  unfold World.readText
  rw [hdisk]
  cases w.disk path <;> rfl

theorem world_bind {α β : Type} {m : EStateM Fault World α} {f : α → EStateM Fault World β} {g : β → β}
    (hm : m (c.world w) = c.result c.world id (m w))
    (hf : ∀ a w, f a (c.world w) = c.result c.world g (f a w)) :
    (m >>= f) (c.world w) = c.result c.world g ((m >>= f) w) := by
  simp only [Bind.bind, EStateM.bind, hm]
  cases m w with
  | ok a w' => exact hf a w'
  | error fault w' => rfl

/-- Printing does not see what the change alters. -/
theorem world_print (args : List Value) :
    Native.print args (c.world w) = c.result c.world c.value (Native.print args w) :=
  c.world_bind w (c.world_write w _) fun _ _ => rfl

/-- The standard natives do the same after a change, in the changed world. -/
theorem followsNative_standard {name : String} {native : Native}
    (hf : Native.standard.find? name = some native) : c.FollowsNative native native := by
  intro args w
  have hlines : native (args.map c.value) = native args := Native.standard_mapLines c.lines args hf
  rw [hlines]
  have hmem := Table.mem_of_find?_ofList hf
  simp only [List.mem_cons, Prod.mk.injEq, List.not_mem_nil, or_false] at hmem
  rcases hmem with ⟨-, rfl⟩ | ⟨-, rfl⟩ | ⟨-, rfl⟩ | ⟨-, rfl⟩ | ⟨-, rfl⟩
  · exact c.world_print w args
  · apply c.world_bind w (c.world_write w _)
    intro _ w₁
    apply c.world_bind w₁ (c.world_readLine w₁)
    intro line w₂
    cases line <;> rfl
  · exact c.world_print w args
  · unfold Native.readFile
    split
    · rfl
    · next path =>
      apply c.world_bind w (c.world_readText w path)
      intro text w₁
      cases text <;> rfl
    · rfl
    · rfl
  · unfold Native.length
    split <;> rfl

end Natives

end Change
end ScriptLang
