import ScriptLang.Evaluator.Evaluate
import ScriptLang.Proofs.ScopeChains
import ScriptLang.Proofs.Steps

/-! Scopes and call depth under evaluation. However an evaluation ends, it gives back the chain of
scopes and the depth it was given; while it runs, every nested evaluation is entered on top of that
chain and within the limit of the depth. -/
namespace ScriptLang
open Scopes

structure State.Kept (s t : State) : Prop where
  scopes : s.scopes.Kept t.scopes
  depth : t.depth = s.depth

/-- The state `t` is one that a run from `s` may enter an evaluation in. -/
structure State.Within (host : Host) (s t : State) : Prop where
  scopes : t.scopes.StandsOn s.scopes
  deeper : s.depth ≤ t.depth
  limited : (t.depth : Int) ≤ max (s.depth : Int) host.depthLimit

namespace State
variable {host : Host} {s t u : State}

theorem Kept.refl (s : State) : s.Kept s :=
  ⟨Scopes.Kept.refl s.scopes, rfl⟩

theorem Kept.trans (hst : s.Kept t) (htu : t.Kept u) : s.Kept u :=
  ⟨hst.scopes.trans htu.scopes, htu.depth.trans hst.depth⟩

theorem Within.refl (host : Host) (s : State) : s.Within host s :=
  ⟨StandsOn.refl s.scopes, Nat.le_refl _, Int.le_max_left _ _⟩

theorem Within.kept (h : s.Within host t) (hk : t.Kept u) : s.Within host u := by
  refine ⟨h.scopes.kept hk.scopes, ?_, ?_⟩
  · rw [hk.depth]
    exact h.deeper
  · rw [hk.depth]
    exact h.limited

theorem Within.push (h : s.Within host t) (scope : Table Value) :
    s.Within host { t with scopes := t.scopes.push scope } :=
  ⟨h.scopes.push scope, h.deeper, h.limited⟩

/-- Below the limit, one level of calls more is still within it. -/
theorem Within.oneDeeper (h : s.Within host t) (hd : (t.depth : Int) < host.depthLimit) :
    s.Within host { t with depth := t.depth + 1 } := by
  have hs := h.deeper
  refine ⟨h.scopes, ?_, ?_⟩
  · show s.depth ≤ t.depth + 1
    omega
  · show ((t.depth + 1 : Nat) : Int) ≤ max (s.depth : Int) host.depthLimit
    omega

theorem Within.trans (hst : s.Within host t) (htu : t.Within host u) : s.Within host u := by
  refine ⟨htu.scopes.trans hst.scopes, Nat.le_trans hst.deeper htu.deeper, ?_⟩
  have ht := hst.limited
  have hu := htu.limited
  omega

end State

namespace Eval
variable {α β : Type}

def final (steps : Eval α) (s : State) : State :=
  match steps s with
  | .ok _ t | .error _ t => t

/-- From the state `t` two ways of taking some steps do the same, and give back what they were given. -/
structure Steady (t : State) (m m' : Eval α) : Prop where
  same : m t = m' t
  kept : t.Kept (m.final t)

theorem final_of_ok {m : Eval α} {s t : State} {a : α} (h : m s = .ok a t) : m.final s = t := by
  simp only [final, h]

theorem final_of_error {m : Eval α} {s t : State} {fault : Fault} (h : m s = .error fault t) :
    m.final s = t := by
  simp only [final, h]

theorem get_bind (f : State → Eval β) (s : State) : (MonadState.get >>= f) s = f s s :=
  rfl

/-- A bound name has the value of its innermost binding. -/
theorem lookup_of_bound {host : Host} {kind name : String} {line : Nat} {s : State} {v : Value}
    (hv : s.scopes.find? name = some v) : lookup host kind name line s = .ok v s := by
  rw [lookup, get_bind, hv]
  rfl

namespace Steady
variable {s t : State} {host : Host}

theorem pure (t : State) (a : α) : Steady t (Pure.pure a : Eval α) (Pure.pure a) :=
  ⟨rfl, State.Kept.refl t⟩

theorem throw (t : State) (fault : Fault) :
    Steady t (MonadExcept.throw fault : Eval α) (MonadExcept.throw fault) :=
  ⟨rfl, State.Kept.refl t⟩

theorem refuseAt (t : State) (site : Site) (cause : Cause) :
    Steady t (refuseAt site cause : Eval α) (Eval.refuseAt site cause) :=
  ⟨rfl, State.Kept.refl t⟩

theorem refuse (t : State) (host : Host) (cause : Cause) (line : Nat) :
    Steady t (refuse host cause line : Eval α) (Eval.refuse host cause line) :=
  ⟨rfl, State.Kept.refl t⟩

theorem ofExcept (t : State) (result : Except Fault α) :
    Steady t (Eval.ofExcept result) (Eval.ofExcept result) := by
  refine ⟨rfl, ?_⟩
  cases result with
  | ok a => exact State.Kept.refl t
  | error fault => exact State.Kept.refl t

/-- What the world does leaves scopes and depth alone. -/
theorem ofWorld (t : State) (step : EStateM Fault World α) :
    Steady t (Eval.ofWorld step) (Eval.ofWorld step) := by
  refine ⟨rfl, ?_⟩
  simp only [final, Eval.ofWorld]
  cases step t.world with
  | ok a world => exact ⟨Scopes.Kept.refl t.scopes, rfl⟩
  | error fault world => exact ⟨Scopes.Kept.refl t.scopes, rfl⟩

theorem define (t : State) (name : String) (value : Value) :
    Steady t (Eval.define name value) (Eval.define name value) :=
  ⟨rfl, kept_define t.scopes name value, rfl⟩

theorem assign (t : State) (name : String) (value : Value) :
    Steady t (modifyScopes (·.assign name value)) (modifyScopes (·.assign name value)) :=
  ⟨rfl, kept_assign t.scopes name value, rfl⟩

/-- Steady steps one after another are steady, for the second starts with what the first gave back. -/
theorem bind {m m' : Eval α} {f f' : α → Eval β} (hm : Steady t m m')
    (hf : ∀ a u, t.Kept u → Steady u (f a) (f' a)) : Steady t (m >>= f) (m' >>= f') := by
  obtain ⟨hs, hk⟩ := hm
  -- Both ways come to the same state in between, so the rest has to agree from that state only.
  cases h : m t with
  | ok a u =>
    rw [final_of_ok h] at hk
    obtain ⟨hs', hk'⟩ := hf a u hk
    have hl : (m >>= f) t = f a u := bind_of_ok h
    have hr : (m' >>= f') t = f' a u := bind_of_ok (hs.symm.trans h)
    refine ⟨hl.trans (hs'.trans hr.symm), hk.trans ?_⟩
    simpa only [final, hl] using hk'
  | error fault u =>
    rw [final_of_error h] at hk
    have hl : (m >>= f) t = .error fault u := bind_of_error h
    have hr : (m' >>= f') t = .error fault u := bind_of_error (hs.symm.trans h)
    exact ⟨hl.trans hr.symm, by rwa [final_of_error hl]⟩

/-- Nothing comes after a refusal. -/
theorem refuseAt_bind (t : State) (site : Site) (cause : Cause) (f f' : α → Eval β) :
    Steady t (Eval.refuseAt site cause >>= f) (Eval.refuseAt site cause >>= f') :=
  ⟨rfl, State.Kept.refl t⟩

theorem get {f f' : State → Eval β} (h : Steady t (f t) (f' t)) :
    Steady t (get >>= f) (get >>= f') :=
  ⟨h.same, h.kept⟩

/-- The scope that the steps run in is taken off again, whichever way they end. -/
theorem inScope {m m' : Eval α} {scope : Table Value}
    (h : Steady { t with scopes := t.scopes.push scope } m m') :
    Steady t (Eval.inScope scope m) (Eval.inScope scope m') := by
  obtain ⟨hs, hk⟩ := h
  refine ⟨by simp only [Eval.inScope, hs], ?_⟩
  simp only [final, Eval.inScope] at hk ⊢
  cases h : m { t with scopes := t.scopes.push scope } with
  | ok a u =>
    rw [h] at hk
    exact ⟨hk.scopes.dropInnermost, hk.depth⟩
  | error fault u =>
    rw [h] at hk
    exact ⟨hk.scopes.dropInnermost, hk.depth⟩

/-- The depth is counted down again, whichever way the steps end. -/
theorem oneDeeper {m m' : Eval α} (h : Steady { t with depth := t.depth + 1 } m m') :
    Steady t (Eval.oneDeeper m) (Eval.oneDeeper m') := by
  obtain ⟨hs, hk⟩ := h
  refine ⟨by simp only [Eval.oneDeeper, hs], ?_⟩
  simp only [final, Eval.oneDeeper] at hk ⊢
  cases h : m { t with depth := t.depth + 1 } with
  | ok a u =>
    rw [h] at hk
    exact ⟨hk.scopes, by simp only [hk.depth, Nat.add_sub_cancel]⟩
  | error fault u =>
    rw [h] at hk
    exact ⟨hk.scopes, by simp only [hk.depth, Nat.add_sub_cancel]⟩

end Steady

def SteadyRules (host : Host) (s : State) (sub sub' : Node → Eval Outcome) : Prop :=
  ∀ node t, s.Within host t → Steady t (sub node) (sub' node)

section Rules
variable {host : Host} {s t : State} {sub sub' : Node → Eval Outcome}

theorem steady_expression (h : SteadyRules host s sub sub') (ht : s.Within host t) (node : Node) :
    Steady t (expression host sub node) (expression host sub' node) := by
  refine Steady.bind (h node t ht) fun outcome u _ => ?_
  cases outcome with
  | normal value => exact Steady.pure u value
  | breaking => exact Steady.refuse u host _ _
  | continuing => exact Steady.refuse u host _ _
  | returning value => exact Steady.refuse u host _ _

theorem steady_again (h : SteadyRules host s sub sub') (ht : s.Within host t) (value : Value) :
    Steady t (again host sub value) (again host sub' value) := by
  cases value with
  | function f => exact steady_expression h ht f.toNode
  | quoted q =>
    cases q with
    | node node => exact steady_expression h ht node
    | branch branch => exact Steady.refuse t host _ _
    | header header => exact Steady.refuse t host _ _
  | _ => exact Steady.pure t _

theorem steady_expressions (h : SteadyRules host s sub sub') (ht : s.Within host t)
    (nodes : List Node) :
    Steady t (expressions host sub nodes) (expressions host sub' nodes) := by
  induction nodes generalizing t with
  | nil => exact Steady.pure t []
  | cons node nodes ih =>
    refine Steady.bind (steady_expression h ht node) fun value u hu => ?_
    refine Steady.bind (ih (ht.kept hu)) fun values v _ => ?_
    exact Steady.pure v (value :: values)

theorem steady_block (h : SteadyRules host s sub sub') (ht : s.Within host t) (nodes : List Node) :
    Steady t (block sub nodes) (block sub' nodes) := by
  induction nodes generalizing t with
  | nil => exact Steady.pure t _
  | cons node nodes ih =>
    refine Steady.bind (h node t ht) fun outcome u hu => ?_
    cases outcome with
    | normal value => exact ih (ht.kept hu)
    | breaking => exact Steady.pure u _
    | continuing => exact Steady.pure u _
    | returning value => exact Steady.pure u _

/-- The body of a function is steady, whichever of its statements ends it. -/
theorem steady_functionBody (h : SteadyRules host s sub sub') (ht : s.Within host t)
    (nodes : List Node) :
    Steady t (functionBody host sub nodes) (functionBody host sub' nodes) := by
  induction nodes generalizing t with
  | nil => exact Steady.pure t _
  | cons node nodes ih =>
    refine Steady.bind (h node t ht) fun outcome u hu => ?_
    cases outcome with
    | returning value => exact steady_again h (ht.kept hu) value
    | normal value => exact ih (ht.kept hu)
    | breaking => exact ih (ht.kept hu)
    | continuing => exact ih (ht.kept hu)

theorem steady_receiver (h : SteadyRules host s sub sub') (ht : s.Within host t)
    (receiver : Option Value) :
    Steady t (receiver.toList.mapM (again host sub)) (receiver.toList.mapM (again host sub')) := by
  cases receiver with
  | none => exact Steady.pure t []
  | some value =>
    simp only [Option.toList, List.mapM_cons, List.mapM_nil]
    refine Steady.bind (steady_again h ht value) fun first u _ => ?_
    exact Steady.bind (Steady.pure u []) fun rest v _ => Steady.pure v _

/-- A call is refused at the limit of the depth, so its body runs within it. -/
theorem steady_callFunction (h : SteadyRules host s sub sub') (ht : s.Within host t) (name : String)
    (function : Value) (receiver : Option Value) (args : List Node) (line : Nat) :
    Steady t (callFunction host sub name function receiver args line)
      (callFunction host sub' name function receiver args line) := by
  cases function with
  | function f =>
    simp only [callFunction]
    split
    · exact Steady.refuseAt_bind t _ _ _ _
    · refine Steady.get ?_
      split
      · exact Steady.refuseAt_bind t _ _ _ _
      · next hl =>
        refine Steady.bind (steady_receiver h ht receiver) fun first u hu => ?_
        refine Steady.bind (steady_expressions h (ht.kept hu) args) fun others v hv => ?_
        have hd : v.depth = t.depth := hv.depth.trans hu.depth
        have hw : s.Within host v := (ht.kept hu).kept hv
        have hb := (hw.oneDeeper (by rw [hd]; omega)).push (Table.ofList (f.params.zip (first ++ others)))
        exact Steady.oneDeeper (Steady.inScope (steady_functionBody h hb f.body))
  | _ => exact Steady.refuse t host _ _

theorem steady_lookup (t : State) (kind name : String) (line : Nat) :
    Steady t (lookup host kind name line) (lookup host kind name line) := by
  refine Steady.get ?_
  split
  · exact Steady.pure t _
  · exact Steady.refuse t host _ _

/-- A call is steady: its scope is dropped and its level left, also on a failure. -/
theorem steady_call (h : SteadyRules host s sub sub') (ht : s.Within host t) (name : String)
    (args : List Node) (line : Nat) :
    Steady t (call host sub name args line) (call host sub' name args line) := by
  unfold call
  split
  · refine Steady.bind (steady_expressions h ht args) fun values u _ => ?_
    exact Steady.ofWorld u _
  · refine Steady.bind (steady_lookup t _ name line) fun function u hu => ?_
    exact steady_callFunction h (ht.kept hu) name function none args line

theorem steady_memberOf (t : State) (node : Node) (receiver : Value) (attr : String) :
    Steady t (memberOf host node receiver attr) (memberOf host node receiver attr) := by
  unfold memberOf
  split
  · exact Steady.pure t _
  · exact Steady.refuse t host _ _

theorem steady_member (h : SteadyRules host s sub sub') (ht : s.Within host t) (node : Node)
    (name attr : String) (args : Option (List Node)) :
    Steady t (member host sub node name attr args) (member host sub' node name attr args) := by
  refine Steady.bind (steady_lookup t _ name _) fun receiver u hu => ?_
  refine Steady.bind (steady_memberOf u node receiver attr) fun value v hv => ?_
  cases args with
  | none => exact Steady.pure v value
  | some args =>
    simp only
    split
    · exact Steady.pure v value
    · exact steady_callFunction h ((ht.kept hu).kept hv) attr value (some receiver) args _

theorem steady_assign (h : SteadyRules host s sub sub') (ht : s.Within host t) (site : Site)
    (left right : Node) :
    Steady t (assign host sub site left right) (assign host sub' site left right) := by
  cases left with
  | declaration line name =>
    exact Steady.bind (steady_expression h ht right) fun value u _ => Steady.define u name value
  | reference line name =>
    refine Steady.bind (steady_expression h ht right) fun value u _ => Steady.get ?_
    simp only
    split
    · exact Steady.refuseAt_bind u _ _ _ _
    · exact Steady.bind (Steady.assign u name value) fun _ v _ => Steady.pure v value
  | _ => exact Steady.refuseAt t site _

theorem steady_binary (h : SteadyRules host s sub sub') (ht : s.Within host t) (site : Site)
    (operator : String) (left right : Option Node) :
    Steady t (binary host sub site operator left right)
      (binary host sub' site operator left right) := by
  cases left with
  | none => exact Steady.refuseAt t site _
  | some l =>
    cases right with
    | none => exact Steady.refuseAt t site _
    | some r =>
      simp only [binary]
      split
      · exact steady_assign h ht site l r
      · refine Steady.bind (steady_expression h ht l) fun lv u hu => ?_
        refine Steady.bind (steady_expression h (ht.kept hu) r) fun rv v _ => ?_
        exact Steady.ofExcept v _

theorem steady_test (h : SteadyRules host s sub sub') (ht : s.Within host t) (statement : String)
    (condition : Node) :
    Steady t (test host sub statement condition) (test host sub' statement condition) := by
  refine Steady.bind (steady_expression h ht condition) fun value u _ => ?_
  cases value with
  | boolean b => exact Steady.pure u b
  | _ => exact Steady.refuse u host _ _

/-- A chain of conditions is steady, for each body runs in a scope of its own. -/
theorem steady_branches (h : SteadyRules host s sub sub') (ht : s.Within host t)
    (bs : List Branch) : Steady t (branches host sub bs) (branches host sub' bs) := by
  induction bs generalizing t with
  | nil => exact Steady.pure t _
  | cons branch bs ih =>
    refine Steady.bind (steady_test h ht "if" branch.condition) fun holds u hu => ?_
    have hw := ht.kept hu
    cases holds with
    | true => exact Steady.inScope (steady_block h (hw.push {}) branch.body)
    | false => exact ih hw

/-- A loop is steady round by round. -/
theorem steady_loop (h : SteadyRules host s sub sub') (ht : s.Within host t) (condition : Node)
    (body : List Node) (rounds : Nat) :
    Steady t (loop host sub condition body rounds) (loop host sub' condition body rounds) := by
  induction rounds generalizing t with
  | zero => exact Steady.throw t _
  | succ rounds ih =>
    refine Steady.bind (steady_test h ht "while" condition) fun holds u hu => ?_
    have hw := ht.kept hu
    cases holds with
    | false => exact Steady.pure u _
    | true =>
      refine Steady.bind (Steady.inScope (steady_block h (hw.push {}) body)) fun outcome v hv => ?_
      cases outcome with
      | breaking => exact Steady.pure v _
      | returning value => exact Steady.pure v _
      | normal value => exact ih (hw.kept hv)
      | continuing => exact ih (hw.kept hv)

theorem steady_normal {m m' : Eval Value} (h : Steady t m m') :
    Steady t (do return Outcome.normal (← m)) (do return Outcome.normal (← m')) :=
  Steady.bind h fun value u _ => Steady.pure u (Outcome.normal value)

/-- One evaluation, given rules for the nodes inside that keep what they are given. -/
theorem steady_step (h : SteadyRules host s sub sub') (ht : s.Within host t) (node : Node) :
    Steady t (step host sub node) (step host sub' node) := by
  cases node with
  | literal line value => exact Steady.pure t _
  | breaking line => exact Steady.pure t _
  | continuing line => exact Steady.pure t _
  | struct line name => exact Steady.pure t _
  | declaration line name => exact Steady.refuse t host _ _
  | returning line payload =>
    cases payload with
    | none => exact Steady.pure t _
    | some payload =>
      exact Steady.bind (steady_expression h ht payload) fun value u _ => Steady.pure u _
  | reference line name => exact steady_normal (steady_lookup t _ name line)
  | binary line operator left right => exact steady_normal (steady_binary h ht _ operator left right)
  | function line header body =>
    refine Steady.get ?_
    simp only
    split
    · exact Steady.refuseAt_bind t _ _ _ _
    · exact steady_normal (Steady.define t _ _)
  | call line name args => exact steady_normal (steady_call h ht name args line)
  | conditional line bs => exact steady_branches h ht bs
  | loop line condition body => exact steady_loop h ht condition body _
  | member line name attr => exact steady_normal (steady_member h ht _ name attr none)
  | memberCall line name attr args => exact steady_normal (steady_member h ht _ name attr (some args))

end Rules

/-- Every evaluation gives back the scopes and the depth it was given. -/
theorem evaluate_kept (host : Host) (nesting : Nat) (node : Node) (s : State) :
    s.Kept (final (evaluate host nesting node) s) := by
  induction nesting generalizing node s with
  | zero => exact State.Kept.refl s
  | succ nesting ih =>
    have hr : SteadyRules host s (evaluate host nesting) (evaluate host nesting) :=
      fun inner t _ => ⟨rfl, ih inner t⟩
    exact (steady_step hr (State.Within.refl host s) node).kept

/-- The evaluation of a node for its value gives back scopes and depth. -/
theorem evaluateValue_kept (host : Host) (nesting : Nat) (value : Value) (s : State) :
    s.Kept (final (evaluateValue host nesting value) s) := by
  have hr : SteadyRules host s (evaluate host nesting) (evaluate host nesting) :=
    fun inner t _ => ⟨rfl, evaluate_kept host nesting inner t⟩
  have hn := (steady_normal (steady_again hr (State.Within.refl host s) value)).kept
  cases value with
  | function f => exact evaluate_kept host nesting f.toNode s
  | quoted q =>
    cases q with
    | node node => exact evaluate_kept host nesting node s
    | branch branch => exact hn
    | header header => exact hn
  | _ => exact hn

/-- Evaluating `node` in the state `s` enters the evaluation of `inner` in the state `t`: what comes out
hangs on what that one evaluation answers. -/
def Enters (host : Host) (nesting : Nat) (node : Node) (s : State) (inner : Node) (t : State) : Prop :=
  ∃ sub : Node → Eval Outcome,
    (∀ other u, other ≠ inner ∨ u ≠ t → sub other u = evaluate host nesting other u) ∧
      step host sub node s ≠ evaluate host (nesting + 1) node s

/-- The evaluations that are entered in the course of evaluating a node in a state, at whatever depth
of nesting; the evaluation itself comes first. -/
inductive Reaches (host : Host) : Nat → Node → State → Node → State → Prop
  | itself (nesting : Nat) (node : Node) (s : State) : Reaches host nesting node s node s
  | nested {nesting : Nat} {node inner last : Node} {s t u : State} :
    Enters host nesting node s inner t → Reaches host nesting inner t last u →
      Reaches host (nesting + 1) node s last u

/-- An evaluation is entered on top of the scopes around it and within the limit of the depth. -/
theorem within_of_enters {host : Host} {nesting : Nat} {node inner : Node} {s t : State}
    (h : Enters host nesting node s inner t) : s.Within host t := by
  obtain ⟨sub, hsub, hne⟩ := h
  by_contra hw
  -- Off the states that a run from `s` may enter, `sub` and `evaluate` cannot be told apart.
  have hr : SteadyRules host s (evaluate host nesting) sub := by
    intro other u hu
    have hut : u ≠ t := by
      rintro rfl
      exact hw hu
    exact ⟨(hsub other u (Or.inr hut)).symm, evaluate_kept host nesting other u⟩
  exact hne (steady_step hr (State.Within.refl host s) node).same.symm

/-- Every evaluation that one node leads to is entered on top of its scopes and within the limit. -/
theorem within_of_reaches {host : Host} {nesting : Nat} {node last : Node} {s u : State}
    (h : Reaches host nesting node s last u) : s.Within host u := by
  induction h with
  | itself nesting node s => exact State.Within.refl host s
  | nested he _ ih => exact (within_of_enters he).trans ih

/-- A call enters the first statement of its function, one deeper and in a scope of its own. -/
theorem enters_function_body (host : Host) (nesting line : Nat) (name : String) (s : State)
    (f : Function) (first : Node) (rest : List Node) (hn : host.natives.find? name = none)
    (hf : s.scopes.find? name = some (.function f)) (hp : f.params = []) (hb : f.body = first :: rest)
    (hd : (s.depth : Int) < host.depthLimit) :
    Enters host nesting (.call line name []) s first
      { s with scopes := s.scopes.push {}, depth := s.depth + 1 } := by
  classical
  -- Whatever the call comes to, one of two faults in its first statement would change it.
  obtain ⟨fault, hfault⟩ : ∃ fault : Fault,
      evaluate host (nesting + 1) (.call line name []) s ≠ .error fault s := by
    by_cases h : evaluate host (nesting + 1) (.call line name []) s = .error .nesting s
    · exact ⟨.unfinished, by rw [h]; simp⟩
    · exact ⟨.nesting, h⟩
  let t : State := { s with scopes := s.scopes.push {}, depth := s.depth + 1 }
  let sub : Node → Eval Outcome := fun other u =>
    if other = first ∧ u = t then .error fault u else evaluate host nesting other u
  refine ⟨sub, fun other u h => ?_, fun h => hfault ?_⟩
  · have hne : ¬(other = first ∧ u = t) := by tauto
    simp only [sub, hne, if_false]
  · have hcall : step host sub (.call line name []) s = .error fault s := by
      have hlt : ¬host.depthLimit ≤ (s.depth : Int) := by omega
      have hs : sub first t = .error fault t := by simp [sub]
      have hbody : functionBody host sub f.body t = .error fault t := by
        rw [hb]
        exact bind_of_error hs
      have hlookup : lookup host "function" name line s = .ok (.function f) s := lookup_of_bound hf
      have hfun : callFunction host sub name (.function f) none [] line s = .error fault s := by
        have hrun : oneDeeper (inScope (Table.ofList []) (functionBody host sub f.body)) s =
            .error fault s := by
          have ht : functionBody host sub f.body
              { s with scopes := s.scopes.push (Table.ofList []), depth := s.depth + 1 } =
                .error fault t := hbody
          simp only [oneDeeper, inScope, ht]
          rfl
        simpa [callFunction, hp, hlt, get_bind, expressions] using hrun
      simp [step, call, hn, bind, EStateM.bind, hlookup, hfun]
    rw [← h, hcall]

/-- However an evaluation ends, the number of scopes and the depth are what they were, the scopes around
the innermost one bind the same names, and the innermost one still binds its own. Each evaluation that
is entered on the way finds all scopes of the start below its own ones, the outermost included, and a
depth between that of the start and the limit. -/
theorem evaluation_gives_back_scopes_and_depth (host : Host) (nesting : Nat) (s : State) :
    (∀ node, s.Kept (final (evaluate host nesting node) s) ∧
      (final (evaluate host nesting node) s).scopes.size = s.scopes.size) ∧
    (∀ value, s.Kept (final (evaluateValue host nesting value) s) ∧
      (final (evaluateValue host nesting value) s).scopes.size = s.scopes.size) ∧
    ∀ node inner u, Reaches host nesting node s inner u →
      u.scopes.StandsOn s.scopes ∧ s.scopes.size ≤ u.scopes.size ∧
        s.depth ≤ u.depth ∧ (u.depth : Int) ≤ max (s.depth : Int) host.depthLimit := by
  refine ⟨fun node => ?_, fun value => ?_, fun node inner u h => ?_⟩
  · have hk := evaluate_kept host nesting node s
    exact ⟨hk, hk.scopes.size⟩
  · have hk := evaluateValue_kept host nesting value s
    exact ⟨hk, hk.scopes.size⟩
  · have hw := within_of_reaches h
    exact ⟨hw.scopes, hw.scopes.size_le, hw.deeper, hw.limited⟩

def selfCalling : State :=
  { scopes := Scopes.define {} "f" (.function ⟨1, ⟨1, "f", [], "any"⟩, [.call 1 "f" []]⟩) }

/-- The body of a called function is entered one deeper, and that is within the limit. -/
theorem evaluation_gives_back_scopes_and_depth_of_call :
    ∃ u, Reaches { file := "<script>" } 1 (.call 1 "f" []) selfCalling (.call 1 "f" []) u ∧
      u.depth = 1 ∧ (u.depth : Int) ≤ max 0 64 := by
  have he := enters_function_body { file := "<script>" } 0 1 "f" selfCalling _ (.call 1 "f" []) []
    rfl rfl rfl rfl (by decide)
  have hr := Reaches.nested he (.itself 0 _ _)
  have hb := (evaluation_gives_back_scopes_and_depth _ 1 selfCalling).2.2 _ _ _ hr
  exact ⟨_, hr, rfl, hb.2.2.2⟩

end Eval
end ScriptLang
