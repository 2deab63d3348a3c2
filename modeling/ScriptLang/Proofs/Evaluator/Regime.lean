import ScriptLang.Proofs.Evaluator.Discipline
import ScriptLang.Proofs.Tree.Parts

/-! What evaluation has to do with. A regime tells which nodes may be evaluated and which values may come
up. Evaluation does not lead out of it: in scopes that bind values of the regime, a node of the regime
gives such a value, leaves such scopes, and enters only nodes of the regime in such scopes. -/
namespace ScriptLang

def EndsIn {σ α : Type} (P : σ → Prop) (Q : α → Prop) : EStateM.Result Fault σ α → Prop
  | .ok a s => P s ∧ Q a
  | .error _ s => P s

structure Regime (host : Host) where
  node : Node → Prop
  value : Value → Prop
  node_of_mem_parts : ∀ {n part}, node n → part ∈ n.parts → node part
  value_nothing : value .nothing
  value_literal : ∀ {line literal}, node (.literal line literal) → value (.ofLiteral literal)
  value_function : ∀ {f : Function}, node f.toNode → value (.function f)
  /-- A function can be called, and defines itself once more where it is evaluated again. -/
  node_function : ∀ {f : Function}, value (.function f) → node f.toNode
  node_quoted : ∀ {n}, value (.quoted (.node n)) → node n
  value_apply : ∀ {site spelling left right v}, value left → value right →
    Operation.apply site spelling left right = .ok v → value v
  value_native : ∀ {name native args w v w'}, host.natives.find? name = some native →
    (∀ arg ∈ args, value arg) → native args w = .ok v w' → value v
  value_member : ∀ {type prototype} (attr), host.structs.find? type = some prototype →
    value (prototype.member attr)

namespace Eval

def handOver (host : Host) (sub : Node → Eval Outcome) (receiver : Option Value) (args : List Node) :
    Eval (List Value) := do
  let first ← receiver.toList.mapM (again host sub)
  let others ← expressions host sub args
  return first ++ others

theorem handOver_none (host : Host) (sub : Node → Eval Outcome) (args : List Node) :
    handOver host sub none args = expressions host sub args := by
  simp [handOver]

/-- The body of a function runs with its parameters bound to what the call hands over. -/
theorem callFunction_eq (host : Host) (sub : Node → Eval Outcome) (name : String) (f : Function)
    (receiver : Option Value) (args : List Node) (line : Nat) (t : State) :
    callFunction host sub name (.function f) receiver args line t =
      (if receiver.toList.length + args.length ≠ f.params.length then
        refuse host (.arity name f.params.length (receiver.toList.length + args.length)) line
      else if host.depthLimit ≤ t.depth then refuse host (.callDepth host.depthLimit) line
      else do
        let values ← handOver host sub receiver args
        oneDeeper (inScope (Table.ofList (f.params.zip values)) (functionBody host sub f.body))) t := by
  simp only [callFunction, handOver, bind_assoc, pure_bind]
  split
  · rfl
  · rw [get_bind]
    split
    · rfl
    · rfl

end Eval

namespace Regime
open Eval
variable {host : Host} {α β : Type}

def Holds (R : Regime host) (s : State) : Prop :=
  s.scopes.Binds R.value

/-- From the state `t` two ways of taking some steps do the same and stay within the regime: it holds of
the state they end in, and a result is in `Q`. -/
structure Confined (R : Regime host) (t : State) (m m' : Eval α) (Q : α → Prop) : Prop where
  same : m t = m' t
  ends : EndsIn R.Holds Q (m t)

variable {R : Regime host} {t : State}

namespace Confined
variable {Q : α → Prop} {Q' : β → Prop}

theorem pure (ht : R.Holds t) {a : α} (h : Q a) : R.Confined t (Pure.pure a) (Pure.pure a) Q :=
  ⟨rfl, ht, h⟩

theorem throw (ht : R.Holds t) (fault : Fault) :
    R.Confined t (MonadExcept.throw fault) (MonadExcept.throw fault) Q :=
  ⟨rfl, ht⟩

theorem refuseAt (ht : R.Holds t) (site : Site) (cause : Cause) :
    R.Confined t (Eval.refuseAt site cause) (Eval.refuseAt site cause) Q :=
  ⟨rfl, ht⟩

theorem refuse (ht : R.Holds t) (cause : Cause) (line : Nat) :
    R.Confined t (Eval.refuse host cause line) (Eval.refuse host cause line) Q :=
  ⟨rfl, ht⟩

/-- Nothing comes after a refusal. -/
theorem refuseAt_bind (ht : R.Holds t) (site : Site) (cause : Cause) (f f' : α → Eval β) :
    R.Confined t (Eval.refuseAt site cause >>= f) (Eval.refuseAt site cause >>= f') Q' :=
  ⟨rfl, ht⟩

theorem get {f f' : State → Eval β} (h : R.Confined t (f t) (f' t) Q') :
    R.Confined t (MonadState.get >>= f) (MonadState.get >>= f') Q' :=
  ⟨h.same, h.ends⟩

/-- Steps may be told in another way. -/
theorem congr {m m' n n' : Eval α} (h : R.Confined t n n' Q) (hm : m t = n t) (hm' : m' t = n' t) :
    R.Confined t m m' Q := by
  refine ⟨by rw [hm, hm', h.same], ?_⟩
  rw [hm]
  exact h.ends

theorem bind {m m' : Eval α} {f f' : α → Eval β} (hm : R.Confined t m m' Q)
    (hf : ∀ a u, R.Holds u → Q a → R.Confined u (f a) (f' a) Q') :
    R.Confined t (m >>= f) (m' >>= f') Q' := by
  obtain ⟨hsame, hends⟩ := hm
  cases h : m t with
  | ok a u =>
    rw [h] at hends
    obtain ⟨hsame', hends'⟩ := hf a u hends.1 hends.2
    have hl : (m >>= f) t = f a u := bind_of_ok h
    have hr : (m' >>= f') t = f' a u := bind_of_ok (hsame.symm.trans h)
    refine ⟨hl.trans (hsame'.trans hr.symm), ?_⟩
    rw [hl]
    exact hends'
  | error fault u =>
    rw [h] at hends
    have hl : (m >>= f) t = .error fault u := bind_of_error h
    have hr : (m' >>= f') t = .error fault u := bind_of_error (hsame.symm.trans h)
    refine ⟨hl.trans hr.symm, ?_⟩
    rw [hl]
    exact hends

theorem ofExcept (ht : R.Holds t) {result : Except Fault α} (h : ∀ a, result = .ok a → Q a) :
    R.Confined t (Eval.ofExcept result) (Eval.ofExcept result) Q := by
  refine ⟨rfl, ?_⟩
  cases result with
  | ok a => exact ⟨ht, h a rfl⟩
  | error fault => exact ht

/-- What the world does leaves the scopes alone. -/
theorem ofWorld (ht : R.Holds t) {step : EStateM Fault World α}
    (h : ∀ a w, step t.world = .ok a w → Q a) :
    R.Confined t (Eval.ofWorld step) (Eval.ofWorld step) Q := by
  refine ⟨rfl, ?_⟩
  unfold Eval.ofWorld
  cases hw : step t.world with
  | ok a w => exact ⟨ht, h a w hw⟩
  | error fault w => exact ht

theorem define (ht : R.Holds t) (name : String) {value : Value} (h : R.value value) :
    R.Confined t (Eval.define name value) (Eval.define name value) R.value :=
  ⟨rfl, ht.define name h, h⟩

theorem assign (ht : R.Holds t) (name : String) {value : Value} (h : R.value value) :
    R.Confined t (modifyScopes (·.assign name value)) (modifyScopes (·.assign name value))
      (fun _ => True) :=
  ⟨rfl, ht.assign name h, trivial⟩

theorem inScope {m m' : Eval α} {scope : Table Value}
    (h : R.Confined { t with scopes := t.scopes.push scope } m m' Q) :
    R.Confined t (Eval.inScope scope m) (Eval.inScope scope m') Q := by
  obtain ⟨hsame, hends⟩ := h
  refine ⟨by simp only [Eval.inScope, hsame], ?_⟩
  unfold Eval.inScope
  cases hm : m { t with scopes := t.scopes.push scope } with
  | ok a u =>
    rw [hm] at hends
    exact ⟨hends.1.dropInnermost, hends.2⟩
  | error fault u =>
    rw [hm] at hends
    exact Scopes.Binds.dropInnermost hends

theorem oneDeeper {m m' : Eval α} (h : R.Confined { t with depth := t.depth + 1 } m m' Q) :
    R.Confined t (Eval.oneDeeper m) (Eval.oneDeeper m') Q := by
  obtain ⟨hsame, hends⟩ := h
  refine ⟨by simp only [Eval.oneDeeper, hsame], ?_⟩
  unfold Eval.oneDeeper
  cases hm : m { t with depth := t.depth + 1 } with
  | ok a u =>
    rw [hm] at hends
    exact hends
  | error fault u =>
    rw [hm] at hends
    exact hends

end Confined

theorem holds_push (ht : R.Holds t) {scope : Table Value} (hs : scope.Binds R.value) :
    R.Holds { t with scopes := t.scopes.push scope } :=
  Scopes.Binds.push ht hs

def ConfinedRules (R : Regime host) (sub sub' : Node → Eval Outcome) : Prop :=
  ∀ node t, R.node node → R.Holds t →
    R.Confined t (sub node) (sub' node) fun outcome => R.value outcome.value

section Rules
variable {sub sub' : Node → Eval Outcome}

/-- Reading a node of the regime as an expression gives a value of the regime. -/
theorem confined_expression (h : R.ConfinedRules sub sub') (ht : R.Holds t) {node : Node}
    (hn : R.node node) :
    R.Confined t (expression host sub node) (expression host sub' node) R.value := by
  apply (h node t hn ht).bind
  intro outcome u hu hv
  cases outcome with
  | normal value => exact .pure hu hv
  | breaking => exact .refuse hu _ _
  | continuing => exact .refuse hu _ _
  | returning value => exact .refuse hu _ _

/-- A value that is evaluated again, as receivers are, stays in the regime. -/
theorem confined_again (h : R.ConfinedRules sub sub') (ht : R.Holds t) {value : Value}
    (hv : R.value value) :
    R.Confined t (again host sub value) (again host sub' value) R.value := by
  cases value with
  | function f => exact confined_expression h ht (R.node_function hv)
  | quoted q =>
    cases q with
    | node node => exact confined_expression h ht (R.node_quoted hv)
    | branch branch => exact .refuse ht _ _
    | header header => exact .refuse ht _ _
  | _ => exact .pure ht hv

theorem confined_expressions (h : R.ConfinedRules sub sub') (ht : R.Holds t) {nodes : List Node}
    (hn : ∀ n ∈ nodes, R.node n) :
    R.Confined t (expressions host sub nodes) (expressions host sub' nodes)
      fun values => ∀ v ∈ values, R.value v := by
  induction nodes generalizing t with
  | nil => exact .pure ht (List.forall_mem_nil _)
  | cons node nodes ih =>
    obtain ⟨hnode, hnodes⟩ := List.forall_mem_cons.mp hn
    apply (confined_expression h ht hnode).bind
    intro value u hu hv
    apply (ih hu hnodes).bind
    intro values w hw hvs
    exact .pure hw (List.forall_mem_cons.mpr ⟨hv, hvs⟩)

theorem confined_block (h : R.ConfinedRules sub sub') (ht : R.Holds t) {nodes : List Node}
    (hn : ∀ n ∈ nodes, R.node n) :
    R.Confined t (block sub nodes) (block sub' nodes) fun outcome => R.value outcome.value := by
  induction nodes generalizing t with
  | nil => exact .pure ht R.value_nothing
  | cons node nodes ih =>
    obtain ⟨hnode, hnodes⟩ := List.forall_mem_cons.mp hn
    apply (h node t hnode ht).bind
    intro outcome u hu hv
    cases outcome with
    | normal value => exact ih hu hnodes
    | breaking => exact .pure hu hv
    | continuing => exact .pure hu hv
    | returning value => exact .pure hu hv

/-- A body of the regime returns a value of the regime. -/
theorem confined_functionBody (h : R.ConfinedRules sub sub') (ht : R.Holds t) {nodes : List Node}
    (hn : ∀ n ∈ nodes, R.node n) :
    R.Confined t (functionBody host sub nodes) (functionBody host sub' nodes) R.value := by
  induction nodes generalizing t with
  | nil => exact .pure ht R.value_nothing
  | cons node nodes ih =>
    obtain ⟨hnode, hnodes⟩ := List.forall_mem_cons.mp hn
    apply (h node t hnode ht).bind
    intro outcome u hu hv
    cases outcome with
    | returning value =>
      exact confined_again h hu hv
    | normal value => exact ih hu hnodes
    | breaking => exact ih hu hnodes
    | continuing => exact ih hu hnodes

theorem confined_handOver (h : R.ConfinedRules sub sub') (ht : R.Holds t) {receiver : Option Value}
    (hr : ∀ v ∈ receiver, R.value v) {args : List Node} (ha : ∀ n ∈ args, R.node n) :
    R.Confined t (handOver host sub receiver args) (handOver host sub' receiver args)
      fun values => ∀ v ∈ values, R.value v := by
  have hfirst : R.Confined t (receiver.toList.mapM (again host sub))
      (receiver.toList.mapM (again host sub')) fun values => ∀ v ∈ values, R.value v := by
    cases receiver with
    | none => exact .pure ht (List.forall_mem_nil _)
    | some value =>
      simp only [Option.toList, List.mapM_cons, List.mapM_nil, pure_bind]
      apply (confined_again h ht (hr value rfl)).bind
      intro first u hu hv
      exact .pure hu (List.forall_mem_singleton.mpr hv)
  apply hfirst.bind
  intro first u hu hf
  apply (confined_expressions h hu ha).bind
  intro others w hw ho
  exact .pure hw (List.forall_mem_append.mpr ⟨hf, ho⟩)

/-- The parameters of a function are bound to values of the regime, and its body belongs to it. -/
theorem confined_callFunction (h : R.ConfinedRules sub sub') (ht : R.Holds t) (name : String)
    {function : Value} (hf : R.value function) {receiver : Option Value}
    (hr : ∀ v ∈ receiver, R.value v) {args : List Node} (ha : ∀ n ∈ args, R.node n) (line : Nat) :
    R.Confined t (callFunction host sub name function receiver args line)
      (callFunction host sub' name function receiver args line) R.value := by
  cases function with
  | function f =>
    have hbody : ∀ n ∈ f.body, R.node n := fun n hn => R.node_of_mem_parts (R.node_function hf) hn
    refine Confined.congr ?_ (callFunction_eq host sub name f receiver args line t)
      (callFunction_eq host sub' name f receiver args line t)
    split
    · exact .refuse ht _ _
    · split
      · exact .refuse ht _ _
      · -- What is handed over is evaluated in the scopes of the caller, before there is a new one.
        apply (confined_handOver h ht hr ha).bind
        intro values u hu hv
        have hscope : (Table.ofList (f.params.zip values)).Binds R.value := by
          apply Table.binds_ofList
          intro b hb
          exact hv b.2 (List.of_mem_zip hb).2
        have hdeeper : R.Holds { u with depth := u.depth + 1 } := hu
        apply Confined.oneDeeper
        apply Confined.inScope
        exact confined_functionBody h (holds_push hdeeper hscope) hbody
  | _ => exact .refuse ht _ _

theorem confined_lookup (ht : R.Holds t) (kind name : String) (line : Nat) :
    R.Confined t (lookup host kind name line) (lookup host kind name line) R.value := by
  apply Confined.get
  split
  · next value hf => exact .pure ht (Scopes.Binds.find? ht hf)
  · exact .refuse ht _ _

/-- A native is handed values of the regime, and answers with one. -/
theorem confined_call (h : R.ConfinedRules sub sub') (ht : R.Holds t) (name : String)
    {args : List Node} (ha : ∀ n ∈ args, R.node n) (line : Nat) :
    R.Confined t (call host sub name args line) (call host sub' name args line) R.value := by
  have hnone : ∀ v ∈ (none : Option Value), R.value v := by simp
  unfold call
  split
  · next native hf =>
    rw [← handOver_none, ← handOver_none]
    apply (confined_handOver h ht hnone ha).bind
    intro values u hu hv
    apply Confined.ofWorld hu
    intro value w hw
    exact R.value_native hf hv hw
  · apply (confined_lookup ht "function" name line).bind
    intro function u hu hv
    exact confined_callFunction h hu name hv hnone ha line

/-- Members of values are values of the regime. -/
theorem confined_memberOf (ht : R.Holds t) (node : Node) (receiver : Value) (attr : String) :
    R.Confined t (memberOf host node receiver attr) (memberOf host node receiver attr) R.value := by
  unfold memberOf
  split
  · next prototype hp => exact .pure ht (R.value_member attr hp)
  · exact .refuse ht _ _

theorem confined_member (h : R.ConfinedRules sub sub') (ht : R.Holds t) (node : Node)
    (name attr : String) {args : Option (List Node)} (ha : ∀ nodes ∈ args, ∀ n ∈ nodes, R.node n) :
    R.Confined t (member host sub node name attr args) (member host sub' node name attr args)
      R.value := by
  apply (confined_lookup ht "variable" name node.line).bind
  intro receiver u hu hr
  apply (confined_memberOf hu node receiver attr).bind
  intro value w hw hv
  cases args with
  | none => exact .pure hw hv
  | some args =>
    dsimp only
    split
    · exact .pure hw hv
    · apply confined_callFunction h hw attr hv _ (ha args rfl)
      intro v hmem
      cases hmem
      exact hr

theorem confined_assign (h : R.ConfinedRules sub sub') (ht : R.Holds t) (site : Site)
    {left right : Node} (hn : R.node right) :
    R.Confined t (Eval.assign host sub site left right) (Eval.assign host sub' site left right)
      R.value := by
  cases left with
  | declaration line name =>
    apply (confined_expression h ht hn).bind
    intro value u hu hv
    exact .define hu name hv
  | reference line name =>
    apply (confined_expression h ht hn).bind
    intro value u hu hv
    apply Confined.get
    dsimp only
    split
    · exact .refuseAt_bind hu _ _ _ _
    · apply (Confined.assign hu name hv).bind
      intro _ w hw _
      exact .pure hw hv
  | _ => exact .refuseAt ht site _

/-- Operators keep to the regime, the assignment among them. -/
theorem confined_binary (h : R.ConfinedRules sub sub') (ht : R.Holds t) (site : Site)
    (operator : String) {left right : Option Node} (hl : ∀ n ∈ left, R.node n)
    (hr : ∀ n ∈ right, R.node n) :
    R.Confined t (binary host sub site operator left right)
      (binary host sub' site operator left right) R.value := by
  cases left with
  | none => exact .refuseAt ht site _
  | some l =>
    cases right with
    | none => exact .refuseAt ht site _
    | some r =>
      simp only [binary]
      split
      · exact confined_assign h ht site (hr r rfl)
      · apply (confined_expression h ht (hl l rfl)).bind
        intro lv u hu hlv
        apply (confined_expression h hu (hr r rfl)).bind
        intro rv w hw hrv
        apply Confined.ofExcept hw
        intro value happly
        exact R.value_apply hlv hrv happly

theorem confined_test (h : R.ConfinedRules sub sub') (ht : R.Holds t) (statement : String)
    {condition : Node} (hn : R.node condition) :
    R.Confined t (test host sub statement condition) (test host sub' statement condition)
      fun _ => True := by
  apply (confined_expression h ht hn).bind
  intro value u hu _
  cases value with
  | boolean b => exact .pure hu trivial
  | _ => exact .refuse hu _ _

/-- A block runs in a scope of its own, which binds nothing at first. -/
theorem confined_inner_block (h : R.ConfinedRules sub sub') (ht : R.Holds t) {body : List Node}
    (hb : ∀ n ∈ body, R.node n) :
    R.Confined t (Eval.inScope {} (block sub body)) (Eval.inScope {} (block sub' body))
      fun outcome => R.value outcome.value :=
  .inScope (confined_block h (holds_push ht Table.binds_empty) hb)

theorem confined_branches (h : R.ConfinedRules sub sub') (ht : R.Holds t) {bs : List Branch}
    (hb : ∀ b ∈ bs, ∀ n ∈ b.parts, R.node n) :
    R.Confined t (branches host sub bs) (branches host sub' bs)
      fun outcome => R.value outcome.value := by
  induction bs generalizing t with
  | nil => exact .pure ht R.value_nothing
  | cons branch bs ih =>
    obtain ⟨hbranch, hrest⟩ := List.forall_mem_cons.mp hb
    obtain ⟨hcondition, hbody⟩ := List.forall_mem_cons.mp hbranch
    apply (confined_test h ht "if" hcondition).bind
    intro holds u hu _
    cases holds with
    | true => exact confined_inner_block h hu hbody
    | false => exact ih hu hrest

theorem confined_loop (h : R.ConfinedRules sub sub') (ht : R.Holds t) {condition : Node}
    (hc : R.node condition) {body : List Node} (hb : ∀ n ∈ body, R.node n) (rounds : Nat) :
    R.Confined t (loop host sub condition body rounds) (loop host sub' condition body rounds)
      fun outcome => R.value outcome.value := by
  induction rounds generalizing t with
  | zero => exact .throw ht _
  | succ rounds ih =>
    apply (confined_test h ht "while" hc).bind
    intro holds u hu _
    cases holds with
    | false => exact .pure hu R.value_nothing
    | true =>
      apply (confined_inner_block h hu hb).bind
      intro outcome w hw hv
      cases outcome with
      | breaking => exact .pure hw R.value_nothing
      | returning value => exact .pure hw hv
      | normal value => exact ih hw
      | continuing => exact ih hw

theorem confined_normal {m m' : Eval Value} (h : R.Confined t m m' R.value) :
    R.Confined t (do return Outcome.normal (← m)) (do return Outcome.normal (← m'))
      fun outcome => R.value outcome.value :=
  h.bind fun _ _ hu hv => .pure hu hv

/-- One evaluation stays within the regime, given rules for the nodes inside that do. -/
theorem confined_step (h : R.ConfinedRules sub sub') (ht : R.Holds t) {node : Node}
    (hn : R.node node) :
    R.Confined t (step host sub node) (step host sub' node)
      fun outcome => R.value outcome.value := by
  have hparts {part : Node} (hp : part ∈ node.parts) : R.node part := R.node_of_mem_parts hn hp
  cases node with
  | literal line value => exact .pure ht (R.value_literal hn)
  | breaking line => exact .pure ht R.value_nothing
  | continuing line => exact .pure ht R.value_nothing
  | struct line name => exact .pure ht R.value_nothing
  | declaration line name => exact .refuse ht _ _
  | returning line payload =>
    cases payload with
    | none => exact .pure ht R.value_nothing
    | some payload =>
      apply (confined_expression h ht (hparts (by simp [Node.parts]))).bind
      intro value u hu hv
      exact .pure hu hv
  | reference line name => exact confined_normal (confined_lookup ht _ name line)
  | binary line operator left right =>
    apply confined_normal
    apply confined_binary h ht
    · intro n hmem
      exact hparts (by simp [Node.parts, Option.mem_def.mp hmem])
    · intro n hmem
      exact hparts (by simp [Node.parts, Option.mem_def.mp hmem])
  | function line header body =>
    apply Confined.get
    dsimp only
    split
    · exact .refuseAt_bind ht _ _ _ _
    · exact confined_normal (.define ht _ (R.value_function (f := ⟨line, header, body⟩) hn))
  | call line name args => exact confined_normal (confined_call h ht name (fun n => hparts) line)
  | conditional line bs =>
    apply confined_branches h ht
    intro b hb n hmem
    exact hparts (List.mem_flatMap.mpr ⟨b, hb, hmem⟩)
  | loop line condition body =>
    have hbody : ∀ n ∈ body, R.node n := fun n hmem => hparts (List.mem_cons_of_mem _ hmem)
    exact confined_loop h ht (hparts List.mem_cons_self) hbody _
  | member line name attr =>
    apply confined_normal
    apply confined_member h ht
    intro nodes hmem
    cases hmem
  | memberCall line name attr args =>
    apply confined_normal
    apply confined_member h ht
    intro nodes hmem
    cases hmem
    exact fun n => hparts

end Rules

/-- Evaluation stays within the regime, at whatever depth of nesting. -/
theorem confined_evaluate (R : Regime host) (nesting : Nat) :
    R.ConfinedRules (evaluate host nesting) (evaluate host nesting) := by
  induction nesting with
  | zero => exact fun node t _ ht => .throw ht _
  | succ nesting ih => exact fun node t hn ht => confined_step ih ht hn

/-- Within the regime only nodes of the regime are entered, in states that it holds of. -/
theorem of_enters {nesting : Nat} {node inner : Node} {s u : State} (hn : R.node node)
    (hs : R.Holds s) (h : Enters host nesting node s inner u) : R.node inner ∧ R.Holds u := by
  obtain ⟨sub, hsub, hne⟩ := h
  by_contra hout
  have hr : R.ConfinedRules (evaluate host nesting) sub := by
    intro other w ho hw
    have hdiff : other ≠ inner ∨ w ≠ u := by
      by_contra heq
      push Not at heq
      obtain ⟨rfl, rfl⟩ := heq
      exact hout ⟨ho, hw⟩
    have he := R.confined_evaluate nesting other w ho hw
    exact ⟨(hsub other w hdiff).symm, he.ends⟩
  exact hne (confined_step hr hs hn).same.symm

/-- Every evaluation that a node of the regime leads to is one of a node of the regime, in a
state of it. -/
theorem of_reaches {nesting : Nat} {node last : Node} {s u : State} (hn : R.node node)
    (hs : R.Holds s) (h : Reaches host nesting node s last u) : R.node last ∧ R.Holds u := by
  induction h with
  | itself nesting node s => exact ⟨hn, hs⟩
  | nested he _ ih =>
    obtain ⟨hinner, hu⟩ := of_enters hn hs he
    exact ih hinner hu

end Regime

namespace Eval

/-- The node is a call in the state `u`, with these arguments and with this receiver, if any. -/
inductive Calls (u : State) : Node → Option Value → List Node → Prop
  | call (line : Nat) (name : String) (args : List Node) : Calls u (.call line name args) none args
  | memberCall {name : String} {value : Value} (line : Nat) (attr : String) (args : List Node) :
    u.scopes.find? name = some value →
    Calls u (.memberCall line name attr args) (some value) args

/-- The arguments of a call in the regime are evaluated within it. -/
theorem Calls.handOver {host : Host} {R : Regime host} {u : State} {node : Node}
    {receiver : Option Value} {args : List Node} (h : Calls u node receiver args)
    (hn : R.node node) (hu : R.Holds u) (nesting : Nat) :
    EndsIn R.Holds (fun values => ∀ v ∈ values, R.value v)
      (handOver host (evaluate host nesting) receiver args u) := by
  have hargs : ∀ n ∈ args, R.node n := by
    intro n hmem
    cases h with
    | call line name _ => exact R.node_of_mem_parts hn hmem
    | memberCall line attr _ _ => exact R.node_of_mem_parts hn hmem
  have hreceiver : ∀ v ∈ receiver, R.value v := by
    intro v hmem
    cases h with
    | call line name _ => cases hmem
    | memberCall line attr _ hf =>
      cases hmem
      exact Scopes.Binds.find? hu hf
  exact (R.confined_handOver (R.confined_evaluate nesting) hu hreceiver hargs).ends

end Eval

end ScriptLang
