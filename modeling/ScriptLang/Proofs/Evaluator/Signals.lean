import Mathlib.Tactic.Common
import ScriptLang.Evaluator.Evaluate
import ScriptLang.Proofs.Steps

/-! Control signals. A signal comes from the statement that gives it and passes outward through the
branches of conditionals; a loop passes on returns only, and neither calls nor operands pass on any. -/
namespace ScriptLang

inductive Signal
  | breaking
  | continuing
  | returning
deriving DecidableEq

def Outcome.signal? : Outcome → Option Signal
  | .normal _ => none
  | .breaking => some .breaking
  | .continuing => some .continuing
  | .returning _ => some .returning

/-- The signals that a node lets through to the block it stands in. -/
inductive Node.Exposes : Node → Signal → Prop
  | breaking (line : Nat) : Exposes (.breaking line) .breaking
  | continuing (line : Nat) : Exposes (.continuing line) .continuing
  | returning (line : Nat) (payload : Option Node) : Exposes (.returning line payload) .returning
  | conditional {line branches branch statement signal} : branch ∈ branches →
    statement ∈ branch.body → Exposes statement signal → Exposes (.conditional line branches) signal
  | loop {line condition body statement} : statement ∈ body → Exposes statement .returning →
    Exposes (.loop line condition body) .returning

/-- A loop lets nothing through that ends its rounds only. -/
theorem Node.Exposes.eq_returning_of_loop {line : Nat} {condition : Node} {body : List Node}
    {signal : Signal} (h : (Node.loop line condition body).Exposes signal) : signal = .returning := by
  cases h
  rfl

def Outcome.Among (signals : Signal → Prop) (outcome : Outcome) : Prop :=
  ∀ signal, outcome.signal? = some signal → signals signal

namespace Outcome
variable {signals signals' : Signal → Prop} {outcome : Outcome} {value : Value}

theorem among_normal : (normal value).Among signals := by
  intro signal h
  cases h

theorem among_breaking (h : signals .breaking) : breaking.Among signals := by
  rintro signal ⟨⟩
  exact h

theorem among_continuing (h : signals .continuing) : continuing.Among signals := by
  rintro signal ⟨⟩
  exact h

theorem among_returning (h : signals .returning) : (returning value).Among signals := by
  rintro signal ⟨⟩
  exact h

theorem Among.mono (h : outcome.Among signals) (hs : ∀ signal, signals signal → signals' signal) :
    outcome.Among signals' :=
  fun signal hsignal => hs signal (h signal hsignal)

theorem Among.signal?_eq_none (h : outcome.Among signals) (hs : ∀ signal, ¬signals signal) :
    outcome.signal? = none := by
  apply Option.eq_none_iff_forall_ne_some.mpr
  intro signal hsignal
  exact hs signal (h signal hsignal)

end Outcome

namespace Eval
variable {α β : Type}

def Results (Q : α → Prop) (m : Eval α) : Prop :=
  ∀ s a t, m s = .ok a t → Q a

namespace Results
variable {P Q : α → Prop} {R : β → Prop} {m : Eval α} {f : α → Eval β} {a : α}

theorem trivial (m : Eval α) : Results (fun _ => True) m :=
  fun _ _ _ _ => True.intro

theorem pure (h : Q a) : Results Q (Pure.pure a) := by
  rintro s b t ⟨⟩
  exact h

theorem throw (fault : Fault) : Results Q (MonadExcept.throw fault) := by
  intro s a t h
  cases h

theorem refuse (host : Host) (cause : Cause) (line : Nat) : Results Q (refuse host cause line) := by
  intro s a t h
  cases h

theorem mono (h : Results P m) (hPQ : ∀ a, P a → Q a) : Results Q m :=
  fun s a t hm => hPQ a (h s a t hm)

/-- What two steps in a row give is known if what the second gives is known for every result of the first. -/
theorem bind (hm : Results P m) (hf : ∀ a, P a → Results R (f a)) : Results R (m >>= f) := by
  intro s b t h
  obtain ⟨a, u, hu, hrest⟩ := ok_of_bind h
  exact hf a (hm s a u hu) u b t hrest

/-- What was found on the way does not matter. -/
theorem bind_any (hf : ∀ a, Results R (f a)) : Results R (m >>= f) :=
  (trivial m).bind fun a _ => hf a

theorem inScope (h : Results Q m) (scope : Table Value) : Results Q (inScope scope m) := by
  intro s a t hm
  unfold Eval.inScope at hm
  split at hm
  · next b u hu =>
    cases hm
    exact h _ a u hu
  · cases hm

end Results

section Rules
variable {host : Host} {sub : Node → Eval Outcome} {signals : Signal → Prop} {nodes : List Node}

/-- A block ends with a signal of one of its statements. -/
theorem results_block (h : ∀ node ∈ nodes, Results (Outcome.Among signals) (sub node)) :
    Results (Outcome.Among signals) (block sub nodes) := by
  induction nodes with
  | nil => exact .pure Outcome.among_normal
  | cons node nodes ih =>
    obtain ⟨hnode, hnodes⟩ := List.forall_mem_cons.mp h
    refine hnode.bind fun outcome houtcome => ?_
    cases outcome with
    | normal value => exact ih hnodes
    | breaking => exact .pure houtcome
    | continuing => exact .pure houtcome
    | returning value => exact .pure houtcome

/-- A chain of conditions gives no signal that its bodies do not give. -/
theorem results_branches {bs : List Branch}
    (h : ∀ branch ∈ bs, ∀ node ∈ branch.body, Results (Outcome.Among signals) (sub node)) :
    Results (Outcome.Among signals) (branches host sub bs) := by
  induction bs with
  | nil => exact .pure Outcome.among_normal
  | cons branch bs ih =>
    obtain ⟨hbranch, hbs⟩ := List.forall_mem_cons.mp h
    apply Results.bind_any
    intro holds
    split
    · exact (results_block hbranch).inScope {}
    · exact ih hbs

/-- A loop takes breaks and continues up; it ends with a return of its body or with no signal. -/
theorem results_loop {condition : Node} (rounds : Nat)
    (h : ∀ node ∈ nodes, Results (Outcome.Among signals) (sub node)) :
    Results (Outcome.Among fun signal => signal = .returning ∧ signals signal)
      (loop host sub condition nodes rounds) := by
  induction rounds with
  | zero => exact .throw _
  | succ rounds ih =>
    apply Results.bind_any
    intro holds
    split
    · refine ((results_block h).inScope {}).bind fun outcome houtcome => ?_
      cases outcome with
      | breaking => exact .pure Outcome.among_normal
      | returning value => exact .pure (Outcome.among_returning ⟨rfl, houtcome .returning rfl⟩)
      | normal value => exact ih
      | continuing => exact ih
    · exact .pure Outcome.among_normal

/-- What is wrapped up as a value is no signal. -/
theorem results_normal (m : Eval Value) :
    Results (Outcome.Among signals) (do return Outcome.normal (← m)) :=
  .bind_any fun _ => .pure Outcome.among_normal

/-- One evaluation ends with a signal that its node exposes, given rules for the nodes inside that do. -/
theorem results_step (h : ∀ inner, Results (Outcome.Among inner.Exposes) (sub inner)) (node : Node) :
    Results (Outcome.Among node.Exposes) (step host sub node) := by
  cases node with
  | literal | struct => exact .pure Outcome.among_normal
  | breaking line => exact .pure (Outcome.among_breaking (.breaking line))
  | continuing line => exact .pure (Outcome.among_continuing (.continuing line))
  | returning line payload =>
    cases payload with
    | none => exact .pure (Outcome.among_returning (.returning line none))
    | some payload =>
      exact .bind_any fun _ => .pure (Outcome.among_returning (.returning line (some payload)))
  | declaration => exact .refuse host _ _
  | function line header body =>
    apply Results.bind_any
    intro s
    simp only
    split
    · exact Results.bind_any fun _ => results_normal _
    · exact results_normal _
  | reference | binary | call | member | memberCall => exact results_normal _
  | conditional line bs =>
    apply results_branches
    intro branch hbranch statement hstatement
    exact (h statement).mono fun outcome ho => ho.mono fun signal => .conditional hbranch hstatement
  | loop line condition body =>
    have hbody : ∀ statement ∈ body, Results (Outcome.Among fun signal =>
        signal = .returning → (Node.loop line condition body).Exposes signal) (sub statement) := by
      intro statement hstatement
      refine (h statement).mono fun outcome ho => ho.mono ?_
      rintro signal hsignal rfl
      exact .loop hstatement hsignal
    refine (results_loop _ hbody).mono fun outcome ho => ho.mono ?_
    rintro signal ⟨hreturning, hsignal⟩
    exact hsignal hreturning

end Rules

/-- An evaluation gives no signal but those its node lets through. -/
theorem results_evaluate (host : Host) (nesting : Nat) (node : Node) :
    Results (Outcome.Among node.Exposes) (evaluate host nesting node) := by
  induction nesting generalizing node with
  | zero => exact .throw _
  | succ nesting ih => exact results_step ih node

/-- An operand has the value that its evaluation ends with, if that is no signal. -/
theorem expression_eq_ok_iff {host : Host} {sub : Node → Eval Outcome} {node : Node} {s t : State}
    {v : Value} : expression host sub node s = .ok v t ↔ sub node s = .ok (.normal v) t := by
  have hbind : expression host sub node s = EStateM.bind (sub node) _ s := rfl
  rw [hbind]
  unfold EStateM.bind
  cases sub node s with
  | error fault u => constructor <;> intro h <;> cases h
  | ok outcome u =>
    cases outcome with
    | normal w => constructor <;> (rintro ⟨⟩; rfl)
    | breaking | continuing | returning w => constructor <;> intro h <;> cases h

/-- An evaluation that comes to an end ends with a value or with a signal that its node exposes; of other
pieces of syntax none comes to an end. So no signal comes out of an operand or of a call, and none but a
return comes out of a loop. -/
theorem signals_come_from_exposed_statements (host : Host) (nesting : Nat) :
    (∀ node s outcome t, evaluate host nesting node s = .ok outcome t → outcome.Among node.Exposes) ∧
    (∀ q s outcome t, evaluateValue host nesting (.quoted q) s = .ok outcome t →
      ∃ node, q = .node node ∧ outcome.Among node.Exposes) ∧
    (∀ node s v t, expression host (evaluate host nesting) node s = .ok v t ↔
      evaluate host nesting node s = .ok (.normal v) t) ∧
    (∀ line name args s outcome t, evaluate host nesting (.call line name args) s = .ok outcome t →
      outcome.signal? = none) ∧
    (∀ line name attr args s outcome t,
      evaluate host nesting (.memberCall line name attr args) s = .ok outcome t →
        outcome.signal? = none) ∧
    ∀ line condition body s outcome t,
      evaluate host nesting (.loop line condition body) s = .ok outcome t →
        outcome.signal? ≠ some .breaking ∧ outcome.signal? ≠ some .continuing := by
  have hresults := results_evaluate host nesting
  refine ⟨fun node => hresults node, ?_, fun _ _ _ _ => expression_eq_ok_iff, ?_, ?_, ?_⟩
  · intro q s outcome t h
    cases q with
    | node node => exact ⟨node, rfl, hresults node s outcome t h⟩
    | branch | header => cases h
  · intro line name args s outcome t h
    apply (hresults _ s outcome t h).signal?_eq_none
    rintro signal ⟨⟩
  · intro line name attr args s outcome t h
    apply (hresults _ s outcome t h).signal?_eq_none
    rintro signal ⟨⟩
  · intro line condition body s outcome t h
    have hloop := hresults _ s outcome t h
    constructor
    · intro hbreaking
      cases (hloop .breaking hbreaking).eq_returning_of_loop
    · intro hcontinuing
      cases (hloop .continuing hcontinuing).eq_returning_of_loop

def returningLoop : Node :=
  .loop 1 (.literal 1 (.boolean true)) [.conditional 2 [.mk 2 (.literal 2 (.boolean true))
    [.returning 3 (some (.literal 3 (.integer 1))), .breaking 4]]]

/-- The return comes out of the conditional and of the loop, but not out of a call; a break that stands
where a value is needed comes to nothing. -/
theorem signals_come_from_exposed_statements_of_returningLoop :
    let host : Host := { file := "<script>" }
    let s : State := { scopes := Scopes.define {} "f" (.function ⟨1, ⟨1, "f", [], "any"⟩,
      [.breaking 1, returningLoop]⟩) }
    evaluate host 6 returningLoop s = .ok (.returning (.integer 1)) s ∧
      returningLoop.Exposes .returning ∧
      evaluate host 7 (.call 5 "f" []) s = .ok (.normal (.integer 1)) s ∧
      ∀ v t, expression host (evaluate host 6) (.breaking 1) s ≠ .ok v t := by
  intro host s
  have hloop : evaluate host 6 returningLoop s = .ok (.returning (.integer 1)) s := by rfl
  obtain ⟨hexposed, -, hoperand, -⟩ := signals_come_from_exposed_statements host 6
  refine ⟨hloop, hexposed returningLoop s _ s hloop .returning rfl, by rfl, fun v t h => ?_⟩
  cases (hoperand (.breaking 1) s v t).mp h

end Eval
end ScriptLang
