import ScriptLang.Interpreter
import ScriptLang.Proofs.Evaluator.Regime
import ScriptLang.Proofs.Parser.Moved

/-! Runs of whole programs, one statement at a time. A run whose statements belong to a regime stays
within it, from its beginning to its end. -/
namespace ScriptLang

namespace Run
variable {host : Host}

/-- One statement of a run: it is read, it is evaluated, and the run goes on behind it unless it returns. -/
theorem statements_succ (host : Host) (fuel : Nat) (last : Value) (i : Interpreter) :
    statements host (fuel + 1) last i =
      match Parse.next host.limits.expressions i.parser with
      | .error fault p => .error fault ⟨p, i.state⟩
      | .ok none p => .ok last ⟨p, i.state⟩
      | .ok (some node) p =>
        match Eval.evaluate host host.limits.evaluations node i.state with
        | .error fault s => .error fault ⟨p, s⟩
        | .ok (.returning value) s => .ok value ⟨p, s⟩
        | .ok outcome s => statements host fuel outcome.value ⟨p, s⟩ := by
  simp only [statements, bind, EStateM.bind, nextStatement, ofParse]
  cases Parse.next host.limits.expressions i.parser with
  | error fault p => rfl
  | ok a p =>
    cases a with
    | none => rfl
    | some node =>
      simp only [EStateM.bind, evaluate, ofEval]
      cases Eval.evaluate host host.limits.evaluations node i.state with
      | error fault s => rfl
      | ok outcome s => cases outcome <;> rfl

def endsWith (n : Int) (test : Interpreter → Bool) : EStateM.Result Fault Interpreter Value → Bool
  | .ok (.integer m) i => m == n && test i
  | _ => false

theorem eq_ok_of_endsWith {n : Int} {test : Interpreter → Bool}
    {r : EStateM.Result Fault Interpreter Value} (h : endsWith n test r = true) :
    ∃ i, r = .ok (.integer n) i ∧ test i = true := by
  unfold endsWith at h
  split at h
  · next m i =>
    simp only [Bool.and_eq_true, beq_iff_eq] at h
    obtain ⟨rfl, ht⟩ := h
    exact ⟨i, rfl, ht⟩
  · cases h

/-- The statements that a run comes to, each with the state it begins in. -/
inductive Comes (host : Host) : Interpreter → Node → State → Prop
  | first {i : Interpreter} {p : Parser} {node : Node} :
    Parse.next host.limits.expressions i.parser = .ok (some node) p → Comes host i node i.state
  | later {i : Interpreter} {p : Parser} {s u : State} {node last : Node} {outcome : Outcome} :
    Parse.next host.limits.expressions i.parser = .ok (some node) p →
    Eval.evaluate host host.limits.evaluations node i.state = .ok outcome s →
    (∀ value, outcome ≠ .returning value) → Comes host ⟨p, s⟩ last u → Comes host i last u

/-- A run only comes to statements of its text. -/
theorem Comes.mem_drain {i : Interpreter} {node : Node} {s : State} (h : Comes host i node s) :
    node ∈ (i.parser.drain host.limits.expressions).1 := by
  induction h with
  | first hn =>
    rw [Parser.drain_of_next hn]
    exact List.mem_cons_self
  | later hn _ _ _ ih =>
    rw [Parser.drain_of_next hn]
    exact List.mem_cons_of_mem _ ih

structure Within (R : Regime host) (i : Interpreter) : Prop where
  node : ∀ n ∈ (i.parser.drain host.limits.expressions).1, R.node n
  holds : R.Holds i.state

variable {R : Regime host}

/-- A statement that is read and evaluated leaves the run within the regime. -/
theorem Within.evaluate {i : Interpreter} {p : Parser} {node : Node} (h : Within R i)
    (hp : Parse.next host.limits.expressions i.parser = .ok (some node) p) :
    R.node node ∧ (∀ s, R.Holds s → Within R ⟨p, s⟩) ∧
      EndsIn R.Holds (fun outcome => R.value outcome.value)
        (Eval.evaluate host host.limits.evaluations node i.state) := by
  have hd := h.node
  rw [Parser.drain_of_next hp] at hd
  obtain ⟨hnode, hrest⟩ := List.forall_mem_cons.mp hd
  have he := R.confined_evaluate host.limits.evaluations node i.state hnode h.holds
  exact ⟨hnode, fun s hs => ⟨hrest, hs⟩, he.ends⟩

/-- What a run comes to is in the regime that its start was in. -/
theorem Within.of_comes {i : Interpreter} {node : Node} {s : State} (h : Within R i)
    (hc : Comes host i node s) : R.node node ∧ R.Holds s := by
  induction hc with
  | first hp => exact ⟨(h.evaluate hp).1, h.holds⟩
  | later hp he _ _ ih =>
    obtain ⟨-, hgo, hends⟩ := h.evaluate hp
    rw [he] at hends
    exact ih (hgo _ hends.1)

/-- A run within a regime ends in it, with a value of it. -/
theorem Within.statements {i : Interpreter} (h : Within R i) (fuel : Nat) {last : Value}
    (hl : R.value last) :
    EndsIn (fun j => R.Holds j.state) R.value (statements host fuel last i) := by
  induction fuel generalizing i last with
  | zero => exact h.holds
  | succ fuel ih =>
    rw [statements_succ]
    cases hp : Parse.next host.limits.expressions i.parser with
    | error fault p => exact h.holds
    | ok a p =>
      cases a with
      | none => exact ⟨h.holds, hl⟩
      | some node =>
        obtain ⟨-, hgo, hends⟩ := h.evaluate hp
        simp only
        cases he : Eval.evaluate host host.limits.evaluations node i.state with
        | error fault s =>
          rw [he] at hends
          exact hends
        | ok outcome s =>
          rw [he] at hends
          have hs := hgo s hends.1
          cases outcome with
          | returning value => exact hends
          | normal value => exact ih hs hends.2
          | breaking => exact ih hs hends.2
          | continuing => exact ih hs hends.2

/-- The fault of a program that nests too deeply is told in another way, in the same state. -/
theorem Within.execute {i : Interpreter} (h : Within R i) :
    EndsIn (fun j => R.Holds j.state) R.value (execute host i) := by
  have hs := h.statements (i.parser.size + 1) R.value_nothing
  unfold Run.execute
  cases he : Run.statements host (i.parser.size + 1) .nothing i with
  | ok v j =>
    rw [he] at hs
    exact hs
  | error fault j =>
    rw [he] at hs
    cases fault <;> exact hs

end Run

end ScriptLang
