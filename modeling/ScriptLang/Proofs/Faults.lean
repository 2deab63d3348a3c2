import ScriptLang.CommandLine
import ScriptLang.Proofs.Evaluator.Origins
import ScriptLang.Proofs.Evaluator.Termination
import ScriptLang.Proofs.Runs

/-! What a program can end with besides a value. Nearly every fault of a run is a diagnostic. The others are
few, and each comes from something that the text has, that the run does, or that the world lacks: a numeral of
more digits than are converted, a remainder of an infinite number, the length of an immense text, a loop that
goes on and on, or a stream that cannot be read or written. -/
namespace ScriptLang

namespace Run
variable {host host' : Host} {R : Regime host} {W : World → Prop} {F : Fault → Prop}

/-- A run ends with a fault that its regime and the course of its parser allow, if it fails: it has rounds for
all statements. -/
theorem faults_of_statements (hR : R.Guarded R.node W F) (C : Parser.Course) (hC : ∀ e, C.faults e → F e)
    {i : Interpreter} (h : Within R i) (hw : W i.state.world) (hp : C.holds i.parser) {fuel : Nat}
    (hfuel : i.parser.size < fuel) (last : Value) :
    EndsOr (fun j => W j.state.world) (fun _ => True) F (statements host fuel last i) := by
  induction fuel generalizing i last with
  | zero => omega
  | succ fuel ih =>
    rw [statements_succ]
    have hnext := C.next host.limits.expressions hp
    cases hn : Parse.next host.limits.expressions i.parser with
    | error e p =>
      rw [hn] at hnext
      exact ⟨hw, hC e hnext⟩
    | ok a p =>
      rw [hn] at hnext
      cases a with
      | none => exact ⟨hw, trivial⟩
      | some node =>
        have hlt := Parser.size_lt_of_next hn
        obtain ⟨hnode, hgo, -⟩ := h.evaluate hn
        have hends := R.guarded_evaluate hR host.limits.evaluations node i.state hnode ⟨h.holds, hw⟩
        have hrest (value : Value) (s : State) (hs : R.HoldsIn W s) :
            EndsOr (fun j => W j.state.world) (fun _ => True) F (statements host fuel value ⟨p, s⟩) :=
          ih (hgo s hs.1) hs.2 hnext (Nat.lt_of_lt_of_le hlt (Nat.le_of_lt_succ hfuel)) value
        simp only
        cases he : Eval.evaluate host host.limits.evaluations node i.state with
        | error e s =>
          rw [he] at hends
          exact ⟨hends.1.2, hends.2⟩
        | ok outcome s =>
          rw [he] at hends
          cases outcome with
          | returning value => exact ⟨hends.1.2, trivial⟩
          | normal value => exact hrest _ s hends.1
          | breaking => exact hrest _ s hends.1
          | continuing => exact hrest _ s hends.1

/-- A program fails as its statements do, but for evaluations that nest too deeply, which are told in another
way. -/
theorem statements_of_execute_error {i j : Interpreter} {e : Fault} (h : execute host i = .error e j) :
    (e = .diagnostic ⟨.deepProgram, none, none, some host.file⟩ ∧
        statements host (i.parser.size + 1) .nothing i = .error .nesting j) ∨
      (e ≠ .nesting ∧ statements host (i.parser.size + 1) .nothing i = .error e j) := by
  unfold execute at h
  cases hst : statements host (i.parser.size + 1) .nothing i with
  | ok v j' =>
    rw [hst] at h
    cases h
  | error e' j' =>
    rw [hst] at h
    by_cases hnesting : e' = .nesting
    · subst hnesting
      cases h
      exact Or.inl ⟨rfl, rfl⟩
    · split at h
      · next heq =>
        injection heq with hn
        exact absurd hn hnesting
      · cases h
        exact Or.inr ⟨hnesting, rfl⟩

/-- A program ends with one of the faults that its regime and the course of its parser allow, if it fails. -/
theorem faults_of_execute (hR : R.Guarded R.node W F) (C : Parser.Course) (hC : ∀ e, C.faults e → F e)
    {i j : Interpreter} (h : Within R i) (hw : W i.state.world) (hp : C.holds i.parser) {e : Fault}
    (he : execute host i = .error e j) :
    W j.state.world ∧ (e = .diagnostic ⟨.deepProgram, none, none, some host.file⟩ ∨ (F e ∧ e ≠ .nesting)) := by
  have hends := faults_of_statements hR C hC h hw hp (Nat.lt_succ_self _) .nothing
  rcases statements_of_execute_error he with ⟨rfl, hst⟩ | ⟨hnesting, hst⟩
  · rw [hst] at hends
    exact ⟨hends.1, Or.inl rfl⟩
  · rw [hst] at hends
    exact ⟨hends.1, Or.inr ⟨hends.2, hnesting⟩⟩

end Run

namespace Regime
variable {host : Host}

end Regime

namespace Run
variable {host : Host}

def faultOf? {σ α : Type} : EStateM.Result Fault σ α → Option Fault
  | .ok _ _ => none
  | .error e _ => some e

theorem eq_error_of_faultOf? {σ α : Type} {r : EStateM.Result Fault σ α} {e : Fault}
    (h : faultOf? r = some e) : ∃ s, r = .error e s := by
  cases r with
  | ok a s => cases h
  | error e' s =>
    cases h
    exact ⟨s, rfl⟩

end Run
end ScriptLang
