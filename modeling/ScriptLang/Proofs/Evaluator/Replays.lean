import ScriptLang.Proofs.Evaluator.Frames

/-! Evaluations that are cut off, and those that others hang on. A fault is never taken back, so steps that
begin to fail somewhere do what they did before or end with that fault. Hence two rules for the nodes inside
make a difference only by one evaluation: the first that they tell apart. -/
namespace ScriptLang

/-- The first result is also the second, unless it is one of the faults that cut off. -/
inductive Replayed {σ α : Type} (P : Fault → Prop) :
    EStateM.Result Fault σ α → EStateM.Result Fault σ α → Prop
  | same (r : EStateM.Result Fault σ α) : Replayed P r r
  | cut {fault : Fault} {s : σ} {r : EStateM.Result Fault σ α} :
    P fault → Replayed P (.error fault s) r

namespace Replayed
open Eval
variable {α β : Type} {P : Fault → Prop}

/-- A replay goes on as long as the first step did not end in one of the excepted faults. -/
theorem bind {σ : Type} {m m' : EStateM Fault σ α} {f f' : α → EStateM Fault σ β} {s : σ}
    (hm : Replayed P (m s) (m' s)) (hf : ∀ a t, m s = .ok a t → Replayed P (f a t) (f' a t)) :
    Replayed P ((m >>= f) s) ((m' >>= f') s) := by
  generalize hr : m' s = r at hm
  cases h : m s with
  | ok a t =>
    rw [h] at hm
    cases hm
    rw [bind_of_ok h, bind_of_ok hr]
    exact hf a t h
  | error fault t =>
    rw [h] at hm
    rw [bind_of_error h]
    cases hm with
    | same =>
      rw [bind_of_error hr]
      exact .same _
    | cut hd => exact .cut hd

theorem around {before after : State → State} {m m' : Eval α} {s : State}
    (h : Replayed P (m (before s)) (m' (before s))) :
    Replayed P (Eval.around before after m s) (Eval.around before after m' s) := by
  unfold Eval.around
  revert h
  generalize m (before s) = r
  generalize m' (before s) = r'
  rintro (_ | hd)
  · exact .same _
  · exact .cut hd

/-- A call that the lower limit lets through is let through by the higher one. -/
theorem enter {limit limit' : Int} (hl : limit ≤ limit') (site : Site)
    (hP : limit < limit' → P (.atSite (.callDepth limit) site)) (params : List String)
    {args args' : Eval (List Value)} {body body' : Eval α} {s : State}
    (hargs : Replayed P (args s) (args' s)) (hbody : ∀ u, Replayed P (body u) (body' u)) :
    Replayed P (Eval.enter limit site params args body s)
      (Eval.enter limit' site params args' body' s) := by
  unfold Eval.enter
  by_cases hd : limit ≤ (s.depth : Int)
  · rw [if_pos hd]
    rcases hl.eq_or_lt with rfl | hlt
    · rw [if_pos hd]
      exact .same _
    · exact .cut (hP hlt)
  · have hd' : ¬limit' ≤ (s.depth : Int) := by omega
    rw [if_neg hd, if_neg hd']
    apply hargs.bind
    intro values u _
    simp only [oneDeeper_eq_around, inScope_eq_around]
    exact around (around (hbody _))

end Replayed

namespace Regime
open Eval
variable {host : Host} {α : Type} {Q : α → Prop} {l : Permit} {P : Fault → Prop}

/-- Steps that are composed come to a result that fits, whatever the nodes inside come to. -/
theorem Composed.of_ok {m : Steps α} (hc : (Regime.all host).Composed l Q m) {b : Bounds}
    {sub : Node → Eval Outcome} {s t : State} {a : α} (h : m b sub s = .ok a t) : Q a := by
  let F : Frame := ⟨fun _ _ => True, fun _ => trivial, fun _ _ => trivial⟩
  have hrule (node : Node) : (Regime.all host).FramedRule F (sub node) := by
    intro u _
    unfold Framed
    cases sub node u with
    | ok outcome v => exact ⟨⟨holds_all host v, trivial⟩, fun _ _ => trivial⟩
    | error fault v => exact ⟨holds_all host v, trivial⟩
  have hrespects : (Regime.all host).Respects F F l sub :=
    { encloses := fun _ => trivial
      within := fun _ => trivial
      define := fun _ _ _ => trivial
      assign := fun _ _ _ => trivial
      nodes := fun _ => hrule _
      inner := fun _ => trivial
      rule := fun _ => hrule _ }
  have hframed := hc.framed hrespects b (holds_all host s)
  unfold Framed at hframed
  rw [h] at hframed
  exact hframed.2

end Regime

namespace Eval
variable {α β : Type} {sub sub' : Node → Eval Outcome} {inner : Node} {s t : State} {b : Bounds}

open Classical in
noncomputable def failingAt (sub : Node → Eval Outcome) (inner : Node) (t : State) (fault : Fault) :
    Node → Eval Outcome := fun node s =>
  if node = inner ∧ s = t then .error fault s else sub node s

/-- The steps come to the evaluation of `inner` in `t`: they fail where it does. -/
def ComesTo (sub : Node → Eval Outcome) (inner : Node) (t : State)
    (m : (Node → Eval Outcome) → Eval α) (s : State) : Prop :=
  ∀ fault, ∃ u, m (failingAt sub inner t fault) s = .error fault u

theorem ComesTo.around {m : (Node → Eval Outcome) → Eval α} {before after : State → State}
    (h : ComesTo sub inner t m (before s)) :
    ComesTo sub inner t (fun sub => Eval.around before after (m sub)) s := by
  intro fault
  obtain ⟨u, hu⟩ := h fault
  exact ⟨after u, by simp only [Eval.around, hu]⟩

end Eval

namespace Regime
open Eval
variable {host : Host} {α β : Type} {Q : α → Prop} {Q' : β → Prop} {l : Permit} {b : Bounds}
  {sub sub' : Node → Eval Outcome} {s : State}

end Regime

namespace Eval
variable {host : Host} {nesting : Nat} {node : Node} {s : State}

end Eval
end ScriptLang
