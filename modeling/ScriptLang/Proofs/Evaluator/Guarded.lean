import ScriptLang.Proofs.Evaluator.Frames
import ScriptLang.Proofs.Worlds

/-! What evaluations fail with. A fault comes out as it is, so those of an evaluation are those of the single
steps that it is made of: refusals, operators, rounds of loops, and natives. -/
namespace ScriptLang

theorem EndsOr.around {α : Type} {P P' : State → Prop} {Q : α → Prop} {F : Fault → Prop} {m : Eval α}
    {before after : State → State} {s : State} (hm : EndsOr P Q F (m (before s)))
    (hp : ∀ t, P t → P' (after t)) : EndsOr P' Q F (Eval.around before after m s) := by
  unfold Eval.around
  cases h : m (before s) with
  | ok a t =>
    rw [h] at hm
    exact ⟨hp t hm.1, hm.2⟩
  | error e t =>
    rw [h] at hm
    exact ⟨hp t hm.1, hm.2⟩

namespace Regime
open Eval
variable {host : Host} {R : Regime host} {own : Node → Prop} {W : World → Prop} {F : Fault → Prop}
  {α : Type}

/-- The faults in `F` are all that evaluations in the regime can end with, as far as their single steps
show: refusals, a loop whose rounds run out, operators, and natives in the worlds in `W`. The loops and the
operators are those of the nodes in `own`. -/
structure Guarded (R : Regime host) (own : Node → Prop) (W : World → Prop) (F : Fault → Prop) : Prop where
  refusal : ∀ {cause} (line), R.Refuses cause → F (.atSite cause (host.site line))
  nesting : F .nesting
  loop : ∀ {line condition body}, own (.loop line condition body) → F .unfinished
  operation : ∀ {line spelling first second left right e}, own (.binary line spelling first second) →
    R.value left → R.value right →
    Operation.apply (host.site line) spelling left right = .error e → F e
  native : ∀ {name native args w}, host.natives.find? name = some native → W w →
    EndsOr W (fun _ => True) F (native args w)

def HoldsIn (R : Regime host) (W : World → Prop) (s : State) : Prop :=
  R.Holds s ∧ W s.world

def GuardedRule (R : Regime host) (W : World → Prop) (F : Fault → Prop) (sub : Node → Eval Outcome) :
    Prop :=
  ∀ node s, R.node node → R.HoldsIn W s →
    EndsOr (R.HoldsIn W) (fun outcome => R.value outcome.value) F (sub node s)

theorem endsOr_inScope {m : Eval α} {Q : α → Prop} {scope : Table Value} {s : State}
    (hm : EndsOr (R.HoldsIn W) Q F (m { s with scopes := s.scopes.push scope })) :
    EndsOr (R.HoldsIn W) Q F (inScope scope m s) := by
  rw [inScope_eq_around]
  exact hm.around fun t ht => ⟨ht.1.dropInnermost, ht.2⟩

/-- A native in a world of the kind asked for fails as natives may, and gives a value of the regime. -/
theorem endsOr_native {name : String} {native : Native} {args : List Value} {s : State}
    (hR : R.Guarded own W F) (hf : host.natives.find? name = some native) (ha : ∀ v ∈ args, R.value v)
    (hs : R.HoldsIn W s) : EndsOr (R.HoldsIn W) R.value F (ofWorld (native args) s) := by
  have hn : EndsOr W (fun _ => True) F (native args s.world) := hR.native hf hs.2
  unfold ofWorld
  cases hw : native args s.world with
  | ok v w =>
    rw [hw] at hn
    exact ⟨⟨hs.1, hn.1⟩, R.value_native hf ha hw⟩
  | error e w =>
    rw [hw] at hn
    exact ⟨⟨hs.1, hn.1⟩, hn.2⟩

/-- An operator of one of the nodes in question fails as operators may. -/
theorem endsOr_operation {line : Nat} {spelling : String} {first second : Option Node}
    {left right : Value} {s : State} (hR : R.Guarded own W F)
    (hn : own (.binary line spelling first second)) (hl : R.value left) (hr : R.value right)
    (hs : R.HoldsIn W s) :
    EndsOr (R.HoldsIn W) R.value F
      (Eval.ofExcept (Operation.apply (host.site line) spelling left right) s) := by
  unfold Eval.ofExcept
  cases ha : Operation.apply (host.site line) spelling left right with
  | ok v => exact ⟨hs, R.value_apply hl hr ha⟩
  | error e => exact ⟨hs, hR.operation hn hl hr ha⟩

/-- Entering a function fails as its arguments do, as its body does, or at the limit on calls. -/
theorem endsOr_enter {limit : Int} {line : Nat} {params : List String} {args : Eval (List Value)}
    {body : Eval α} {Q : α → Prop} {s : State} (hR : R.Guarded own W F) (hs : R.HoldsIn W s)
    (hargs : EndsOr (R.HoldsIn W) (fun values => ∀ v ∈ values, R.value v) F (args s))
    (hbody : ∀ t, R.HoldsIn W t → EndsOr (R.HoldsIn W) Q F (body t)) :
    EndsOr (R.HoldsIn W) Q F (Eval.enter limit (host.site line) params args body s) := by
  unfold Eval.enter
  split
  · exact ⟨hs, hR.refusal line trivial⟩
  · apply hargs.bind
    intro values t ht hvalues
    have hdeeper : R.Holds { t with depth := t.depth + 1 } := ht.1
    have hscope := binds_parameters params hvalues
    rw [oneDeeper_eq_around]
    refine EndsOr.around (P := R.HoldsIn W) ?_ fun u hu => hu
    apply endsOr_inScope
    exact hbody _ ⟨holds_push hdeeper hscope, ht.2⟩

/-- Steps that are made of what belongs to the regime end with one of the faults, if they fail. -/
theorem Composed.endsOr {l : Permit} {Q : α → Prop} {m : Steps α} (hc : R.Composed l Q m)
    (hR : R.Guarded own W F) (hl : ∀ n, l.nodes n ∨ l.inner n → R.node n) (ho : ∀ n, l.own n → own n)
    (b : Bounds) {sub : Node → Eval Outcome} (hsub : R.GuardedRule W F sub) {s : State} (hs : R.HoldsIn W s) :
    EndsOr (R.HoldsIn W) Q F (m b sub s) := by
  -- What blocks and bodies may hold is permitted to them alone, so the permit changes on the way in.
  induction hc generalizing s with
  | pure ha => exact ⟨hs, ha⟩
  | refuse line hcause => exact ⟨hs, hR.refusal line hcause⟩
  | unfinished hloop => exact ⟨hs, hR.loop (ho _ hloop)⟩
  | evaluate hn => exact hsub _ s (hl _ (Or.inl hn)) hs
  | bind _ _ ihm ihf =>
    apply (ihm hl ho hs).bind
    intro a t ht ha
    exact ihf a ha hl ho ht
  | read _ ih => exact ih s hs.1 hl ho hs
  | define _ hv => exact ⟨⟨hs.1.define _ hv, hs.2⟩, hv⟩
  | assign _ hv => exact ⟨⟨hs.1.assign _ hv, hs.2⟩, trivial⟩
  | native hf hargs => exact endsOr_native hR hf hargs hs
  | operation spelling hn hleft hright => exact endsOr_operation hR (ho _ hn) hleft hright hs
  | block _ ih =>
    apply endsOr_inScope
    apply ih
    · rintro n (hn | hn)
      · exact hl n (Or.inr hn)
      · exact hn.elim
    · exact fun n => False.elim
    · exact ⟨holds_push hs.1 Table.binds_empty, hs.2⟩
  | enter line params _ _ ihargs ihbody =>
    apply endsOr_enter hR hs (ihargs hl ho hs)
    intro t ht
    apply ihbody _ _ ht
    · rintro n (hn | hn)
      · exact hn
      · exact hn.elim
    · exact fun n => False.elim

theorem node_of_permit {node n : Node} (hn : R.node node)
    (h : (R.permit node).nodes n ∨ (R.permit node).inner n) : R.node n := by
  rcases h with (hexposed | hreceived) | henclosed
  · exact R.node_of_mem_parts hn (Node.mem_parts_iff.mpr (Or.inl hexposed))
  · exact node_of_received hreceived
  · exact R.node_of_mem_parts hn (Node.mem_parts_iff.mpr (Or.inr henclosed))

/-- One evaluation ends with one of the faults, if it fails, given a rule for the nodes inside that does. -/
theorem guarded_step {node : Node} (hR : R.Guarded own W F) (hn : R.node node) (ho : own node)
    {sub : Node → Eval Outcome} (hsub : R.GuardedRule W F sub) {s : State} (hs : R.HoldsIn W s) :
    EndsOr (R.HoldsIn W) (fun outcome => R.value outcome.value) F (step host sub node s) := by
  have howns (n : Node) (h : n = node) : own n := h ▸ ho
  exact (composed_step hn).endsOr hR (fun n => node_of_permit hn) howns host.bounds hsub hs

/-- Every evaluation in the regime ends with one of the faults, if it fails. -/
theorem guarded_evaluate (hR : R.Guarded R.node W F) (nesting : Nat) :
    R.GuardedRule W F (evaluate host nesting) := by
  induction nesting with
  | zero => exact fun node s _ hs => ⟨hs, hR.nesting⟩
  | succ nesting ih => exact fun node s hn hs => guarded_step hR hn hn ih hs

end Regime
end ScriptLang
