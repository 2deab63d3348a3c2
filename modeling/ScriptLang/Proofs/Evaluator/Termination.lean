import Mathlib
import ScriptLang.Proofs.Evaluator.Frames
import ScriptLang.Proofs.Evaluator.Operations
import ScriptLang.Proofs.Worlds

/-! Only loops run on. A node is larger than the nodes that stand in it, and a call, which may run code of any
size, goes one deeper, where there is a limit. So an evaluation without loops comes to an end by induction on
what is left of the depth, and at one depth on the size of the node: there is a bound such that evaluations
that may nest as deeply end, and all in the same way. -/
namespace ScriptLang

/-- The work was broken off rather than ended: at a limit of the machine, or until the world answers. -/
def Fault.BrokenOff : Fault → Prop
  | nesting | unfinished | waiting .line | waiting (.file _) => True
  | _ => False

def FinishesIn {σ α : Type} (P : σ → Prop) (Q : α → Prop) : EStateM.Result Fault σ α → Prop
  | .ok a s => P s ∧ Q a
  | .error fault s => P s ∧ ¬fault.BrokenOff

theorem FinishesIn.mono {σ α : Type} {P P' : σ → Prop} {Q Q' : α → Prop}
    {r : EStateM.Result Fault σ α} (h : FinishesIn P Q r) (hp : ∀ s, P s → P' s)
    (hq : ∀ a, Q a → Q' a) : FinishesIn P' Q' r := by
  cases r with
  | ok a s => exact ⟨hp s h.1, hq a h.2⟩
  | error fault s => exact ⟨hp s h.1, h.2⟩

/-- An operator that does not apply is an error. -/
theorem Operation.not_brokenOff_of_apply {site : Site} {fault : Fault} {spelling : String}
    {left right : Value} (h : apply site spelling left right = .error fault) : ¬fault.BrokenOff := by
  rcases fault_of_apply h with hoperator | ⟨rfl, -⟩ | ⟨rfl, -⟩
  · obtain ⟨d, rfl⟩ := hoperator.isDiagnostic
    exact id
  · exact id
  · exact id

/-- In the worlds in `W` the natives of the host return: they come back with a value or an error, in a world
in `W`. The code that they hand in, if any, holds no loop. -/
structure Host.Returns (host : Host) (W : World → Prop) : Prop where
  finishes : ∀ {name native args w}, host.natives.find? name = some native → W w →
    FinishesIn W (fun _ => True) (native args w)
  loopless : ∀ {name native args w v w'}, host.natives.find? name = some native →
    native args w = .ok v w' → v.CodeIn Node.Loopless

structure World.Known (w : World) : Prop where
  input : w.inputOpen = false
  disk : ∀ path, w.disk path ≠ .unknown

/-- Natives of a world that is known do not wait for it. -/
theorem World.Known.finishes {α : Type} {m : EStateM Fault World α} {w : World} (hw : w.Known)
    (h : Asks m) : FinishesIn Known (fun _ => True) (m w) := by
  have hknown {u : World} (hu : w.Continues u) : u.Known :=
    ⟨hu.inputOpen.trans hw.input, fun path hunknown => hw.disk path (hu.disk ▸ hunknown)⟩
  have hends := h w w (.refl w)
  cases hm : m w with
  | ok a u =>
    rw [hm] at hends
    exact ⟨hknown hends.1, trivial⟩
  | error fault u =>
    rw [hm] at hends
    obtain ⟨hu, need, rfl, hlacks⟩ := hends
    refine ⟨hknown hu, ?_⟩
    cases need with
    | line => exact absurd (hw.input.symm.trans hlacks) Bool.false_ne_true
    | file path => exact absurd hlacks (hw.disk path)
    | decoding m => exact id
    | encoding c => exact id

namespace Regime
open Eval
variable {host : Host} {α β : Type} {Q : α → Prop} {Q' : β → Prop}

structure Stands (R : Regime host) (W : World → Prop) (depth : Nat) (s : State) : Prop where
  holds : R.Holds s
  depth : s.depth = depth
  world : W s.world

/-- From every state at a depth the steps come to an end at that depth. When evaluations have room enough to
nest, how much room there is makes no difference. -/
def Settles (R : Regime host) (W : World → Prop) (depth : Nat) (m : Steps α) (Q : α → Prop) : Prop :=
  ∀ t, R.Stands W depth t → ∃ bound r, FinishesIn (R.Stands W depth) Q r ∧
    ∀ b nesting, b.depth = host.depthLimit → bound ≤ nesting →
      m b (evaluate (host.within b) nesting) t = r

variable {R : Regime host} {W : World → Prop} {depth : Nat}

namespace Settles

/-- Steps that evaluate nothing end at once. -/
theorem of_finishes {m : Eval α}
    (h : ∀ t, R.Stands W depth t → FinishesIn (R.Stands W depth) Q (m t)) :
    R.Settles W depth (fun _ _ => m) Q :=
  fun t ht => ⟨0, m t, h t ht, fun _ _ _ _ => rfl⟩

theorem bind {m : Steps α} {f : α → Steps β} (hm : R.Settles W depth m Q)
    (hf : ∀ a, Q a → R.Settles W depth (f a) Q') :
    R.Settles W depth (fun b sub => m b sub >>= fun a => f a b sub) Q' := by
  intro t ht
  obtain ⟨bound, r, hr, hsame⟩ := hm t ht
  cases r with
  | error fault u =>
    refine ⟨bound, .error fault u, hr, fun b nesting hd hle => ?_⟩
    exact bind_of_error (hsame b nesting hd hle)
  | ok a u =>
    obtain ⟨bound', r', hr', hsame'⟩ := hf a hr.2 u hr.1
    refine ⟨max bound bound', r', hr', fun b nesting hd hle => ?_⟩
    have hfirst := hsame b nesting hd (Nat.max_le.mp hle).1
    have hsecond := hsame' b nesting hd (Nat.max_le.mp hle).2
    exact (bind_of_ok hfirst).trans hsecond

/-- Steps settle with what is done before and behind them, which takes the state to another
depth and back. -/
theorem around {inside : Nat} {m : Steps α} {before after : State → State}
    (h : R.Settles W inside m Q) (hbefore : ∀ t, R.Stands W depth t → R.Stands W inside (before t))
    (hafter : ∀ u, R.Stands W inside u → R.Stands W depth (after u)) :
    R.Settles W depth (fun b sub => Eval.around before after (m b sub)) Q := by
  intro t ht
  obtain ⟨bound, r, hr, hsame⟩ := h (before t) (hbefore t ht)
  cases r with
  | ok a u =>
    refine ⟨bound, .ok a (after u), ⟨hafter u hr.1, hr.2⟩, fun b nesting hd hle => ?_⟩
    simp only [Eval.around, hsame b nesting hd hle]
  | error fault u =>
    refine ⟨bound, .error fault (after u), ⟨hafter u hr.1, hr.2⟩, fun b nesting hd hle => ?_⟩
    simp only [Eval.around, hsame b nesting hd hle]

theorem inScope {m : Steps α} {scope : Table Value} (hs : scope.Binds R.value)
    (h : R.Settles W depth m Q) :
    R.Settles W depth (fun b sub => Eval.inScope scope (m b sub)) Q := by
  simp only [inScope_eq_around]
  apply h.around
  · exact fun t ht => ⟨holds_push ht.holds hs, ht.depth, ht.world⟩
  · exact fun u hu => ⟨hu.holds.dropInnermost, hu.depth, hu.world⟩

/-- What settles one level deeper settles below a call. -/
theorem oneDeeper {m : Steps α} (h : R.Settles W (depth + 1) m Q) :
    R.Settles W depth (fun b sub => Eval.oneDeeper (m b sub)) Q := by
  simp only [oneDeeper_eq_around]
  apply h.around
  · exact fun t ht => ⟨ht.holds, congrArg (· + 1) ht.depth, ht.world⟩
  · exact fun u hu => ⟨hu.holds, congrArg (· - 1) hu.depth, hu.world⟩

/-- The body runs only where the limit of the depth leaves room for it. -/
theorem enter {site : Site} {params : List String} {args : Steps (List Value)} {body : Steps α}
    (hargs : R.Settles W depth args fun values => ∀ v ∈ values, R.value v)
    (hbody : (depth : Int) < host.depthLimit → R.Settles W (depth + 1) body Q) :
    R.Settles W depth
      (fun b sub => Eval.enter b.depth site params (args b sub) (body b sub)) Q := by
  by_cases hlimit : host.depthLimit ≤ (depth : Int)
  · intro t ht
    refine ⟨0, refuseAt site (.callDepth host.depthLimit) t, ⟨ht, id⟩, fun b nesting hd _ => ?_⟩
    show Eval.enter b.depth site params _ _ t = _
    rw [Eval.enter, hd, if_pos (ht.depth ▸ hlimit)]
  · have hrun : R.Settles W depth (fun b sub => do
        let values ← args b sub
        Eval.oneDeeper (Eval.inScope (Table.ofList (params.zip values)) (body b sub))) Q := by
      apply hargs.bind
      intro values hv
      exact oneDeeper (inScope (binds_parameters params hv) (hbody (Int.not_le.mp hlimit)))
    intro t ht
    obtain ⟨bound, r, hr, hsame⟩ := hrun t ht
    refine ⟨bound, r, hr, fun b nesting hd hle => ?_⟩
    show Eval.enter b.depth site params _ _ t = _
    rw [Eval.enter, hd, if_neg (ht.depth ▸ hlimit)]
    exact hsame b nesting hd hle

end Settles

structure Terminating (R : Regime host) (W : World → Prop) : Prop where
  loop : ∀ {line condition body}, ¬R.node (.loop line condition body)
  received : ∀ node, ¬R.Received node
  native : ∀ {name native args w}, host.natives.find? name = some native → W w →
    FinishesIn W (fun _ => True) (native args w)

def SettlesAt (R : Regime host) (W : World → Prop) (depth : Nat) (node : Node) : Prop :=
  R.Settles W depth (fun _ sub => sub node) fun outcome => R.value outcome.value

structure Provides (R : Regime host) (W : World → Prop) (depth : Nat) (l : Permit) : Prop where
  nodes : ∀ {node}, l.nodes node → R.SettlesAt W depth node
  inner : ∀ {node}, l.inner node → R.SettlesAt W depth node
  own : ∀ {node}, l.own node → R.node node
  deeper : ∀ {node below}, R.node node → depth < below → (below : Int) ≤ host.depthLimit →
    R.SettlesAt W below node

variable {l : Permit}

theorem Provides.block (h : R.Provides W depth l) : R.Provides W depth (.only l.inner) :=
  ⟨h.inner, False.elim, False.elim, h.deeper⟩

/-- Below the limit on calls, what is provided for a call is provided for the body one level deeper. -/
theorem Provides.body (h : R.Provides W depth l) (hlimit : (depth : Int) < host.depthLimit) :
    R.Provides W (depth + 1) (.only R.node) where
  nodes hn := h.deeper hn (Nat.lt_succ_self depth) (by omega)
  inner := False.elim
  own := False.elim
  deeper hn hb := h.deeper hn (Nat.lt_of_succ_lt hb)

/-- Steps made of what a permit allows come to an end, if the evaluations that it allows do. -/
theorem Composed.settles {m : Steps α} (hc : R.Composed l Q m) (hR : R.Terminating W)
    (h : R.Provides W depth l) : R.Settles W depth m Q := by
  -- The body of a function is composed at the next depth, so the induction is for all depths at once.
  induction hc generalizing depth with
  | pure ha => exact .of_finishes fun t ht => ⟨ht, ha⟩
  | refuse line _ => exact .of_finishes fun t ht => ⟨ht, id⟩
  | unfinished hloop => exact absurd (h.own hloop) hR.loop
  | evaluate hn => exact h.nodes hn
  | bind _ _ ihm ihf => exact (ihm h).bind fun a ha => ihf a ha h
  | read _ ih => exact fun t ht => ih t ht.holds h t ht
  | define _ hv =>
    exact .of_finishes fun t ht => ⟨⟨ht.holds.define _ hv, ht.depth, ht.world⟩, hv⟩
  | assign _ hv =>
    exact .of_finishes fun t ht => ⟨⟨ht.holds.assign _ hv, ht.depth, ht.world⟩, trivial⟩
  | native hf hargs =>
    next native args =>
    apply Settles.of_finishes
    intro t ht
    have hn : FinishesIn W (fun _ => True) (native args t.world) := hR.native hf ht.world
    unfold ofWorld
    cases hw : native args t.world with
    | ok v w =>
      rw [hw] at hn
      exact ⟨⟨ht.holds, ht.depth, hn.1⟩, R.value_native hf hargs hw⟩
    | error fault w =>
      rw [hw] at hn
      exact ⟨⟨ht.holds, ht.depth, hn.1⟩, hn.2⟩
  | @operation _ line spelling _ _ left right _ hl hr =>
    apply Settles.of_finishes
    intro t ht
    unfold Eval.ofExcept
    cases ha : Operation.apply (host.site line) spelling left right with
    | ok v => exact ⟨ht, R.value_apply hl hr ha⟩
    | error fault => exact ⟨ht, Operation.not_brokenOff_of_apply ha⟩
  | block _ ih => exact .inScope Table.binds_empty (ih h.block)
  | enter line params _ _ ihargs ihbody =>
    exact .enter (ihargs h) fun hlimit => ihbody (h.body hlimit)

end Regime

theorem Prototype.loopless_textLength : textLength.toNode.Loopless := by
  have hreference : (Node.reference 3 "s").Loopless := Node.every_of_parts rfl (List.forall_mem_nil _)
  have hcall : (Node.call 3 "len" [.reference 3 "s"]).Loopless :=
    Node.every_of_parts rfl (List.forall_mem_singleton.mpr hreference)
  have hreturn : (Node.returning 3 (some (.call 3 "len" [.reference 3 "s"]))).Loopless :=
    Node.every_of_parts rfl (List.forall_mem_singleton.mpr hcall)
  exact Node.every_of_parts rfl (List.forall_mem_singleton.mpr hreturn)

namespace Regime
variable {host : Host} {W : World → Prop}

def loopless (hs : host.structs = Prototype.standard) (hn : host.Returns W) : Regime host :=
  .ofCode Node.Loopless (fun hl hp => hl.of_mem_parts hp)
    ⟨hn.loopless, fun h => Prototype.codeIn_of_standard Prototype.loopless_textLength (hs ▸ h)⟩

end Regime

namespace Run
open Eval

end Run
end ScriptLang
