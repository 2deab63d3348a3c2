import ScriptLang.Proofs.Evaluator.Composition
import ScriptLang.Proofs.Evaluator.Kinds

/-! What evaluation leaves of the scopes it finds. A frame relates the scopes before some steps to those
after them. Evaluation respects a frame that each binding of a name respects, where blocks and functions,
which run in scopes of their own, only have to respect another frame. -/
namespace ScriptLang

theorem EndsIn.mono {σ α : Type} {P P' : σ → Prop} {Q : α → Prop} {r : EStateM.Result Fault σ α}
    (h : EndsIn P Q r) (hp : ∀ s, P s → P' s) : EndsIn P' Q r := by
  cases r with
  | ok a s => exact ⟨hp s h.1, h.2⟩
  | error fault s => exact hp s h

theorem EndsIn.final {α : Type} {P : State → Prop} {Q : α → Prop} {m : Eval α} {t : State}
    (h : EndsIn P Q (m t)) : P (m.final t) := by
  unfold Eval.final
  cases hm : m t with
  | ok a s =>
    rw [hm] at h
    exact h.1
  | error fault s =>
    rw [hm] at h
    exact h

def Value.CodeIn (P : Node → Prop) (v : Value) : Prop :=
  ∀ node, v.code? = some node → P node

theorem Value.codeIn_nothing (P : Node → Prop) : Value.nothing.CodeIn P := by
  intro node hc
  cases hc

/-- Values that hold no code hold code of every description. -/
theorem Value.Plain.codeIn {v : Value} (h : v.Plain) (P : Node → Prop) : v.CodeIn P := by
  intro node hc
  cases v with
  | function f => cases h
  | quoted q => cases h
  | _ => cases hc

/-- The values that natives of the console, of files and of texts give are no code. -/
theorem Native.codeIn_of_standard {name : String} {native : Native} {args : List Value} {w w' : World}
    {v : Value} (P : Node → Prop) (hf : standard.find? name = some native)
    (h : native args w = .ok v w') : v.CodeIn P := by
  rcases plain_or_integer_of_standard hf h with hplain | ⟨n, rfl⟩
  · exact hplain.codeIn P
  · intro node hc
    cases hc

/-- The one piece of code that the standard structs hold is the length of a text. -/
theorem Prototype.codeIn_of_standard {P : Node → Prop} (hp : P textLength.toNode) {type : String}
    {prototype : Prototype} (h : standard.find? type = some prototype) :
    prototype.members.Binds (Value.CodeIn P) := by
  intro attr v hv
  have hm : prototype.member attr = v := by simp [member, hv]
  rcases member_of_standard attr h with hnothing | hlength
  · rw [hm] at hnothing
    subst hnothing
    exact Value.codeIn_nothing P
  · rw [hm] at hlength
    subst hlength
    intro node hc
    cases hc
    exact hp

structure Host.CodeIn (host : Host) (P : Node → Prop) : Prop where
  natives : ∀ {name native args w v w'}, host.natives.find? name = some native →
    native args w = .ok v w' → v.CodeIn P
  members : ∀ {type prototype}, host.structs.find? type = some prototype →
    prototype.members.Binds (Value.CodeIn P)

def Regime.ofCode {host : Host} (P : Node → Prop) (hparts : ∀ {n part}, P n → part ∈ n.parts → P part)
    (hhost : host.CodeIn P) : Regime host where
  node := P
  value := Value.CodeIn P
  node_of_mem_parts := hparts
  value_nothing := Value.codeIn_nothing P
  value_literal {line literal} _ := by
    intro node hc
    cases literal <;> cases hc
  value_function {f} h := by
    intro node hc
    cases hc
    exact h
  node_function {f} h := h f.toNode rfl
  node_quoted {n} h := h n rfl
  value_apply _ _ h := (Operation.plain_of_apply h).codeIn P
  value_native hf _ h := hhost.natives hf h
  value_member {type prototype} attr h := by
    cases hm : prototype.members.find? attr with
    | none =>
      simp only [Prototype.member, hm]
      exact Value.codeIn_nothing P
    | some v =>
      simp only [Prototype.member, hm]
      exact hhost.members h attr v hm

def Regime.all (host : Host) : Regime host :=
  .ofCode (fun _ => True) (fun _ _ => trivial) ⟨fun _ _ _ _ => trivial, fun _ _ _ _ _ _ => trivial⟩

theorem Regime.holds_all (host : Host) (s : State) : (Regime.all host).Holds s :=
  fun _ _ _ _ _ _ _ => trivial

structure Frame where
  rel : Scopes Value → Scopes Value → Prop
  refl : ∀ c, rel c c
  trans : ∀ {c d e}, rel c d → rel d e → rel c e

/-- Steps in a scope of their own that respect `G` leave the scopes below it as `F` asks. -/
def Frame.Encloses (F G : Frame) : Prop :=
  ∀ {c scope d}, G.rel (c.push scope) d → F.rel c d.dropInnermost

namespace Regime
open Eval
variable {host : Host} {R : Regime host} {F G : Frame} {t : State} {α β : Type} {Q : α → Prop}
  {Q' : β → Prop}

/-- Parameters are bound to values of the regime, if such values are handed over. -/
theorem binds_parameters (params : List String) {values : List Value} (hv : ∀ v ∈ values, R.value v) :
    (Table.ofList (params.zip values)).Binds R.value := by
  apply Table.binds_ofList
  intro binding hmem
  exact hv binding.2 (List.of_mem_zip hmem).2

/-- From the state `t` the steps stay within the regime and respect the frame, however they end. -/
def Framed (R : Regime host) (F : Frame) (t : State) (m : Eval α) (Q : α → Prop) : Prop :=
  EndsIn (fun u => R.Holds u ∧ F.rel t.scopes u.scopes) Q (m t)

def FramedRule (R : Regime host) (F : Frame) (m : Eval Outcome) : Prop :=
  ∀ t, R.Holds t → R.Framed F t m fun outcome => R.value outcome.value

theorem FramedRule.mono {m : Eval Outcome} (h : R.FramedRule F m)
    (hFG : ∀ {c d}, F.rel c d → G.rel c d) : R.FramedRule G m :=
  fun t ht => (h t ht).mono fun _ hu => ⟨hu.1, hFG hu.2⟩

namespace Framed

theorem bind {m : Eval α} {f : α → Eval β} (hm : R.Framed F t m Q)
    (hf : ∀ a u, R.Holds u → Q a → R.Framed F u (f a) Q') : R.Framed F t (m >>= f) Q' := by
  unfold Framed at hm ⊢
  cases h : m t with
  | ok a u =>
    rw [h] at hm
    rw [bind_of_ok h]
    obtain ⟨⟨hu, hrel⟩, ha⟩ := hm
    exact (hf a u hu ha).mono fun v hv => ⟨hv.1, F.trans hrel hv.2⟩
  | error fault u =>
    rw [h] at hm
    rw [bind_of_error h]
    exact hm

theorem ofExcept (ht : R.Holds t) {result : Except Fault α} (h : ∀ a, result = .ok a → Q a) :
    R.Framed F t (Eval.ofExcept result) Q := by
  cases result with
  | ok a => exact ⟨⟨ht, F.refl _⟩, h a rfl⟩
  | error fault => exact ⟨ht, F.refl _⟩

/-- Natives leave all scopes alone. -/
theorem ofWorld (ht : R.Holds t) {step : EStateM Fault World α}
    (h : ∀ a w, step t.world = .ok a w → Q a) : R.Framed F t (Eval.ofWorld step) Q := by
  unfold Framed Eval.ofWorld
  cases hw : step t.world with
  | ok a w => exact ⟨⟨ht, F.refl _⟩, h a w hw⟩
  | error fault w => exact ⟨ht, F.refl _⟩

theorem around {before after : State → State} {m : Eval α} (h : R.Framed G (before t) m Q)
    (hafter : ∀ u, R.Holds u → G.rel (before t).scopes u.scopes →
      R.Holds (after u) ∧ F.rel t.scopes (after u).scopes) :
    R.Framed F t (Eval.around before after m) Q := by
  unfold Framed Eval.around at *
  cases hm : m (before t) with
  | ok a u =>
    rw [hm] at h
    exact ⟨hafter u h.1.1 h.1.2, h.2⟩
  | error fault u =>
    rw [hm] at h
    exact hafter u h.1 h.2

/-- Steps in a scope of their own respect the outer frame if they respect one that it encloses. -/
theorem inScope {m : Eval α} {scope : Table Value} (hFG : F.Encloses G)
    (h : R.Framed G { t with scopes := t.scopes.push scope } m Q) :
    R.Framed F t (Eval.inScope scope m) Q := by
  rw [inScope_eq_around]
  apply h.around
  intro u hu hrel
  exact ⟨hu.dropInnermost, hFG hrel⟩

theorem oneDeeper {m : Eval α} (h : R.Framed F { t with depth := t.depth + 1 } m Q) :
    R.Framed F t (Eval.oneDeeper m) Q := by
  rw [oneDeeper_eq_around]
  apply h.around
  intro u hu hrel
  exact ⟨hu, hrel⟩

/-- The arguments are evaluated where the call stands, the body in a scope of its own. -/
theorem enter {limit : Int} {site : Site} {params : List String} {args : Eval (List Value)}
    {body : Eval α} (hFG : F.Encloses G) (ht : R.Holds t)
    (hargs : R.Framed F t args fun values => ∀ v ∈ values, R.value v)
    (hbody : ∀ u, R.Holds u → R.Framed G u body Q) :
    R.Framed F t (Eval.enter limit site params args body) Q := by
  unfold Framed Eval.enter
  split
  · exact ⟨ht, F.refl _⟩
  · apply hargs.bind
    intro values u hu hv
    have hdeeper : R.Holds { u with depth := u.depth + 1 } := hu
    apply Framed.oneDeeper
    apply Framed.inScope hFG
    exact hbody _ (holds_push hdeeper (binds_parameters params hv))

end Framed

structure Respects (R : Regime host) (F G : Frame) (l : Permit) (sub : Node → Eval Outcome) :
    Prop where
  encloses : F.Encloses G
  within : G.Encloses G
  define : ∀ {name}, l.defines name → ∀ c v, F.rel c (c.define name v)
  assign : ∀ {name}, l.assigns name → ∀ c v, F.rel c (c.assign name v)
  nodes : ∀ {node}, l.nodes node → R.FramedRule F (sub node)
  inner : ∀ {node}, l.inner node → R.node node
  rule : ∀ {node}, R.node node → R.FramedRule G (sub node)

variable {l : Permit} {sub : Node → Eval Outcome}

/-- Within a block or a function the inner frame counts. -/
theorem Respects.only (h : R.Respects F G l sub) {nodes : Node → Prop}
    (hn : ∀ {node}, nodes node → R.node node) : R.Respects G G (.only nodes) sub where
  encloses := h.within
  within := h.within
  define := False.elim
  assign := False.elim
  nodes hnode := h.rule (hn hnode)
  inner := False.elim
  rule := h.rule

/-- Steps made of what a permit allows respect the frame. -/
theorem Composed.framed {m : Steps α} (hc : R.Composed l Q m) (h : R.Respects F G l sub)
    (b : Bounds) (ht : R.Holds t) : R.Framed F t (m b sub) Q := by
  -- Within a block the frame is another one, so the induction is for all frames at once.
  induction hc generalizing F t with
  | pure ha => exact ⟨⟨ht, F.refl _⟩, ha⟩
  | refuse line _ => exact ⟨ht, F.refl _⟩
  | unfinished _ => exact ⟨ht, F.refl _⟩
  | evaluate hn => exact h.nodes hn t ht
  | bind _ _ ihm ihf =>
    apply (ihm h ht).bind
    intro a u hu ha
    exact ihf a ha h hu
  | read _ ih => exact ih t ht h ht
  | define hd hv => exact ⟨⟨ht.define _ hv, h.define hd _ _⟩, hv⟩
  | assign ha hv => exact ⟨⟨ht.assign _ hv, h.assign ha _ _⟩, trivial⟩
  | native hf hargs =>
    apply Framed.ofWorld ht
    intro v w hw
    exact R.value_native hf hargs hw
  | operation spelling _ hl hr =>
    apply Framed.ofExcept ht
    intro v happly
    exact R.value_apply hl hr happly
  | block _ ih =>
    apply Framed.inScope h.encloses
    exact ih (h.only h.inner) (holds_push ht Table.binds_empty)
  | enter line params _ _ ihargs ihbody =>
    apply Framed.enter h.encloses ht (ihargs h ht)
    intro u hu
    exact ihbody (h.only id) hu

/-- A frame that every binding in the regime respects is respected by every evaluation. -/
theorem framed_evaluate (hF : F.Encloses F)
    (hdefine : ∀ {n : Node} {name}, R.node n → n.defines? = some name →
      ∀ c v, F.rel c (c.define name v))
    (hassign : ∀ {n : Node} {name}, R.node n → n.assigns? = some name →
      ∀ c v, F.rel c (c.assign name v))
    (nesting : Nat) {node : Node} (hn : R.node node) :
    R.FramedRule F (evaluate host nesting node) := by
  induction nesting generalizing node with
  | zero => exact fun t ht => ⟨ht, F.refl _⟩
  | succ nesting ih =>
    intro t ht
    have hparts {part : Node} (hp : part ∈ node.parts) : R.node part := R.node_of_mem_parts hn hp
    have hrespects : R.Respects F F (R.permit node) (evaluate host nesting) :=
      { encloses := hF
        within := hF
        define := hdefine hn
        assign := hassign hn
        nodes := by
          rintro part (hexposed | hreceived)
          · exact ih (hparts (Node.mem_parts_iff.mpr (Or.inl hexposed)))
          · exact ih (node_of_received hreceived)
        inner := fun henclosed => hparts (Node.mem_parts_iff.mpr (Or.inr henclosed))
        rule := ih }
    exact (composed_step hn).framed hrespects host.bounds ht

end Regime
end ScriptLang
