import ScriptLang.Proofs.Evaluator.Frames

/-! What evaluation does to names. A name that nothing in reach writes is bound as before, in every scope.
And a scope gains the names that are declared in it, but none that blocks or functions within declare. -/
namespace ScriptLang
open Eval

def Frame.sparing (name : String) : Frame where
  rel c d := d.bindings name = c.bindings name
  refl _ := rfl
  trans hcd hde := hde.trans hcd

theorem Frame.encloses_sparing (name : String) : (Frame.sparing name).Encloses (.sparing name) :=
  Scopes.bindings_dropInnermost

/-- If no code in reach writes a name, neither the node nor a function that a scope binds nor what natives
and structs hand in, then however the evaluation ends, every scope binds the name as before: to the same
value, or still to none. -/
theorem Eval.evaluation_leaves_unwritten_name (host : Host) (name : String)
    (hhost : host.CodeIn fun n => ¬n.Writes name) (nesting : Nat) (node : Node)
    (hn : ¬node.Writes name) (s : State)
    (hs : s.scopes.Binds (Value.CodeIn fun n => ¬n.Writes name)) :
    (final (evaluate host nesting node) s).scopes.bindings name = s.scopes.bindings name := by
  let R : Regime host :=
    .ofCode (fun n => ¬n.Writes name) (fun hn hp hw => hn (hw.of_mem_parts hp)) hhost
  have hbound {n : Node} {other : String} (hn : R.node n)
      (hb : n.defines? = some other ∨ n.assigns? = some other) : name ≠ other := by
    rintro rfl
    exact hn ⟨n, .itself n, hb⟩
  have hframed : R.FramedRule (.sparing name) (evaluate host nesting node) := by
    apply R.framed_evaluate (Frame.encloses_sparing name) _ _ nesting hn
    · intro n other hn hd c v
      exact c.bindings_define (hbound hn (Or.inl hd)) v
    · intro n other hn ha c v
      exact c.bindings_assign (hbound hn (Or.inr ha)) v
  exact (hframed s hs).final.2

def Eval.withParameter : State :=
  let body : List Node := [.binary 1 "=" (some (.reference 1 "y")) (some (.reference 1 "x"))]
  let f : Function := ⟨1, ⟨1, "f", ["x"], "any"⟩, body⟩
  let scopes : Scopes Value := {}
  { scopes := ((scopes.define "x" (.integer 1)).define "y" (.integer 0)).define "f" (.function f) }

/-- A call that binds `x` as a parameter leaves the `x` around it alone, though it changes `y`. -/
theorem Eval.evaluation_leaves_unwritten_name_of_parameter :
    let t := final (evaluate { file := "<script>" } 4 (.call 1 "f" [.literal 1 (.integer 2)]))
      withParameter
    t.scopes.bindings "x" = [some (.integer 1)] ∧ t.scopes.bindings "y" = [some (.integer 2)] := by
  intro t
  have hleaf {n : Node} (hp : n.parts = []) (hd : n.defines? = none) (ha : n.assigns? = none) :
      ¬n.Writes "x" := by
    apply Node.not_writes_of_parts
    · simp [hd]
    · simp [ha]
    · simp [hp]
  have hsingle {n part : Node} (hd : n.defines? ≠ some "x") (ha : n.assigns? ≠ some "x")
      (hp : n.parts = [part]) (h : ¬part.Writes "x") : ¬n.Writes "x" := by
    apply Node.not_writes_of_parts hd ha
    rw [hp]
    exact List.forall_mem_singleton.mpr h
  have hlength : ¬Prototype.textLength.toNode.Writes "x" := by
    have hcall : ¬(Node.call 3 "len" [.reference 3 "s"]).Writes "x" :=
      hsingle (by decide) (by decide) rfl (hleaf rfl rfl rfl)
    exact hsingle (by decide) (by decide) rfl (hsingle (by decide) (by decide) rfl hcall)
  have hhost : Host.CodeIn { file := "<script>" } fun n => ¬n.Writes "x" :=
    ⟨Native.codeIn_of_standard _, Prototype.codeIn_of_standard hlength⟩
  have hcall : ¬(Node.call 1 "f" [.literal 1 (.integer 2)]).Writes "x" :=
    hsingle (by decide) (by decide) rfl (hleaf rfl rfl rfl)
  have hassignment :
      ¬(Node.binary 1 "=" (some (.reference 1 "y")) (some (.reference 1 "x"))).Writes "x" := by
    apply Node.not_writes_of_parts (by decide) (by decide)
    simp only [Node.parts, Option.toList, List.cons_append, List.nil_append, List.forall_mem_cons]
    exact ⟨hleaf rfl rfl rfl, hleaf rfl rfl rfl, List.forall_mem_nil _⟩
  have hscopes : withParameter.scopes.Binds (Value.CodeIn fun n => ¬n.Writes "x") := by
    have hempty : Scopes.Binds (Value.CodeIn fun n => ¬n.Writes "x") {} :=
      Scopes.binds_of_tables Table.binds_empty (List.forall_mem_nil _)
    have hinteger (n : Int) : Value.CodeIn (fun n => ¬n.Writes "x") (.integer n) := by
      intro node hc
      cases hc
    apply ((hempty.define "x" (hinteger 1)).define "y" (hinteger 0)).define "f"
    intro node hc
    cases hc
    exact hsingle (by decide) (by decide) rfl hassignment
  have hx := evaluation_leaves_unwritten_name { file := "<script>" } "x" hhost 4 _ hcall _ hscopes
  exact ⟨hx, rfl⟩

/-- The scopes are kept, and the innermost one gains names in `names` only. -/
def Frame.gaining (names : String → Prop) : Frame where
  rel c d := c.Kept d ∧ ∀ name, d.innermost.contains name = true →
    c.innermost.contains name = true ∨ names name
  refl c := ⟨.refl c, fun _ => Or.inl⟩
  trans hcd hde :=
    ⟨hcd.1.trans hde.1, fun name h => (hde.2 name h).elim (hcd.2 name) Or.inr⟩

def Frame.kept : Frame :=
  ⟨Scopes.Kept, Scopes.Kept.refl, Scopes.Kept.trans⟩

/-- A block gives back the scope around it with the names it had. -/
theorem Frame.encloses_kept (names : String → Prop) : (Frame.gaining names).Encloses .kept := by
  intro c scope d h
  refine ⟨h.dropInnermost, fun name hc => Or.inl ?_⟩
  rw [h.sameNames_dropInnermost name]
  exact hc

/-- The scope that a node is evaluated in gains the names that the node declares, and no others. -/
theorem Regime.gaining_evaluate {host : Host} (hs : host.structs = Prototype.standard) (nesting : Nat)
    (node : Node) :
    (Regime.all host).FramedRule (.gaining fun name => node.Declares name)
      (evaluate host nesting node) := by
  induction nesting generalizing node with
  | zero => exact fun t ht => ⟨ht, Frame.refl _ _⟩
  | succ nesting ih =>
    intro t ht
    have hrespects : (Regime.all host).Respects (.gaining fun name => node.Declares name) .kept
        ((Regime.all host).permit node) (evaluate host nesting) :=
      { encloses := Frame.encloses_kept _
        within := Scopes.Kept.dropInnermost
        define := by
          intro name hd c v
          refine ⟨Scopes.kept_define c name v, fun other hc => ?_⟩
          by_cases ho : other = name
          · subst ho
            exact Or.inr (.here hd)
          · simp only [Scopes.define, Table.contains_insert, ho, decide_false, Bool.false_or] at hc
            exact Or.inl hc
        assign := by
          intro name _ c v
          refine ⟨Scopes.kept_assign c name v, fun other hc => Or.inl ?_⟩
          rwa [Scopes.contains_innermost_assign] at hc
        nodes := by
          rintro part (hexposed | hreceived)
          · apply (ih part).mono
            intro c d hcd
            exact ⟨hcd.1, fun name hc => (hcd.2 name hc).imp id (.exposed hexposed)⟩
          · exact absurd hreceived (not_received_of_standard hs part)
        inner := fun _ => trivial
        rule := fun {inner} _ => (ih inner).mono And.left }
    exact (composed_step trivial).framed hrespects host.bounds ht

/-- However an evaluation ends, the scope it took place in binds no names but those that it bound before and
those that the node declares. So in every scope that is left, a name that the node does not declare, such as
one that is declared in a block or a function only, or that is only a parameter, is bound where it was bound
before. -/
theorem Eval.evaluation_binds_declared_names_only (host : Host)
    (hs : host.structs = Prototype.standard) (nesting : Nat) (node : Node) (s : State) :
    let t := final (evaluate host nesting node) s
    (∀ name, t.scopes.innermost.contains name = true →
      s.scopes.innermost.contains name = true ∨ node.Declares name) ∧
    ∀ name, ¬node.Declares name →
      t.scopes.inward.map (·.contains name) = s.scopes.inward.map (·.contains name) := by
  intro t
  obtain ⟨hkept, hgains⟩ := (Regime.gaining_evaluate hs nesting node s (Regime.holds_all host s)).final.2
  refine ⟨hgains, fun name hn => ?_⟩
  have hinnermost : t.scopes.innermost.contains name = s.scopes.innermost.contains name := by
    rw [Bool.eq_iff_iff]
    exact ⟨fun hc => (hgains name hc).resolve_right hn, hkept.innermost name⟩
  have haround : t.scopes.around.map (·.contains name) = s.scopes.around.map (·.contains name) := by
    rw [← List.forall₂_eq_eq_eq, List.forall₂_map_left_iff, List.forall₂_map_right_iff]
    exact hkept.around.flip.imp fun a b hab => (hab name).symm
  simp only [Scopes.inward, List.map_cons, hinnermost, haround]

def Eval.declaringBranch : Node :=
  let condition : Node :=
    .binary 1 "=" (some (.declaration 1 "y")) (some (.literal 1 (.boolean true)))
  .conditional 1
    [.mk 1 condition [.binary 1 "=" (some (.declaration 1 "x")) (some (.literal 1 (.integer 1)))]]

/-- Behind the branch `y` is bound, and `x` is not. -/
theorem Eval.evaluation_binds_declared_names_only_of_branch :
    let t := final (evaluate { file := "<script>" } 4 declaringBranch) {}
    t.scopes.inward.map (·.contains "y") = [true] ∧ declaringBranch.Declares "y" ∧
      t.scopes.inward.map (·.contains "x") = [false] := by
  intro t
  obtain ⟨hdeclared, hothers⟩ :=
    evaluation_binds_declared_names_only { file := "<script>" } rfl 4 declaringBranch {}
  have hy : t.scopes.inward.map (·.contains "y") = [true] := rfl
  have hx : ¬declaringBranch.Declares "x" := by
    intro h
    cases h with
    | here hd => cases hd
    | exposed hp h =>
      cases List.mem_singleton.mp hp
      cases h with
      | here hd => exact absurd hd (by decide)
      | exposed hp h =>
        rcases List.mem_pair.mp hp with rfl | rfl <;> cases h with
        | here hd => cases hd
        | exposed hp _ => cases hp
  exact ⟨hy, (hdeclared "y" rfl).resolve_left Bool.false_ne_true, hothers "x" hx⟩

end ScriptLang
