import ScriptLang.Proofs.Evaluator.Unquoted
import ScriptLang.Proofs.Faults

/-! Programs that were read can be evaluated. The parser gives well-formed trees only, and a running program
makes functions out of them and quotes nothing. So what evaluation has to refuse for want of a rule or of
an operand does not come up, unless a host hands it in. -/
namespace ScriptLang

def Value.Sound (v : Value) : Prop :=
  v.CodeIn Node.WellFormed ∧ v.Unquoted

/-- A piece of syntax was met that no rule evaluates. -/
def Fault.NoRule : Fault → Prop
  | .diagnostic d => ∃ form, d.cause = .notEvaluable form
  | _ => False

theorem Fault.OfText.not_noRule {e : Fault} (h : e.OfText) : ¬e.NoRule := by
  obtain ⟨d, rfl, hfamily⟩ := h
  rintro ⟨form, hcause⟩
  rw [Diagnostic.family, hcause] at hfamily
  cases hfamily

theorem Fault.OfOperator.not_noRule {site : Site} {e : Fault} (h : e.OfOperator site) : ¬e.NoRule := by
  cases h <;> (rintro ⟨form, hcause⟩; cases hcause)

namespace Regime
variable {host : Host}

def wellFormed (hn : host.natives = Native.standard) (hs : host.structs = Prototype.standard) :
    Regime host :=
  (ofCode Node.WellFormed Node.Every.of_mem_parts
    { natives := fun hf h => Native.codeIn_of_standard _ (hn ▸ hf) h
      members := fun h => Prototype.codeIn_of_standard Prototype.wellFormed_textLength (hs ▸ h) }).unquoted
    (Host.unquoted_of_standard hn hs)

/-- Where nothing is quoted, a rule is found for everything. -/
theorem guarded_wellFormed (hn : host.natives = Native.standard)
    (hs : host.structs = Prototype.standard) :
    (wellFormed hn hs).Guarded (wellFormed hn hs).node (fun _ => True) fun e => ¬e.NoRule where
  refusal {cause} line hcause := by
    rintro ⟨form, hform⟩
    have hnotEvaluable : cause = .notEvaluable form := hform
    subst hnotEvaluable
    obtain ⟨q, -, hunquoted⟩ := hcause
    exact hunquoted q rfl
  nesting := id
  loop _ := id
  operation _ _ _ he := by
    rcases Operation.fault_of_apply he with hoperator | ⟨rfl, -⟩ | ⟨rfl, -⟩
    · exact hoperator.not_noRule
    · exact id
    · exact id
  native {name native args w} hf _ := by
    rw [hn] at hf
    refine (Native.asks_of_standard args hf w w (.refl w)).mono (fun _ _ => trivial) ?_
    rintro _ ⟨need, rfl, -⟩
    exact id

end Regime

namespace Run
variable {host : Host}

/-- A text is run in the regime of well-formed programs, from whatever such programs have left. -/
theorem within_wellFormed (hn : host.natives = Native.standard)
    (hs : host.structs = Prototype.standard) (text file : String) {state : State}
    (h : state.scopes.Binds Value.Sound) :
    Within (Regime.wellFormed hn hs) ⟨.ofText text file, state⟩ :=
  ⟨Parser.wellFormed_of_mem_drain, h⟩

/-- All that comes from the parser is well formed. A program that is run with the standard natives and structs,
also behind others, evaluates well-formed nodes only, so no operator lacks an operand; its values are sound
wherever it comes to; and it never ends because a piece of syntax has no rule. That branches and headers
stand in conditionals and functions only, and that arguments, conditions and statements are present, is so
in every tree. -/
theorem read_programs_are_evaluable (host : Host) (hn : host.natives = Native.standard)
    (hs : host.structs = Prototype.standard) (text file : String) :
    (∀ nesting nodes, Parser.parse nesting text file = .ok nodes → ∀ n ∈ nodes, n.WellFormed) ∧
    ∀ state : State, state.scopes.Binds Value.Sound →
      let start : Interpreter := ⟨.ofText text file, state⟩
      (∀ node s inner u, Comes host start node s →
        Eval.Reaches host host.limits.evaluations node s inner u →
          inner.WellFormed ∧ u.scopes.Binds Value.Sound ∧
            ∀ line operator left right, inner = .binary line operator left right →
              left.isSome = true ∧ right.isSome = true) ∧
      EndsIn (fun i => i.state.scopes.Binds Value.Sound) Value.Sound (execute host start) ∧
      ∀ e i, execute host start = .error e i → ¬e.NoRule := by
  refine ⟨fun _ _ => Parser.wellFormed_of_parse, ?_⟩
  intro state hstate start
  have hstart : Within (Regime.wellFormed hn hs) start := within_wellFormed hn hs text file hstate
  refine ⟨?_, hstart.execute, fun e i he => ?_⟩
  · intro node s inner u hc hr
    obtain ⟨hnode, hholds⟩ := hstart.of_comes hc
    obtain ⟨hinner, hu⟩ := (Regime.wellFormed hn hs).of_reaches hnode hholds hr
    refine ⟨hinner, hu, ?_⟩
    rintro line operator left right rfl
    exact (hinner _ (.itself _)).2
  · have hcourse : ∀ e, (Parser.within text).faults e → ¬e.NoRule := by
      rintro e (htext | rfl | ⟨rfl, -⟩)
      · exact htext.not_noRule
      · exact id
      · exact id
    obtain ⟨-, rfl | ⟨hrule, -⟩⟩ := faults_of_execute (Regime.guarded_wellFormed hn hs)
      (Parser.within text) hcourse hstart trivial (List.suffix_refl _) he
    · rintro ⟨form, hcause⟩
      cases hcause
    · exact hrule

/-- A program that fails for an operator that does not apply. -/
theorem read_programs_are_evaluable_of_unknown_operator :
    let host : Host := { file := "<script>", limits := ⟨10, 40, 10, 10⟩ }
    let text := "let f(x) \x7b return x; \x7d f(true) + 1;"
    ∃ nodes e i, Parser.parse 10 text "<script>" = .ok nodes ∧ (∀ n ∈ nodes, n.WellFormed) ∧
      execute host ⟨.ofText text "<script>", {}⟩ = .error e i ∧
      e.message = "Unknown operator expression: true + 1 on line 1 in <script>" ∧ ¬e.NoRule ∧
      i.state.scopes.Binds Value.Sound := by
  intro host text
  have hparsed : (Parser.parse 10 text "<script>").isOk = true := by decide +kernel
  have htold : (faultOf? (execute host ⟨.ofText text "<script>", {}⟩)).map Fault.message =
      some "Unknown operator expression: true + 1 on line 1 in <script>" := by decide +kernel
  have hempty : Scopes.Binds Value.Sound {} :=
    Scopes.binds_of_tables Table.binds_empty (List.forall_mem_nil _)
  obtain ⟨hnodes, hruns⟩ := read_programs_are_evaluable host rfl rfl text "<script>"
  obtain ⟨-, hends, hrules⟩ := hruns {} hempty
  cases hp : Parser.parse 10 text "<script>" with
  | error e =>
    rw [hp] at hparsed
    cases hparsed
  | ok nodes =>
    cases he : execute host ⟨.ofText text "<script>", {}⟩ with
    | ok v i =>
      rw [he] at htold
      cases htold
    | error e i =>
      rw [he] at htold hends
      exact ⟨nodes, e, i, rfl, hnodes 10 nodes hp, rfl, Option.some.inj htold, hrules e i he, hends⟩

def handingBack : Function :=
  ⟨1, ⟨1, "f", [], "any"⟩, [.returning 1 (some (.reference 1 "b"))]⟩

/-- A branch that a host hands in as a value is met without a rule. -/
example : Eval.evaluate { file := "<script>" } 4 (.call 1 "f" [])
    { scopes := ⟨.ofList [("f", .function handingBack), ("b", .quoted (.branch default))], []⟩ } =
      .error (.atSite (.notEvaluable "<Branch>") ⟨some 0, "<script>"⟩)
    { scopes := ⟨.ofList [("f", .function handingBack), ("b", .quoted (.branch default))], []⟩ } := rfl

end Run
end ScriptLang
