import ScriptLang.Proofs.Faults
import ScriptLang.Proofs.Parser.FileNames
import ScriptLang.Server.Symbol

/-! Three ways through one text. Parsing it, analyzing it for an editor and running it all come upon the
same statements and the same fault, though an analysis keeps what stands before the fault, and a run
evaluates each statement before it reads the next. -/
namespace ScriptLang

namespace Parser

theorem drainFrom_of_next {nesting : Nat} {p q : Parser} {node : Node}
    (h : Parse.next nesting p = .ok (some node) q) (fuel : Nat) :
    drainFrom nesting (fuel + 1) p =
      (node :: (drainFrom nesting fuel q).1, (drainFrom nesting fuel q).2) := by
  simp only [drainFrom, h]

/-- To parse the statements of a text is to read them up to the end or the first fault, and to keep
them only at the end. -/
theorem statements_eq_drainFrom (nesting fuel : Nat) (p : Parser) :
    Parse.statements nesting fuel p =
      match (drainFrom nesting fuel p).2.1 with
      | none => .ok (drainFrom nesting fuel p).1 (drainFrom nesting fuel p).2.2
      | some fault => .error fault (drainFrom nesting fuel p).2.2 := by
  induction fuel generalizing p with
  | zero => rfl
  | succ fuel ih =>
    cases hn : Parse.next nesting p with
    | error fault q =>
      have hs : Parse.statements nesting (fuel + 1) p = .error fault q := bind_of_error hn
      simp only [hs, drainFrom, hn]
    | ok a q =>
      have hs : Parse.statements nesting (fuel + 1) p = _ := bind_of_ok hn
      cases a with
      | none => simp only [hs, drainFrom, hn, pure, EStateM.pure]
      | some node =>
        rw [hs, drainFrom_of_next hn]
        have hq := ih q
        cases hfault : (drainFrom nesting fuel q).2.1 with
        | none =>
          rw [hfault] at hq
          exact bind_of_ok hq
        | some fault =>
          rw [hfault] at hq
          exact bind_of_error hq

/-- Parsing a text is draining the parser and failing with the fault it ended at. -/
theorem parse_eq_drain (nesting : Nat) (text file : String) :
    parse nesting text file =
      match ((ofText text file).drain nesting).2.1 with
      | none => .ok ((ofText text file).drain nesting).1
      | some fault => .error fault := by
  rw [parse_eq, statements_eq_drainFrom]
  unfold drain
  cases (drainFrom nesting ((ofText text file).size + 1) (ofText text file)).2.1 <;> rfl

end Parser

/-! What an analysis tells. -/

inductive Node.Introduces : Node → SymbolKind → String → Prop
  | function {line : Nat} {header : Header} {body : List Node} :
    Introduces (.function line header body) .function header.name
  | assignment {line line' : Nat} {name : String} {right : Option Node} :
    Introduces (.binary line "=" (some (.declaration line' name)) right) .variable name
  | struct {line : Nat} {name : String} : Introduces (.struct line name) .struct name

/-- The symbols of an analysis are those of the statements that introduce a name. -/
theorem Symbol.introduces_iff (uri : String) (n : Node) (kind : SymbolKind) (name : String) :
    n.Introduces kind name ↔ ∃ symbol, Symbol.ofNode? uri n = some symbol ∧ symbol.kind = kind ∧
      symbol.name = name ∧ symbol.uri = uri ∧ symbol.line = n.line - 1 := by
  constructor
  · intro h
    cases h with
    | function => exact ⟨_, rfl, rfl, rfl, rfl, rfl⟩
    | assignment => exact ⟨_, rfl, rfl, rfl, rfl, rfl⟩
    | struct => exact ⟨_, rfl, rfl, rfl, rfl, rfl⟩
  · rintro ⟨symbol, hs, rfl, rfl, -, -⟩
    unfold Symbol.ofNode? at hs
    split at hs
    · cases hs
      exact .function
    · split at hs
      · next hassign =>
        cases hs
        subst hassign
        exact .assignment
      · cases hs
    · cases hs
      exact .struct
    · cases hs

/-- No notice where there is no fault, and one at the place of the fault otherwise. -/
inductive Notified : Option Diagnostic → List Notice → Prop
  | none : Notified none []
  | some {d : Diagnostic} {line col : Nat} :
    d.line = some ((line + 1 : Nat) : Int) → d.col = some (col : Int) →
    Notified (some d) [⟨d.bare, ⟨line, col, line, col + 1⟩⟩]

/-- An analysis reads the text under the name of its document, and finds the same statements and the
same fault at the same place. -/
theorem analyze_of_drain {nesting : Nat} {text file : String} {nodes : List Node}
    {e : Option Diagnostic} (hnodes : ((Parser.ofText text file).drain nesting).1 = nodes)
    (hfault : ((Parser.ofText text file).drain nesting).2.1 = e.map .diagnostic) (uri : String) :
    ∃ notices, Notified e notices ∧
      analyze nesting uri text = .ok (nodes.filterMap (Symbol.ofNode? uri), notices) := by
  obtain ⟨hsame, hnamed, hplaced⟩ := Parser.drain_ofText_named nesting text file uri
  rw [hnodes] at hsame
  rw [hfault] at hnamed hplaced
  unfold analyze
  generalize (Parser.ofText text uri).drain nesting = found at hsame hnamed
  obtain ⟨nodes', fault, q⟩ := found
  cases hsame
  cases hnamed
  cases e with
  | none => exact ⟨[], .none, rfl⟩
  | some d =>
    obtain ⟨line, col, hline, hcol⟩ := hplaced _ rfl
    refine ⟨_, .some hline hcol, ?_⟩
    simp [Fault.named, Notice.ofFault?, Notice.ofDiagnostic, hline, hcol, Diagnostic.bare]

/-! What a run comes to. -/

def State.Global (s : State) : Prop :=
  s.scopes.around = []

/-- A statement that comes to its end gives back the global scope as the only one. -/
theorem State.Global.evaluate {host : Host} {nesting : Nat} {node : Node} {s t : State}
    {outcome : Outcome} (h : s.Global) (he : Eval.evaluate host nesting node s = .ok outcome t) :
    t.Global := by
  have hk := Eval.evaluate_kept host nesting node s
  rw [Eval.final_of_ok he] at hk
  have hsize := hk.scopes.size
  unfold Scopes.size at hsize
  rw [h, Nat.add_right_cancel_iff] at hsize
  exact List.eq_nil_of_length_eq_zero hsize

namespace Run

/-- Running statements in order, in the global scope. The first one that fails or returns ends the run;
behind the last one the fault `e` is met, or else the value of the last one is the result. The faults of
statements are told as `tell` does. -/
inductive Executes (host : Host) (tell : Fault → Fault) (e : Option Fault) :
    List Node → Value → State → EStateM.Result Fault State Value → Prop
  | done {last : Value} {s : State} : e = none → Executes host tell e [] last s (.ok last s)
  | unread {fault : Fault} {last : Value} {s : State} :
    e = some fault → Executes host tell e [] last s (.error fault s)
  | failed {node : Node} {nodes : List Node} {last : Value} {fault : Fault} {s t : State} :
    s.Global → Eval.evaluate host host.limits.evaluations node s = .error fault t →
    Executes host tell e (node :: nodes) last s (.error (tell fault) t)
  | returned {node : Node} {nodes : List Node} {last value : Value} {s t : State} :
    s.Global → Eval.evaluate host host.limits.evaluations node s = .ok (.returning value) t →
    Executes host tell e (node :: nodes) last s (.ok value t)
  | passed {node : Node} {nodes : List Node} {last : Value} {outcome : Outcome} {s t : State}
      {r : EStateM.Result Fault State Value} :
    s.Global → Eval.evaluate host host.limits.evaluations node s = .ok outcome t →
    (∀ value, outcome ≠ .returning value) → Executes host tell e nodes outcome.value t r →
    Executes host tell e (node :: nodes) last s r

variable {host : Host} {tell : Fault → Fault} {e : Option Fault} {nodes : List Node} {last : Value}
  {s : State}

/-- Statements have one result. -/
theorem Executes.unique {r r' : EStateM.Result Fault State Value}
    (h : Executes host tell e nodes last s r) (h' : Executes host tell e nodes last s r') : r = r' := by
  induction h with
  | done he =>
    cases h' with
    | done => rfl
    | unread he' => cases he.symm.trans he'
  | unread he =>
    cases h' with
    | done he' => cases he.symm.trans he'
    | unread he' =>
      cases he.symm.trans he'
      rfl
  | failed _ he =>
    cases h' with
    | failed _ he' =>
      cases he.symm.trans he'
      rfl
    | returned _ he' => cases he.symm.trans he'
    | passed _ he' _ _ => cases he.symm.trans he'
  | returned _ he =>
    cases h' with
    | failed _ he' => cases he.symm.trans he'
    | returned _ he' =>
      cases he.symm.trans he'
      rfl
    | passed _ he' hgo _ =>
      cases he.symm.trans he'
      exact absurd rfl (hgo _)
  | passed _ he hgo _ ih =>
    cases h' with
    | failed _ he' => cases he.symm.trans he'
    | returned _ he' =>
      cases he.symm.trans he'
      exact absurd rfl (hgo _)
    | passed _ he' _ hrest =>
      cases he.symm.trans he'
      exact ih hrest

def told {σ α : Type} (tell : Fault → Fault) : EStateM.Result Fault σ α → EStateM.Result Fault σ α
  | .ok a s => .ok a s
  | .error fault s => .error (tell fault) s

def leaving (p : Parser) : EStateM.Result Fault State Value → EStateM.Result Fault Interpreter Value
  | .ok value s => .ok value ⟨p, s⟩
  | .error fault s => .error fault ⟨p, s⟩

def retold (host : Host) : Fault → Fault
  | .nesting => .diagnostic ⟨.deepProgram, none, none, some host.file⟩
  | fault => fault

/-- Running an interpreter is running its statements and telling a failure the way runs do. -/
theorem execute_eq_told (host : Host) (i : Interpreter) :
    execute host i = told (retold host) (statements host (i.parser.size + 1) .nothing i) := by
  unfold execute
  cases statements host (i.parser.size + 1) .nothing i with
  | ok value j => rfl
  | error fault j => cases fault <;> rfl

/-- A run evaluates the statements that parsing comes upon, in order, and meets the same fault. -/
theorem executes_statements (host : Host) (tell : Fault → Fault) (fuel : Nat) (last : Value)
    (p : Parser) (hs : s.Global)
    (htell : ∀ fault, (p.drainFrom host.limits.expressions fuel).2.1 = some fault →
      tell fault = fault) :
    ∃ r q, Executes host tell (p.drainFrom host.limits.expressions fuel).2.1
        (p.drainFrom host.limits.expressions fuel).1 last s r ∧
      told tell (statements host fuel last ⟨p, s⟩) = leaving q r := by
  induction fuel generalizing last p s with
  | zero => exact ⟨_, p, .unread rfl, congrArg (EStateM.Result.error · _) (htell _ rfl)⟩
  | succ fuel ih =>
    rw [statements_succ]
    cases hn : Parse.next host.limits.expressions p with
    | error fault q =>
      have hd : p.drainFrom host.limits.expressions (fuel + 1) = ([], some fault, q) := by
        simp only [Parser.drainFrom, hn]
      rw [hd] at htell ⊢
      exact ⟨_, q, .unread rfl, congrArg (EStateM.Result.error · _) (htell fault rfl)⟩
    | ok a q =>
      cases a with
      | none =>
        have hd : p.drainFrom host.limits.expressions (fuel + 1) = ([], none, q) := by
          simp only [Parser.drainFrom, hn]
        rw [hd]
        exact ⟨_, q, .done rfl, rfl⟩
      | some node =>
        rw [Parser.drainFrom_of_next hn] at htell ⊢
        cases he : Eval.evaluate host host.limits.evaluations node s with
        | error fault t =>
          simp only [he]
          exact ⟨_, q, .failed hs he, rfl⟩
        | ok outcome t =>
          simp only [he]
          obtain ⟨r, q', hr, hrun⟩ := ih outcome.value q (hs.evaluate he) htell
          cases outcome with
          | returning value => exact ⟨_, q, .returned hs he, rfl⟩
          | normal _ | breaking | continuing => exact ⟨r, q', .passed hs he (by simp) hr, hrun⟩

/-- The statements that draining a parser finds, executed in order, are the run of the parser. -/
theorem executes_drain (host : Host) (tell : Fault → Fault) (p : Parser) (hs : s.Global)
    (htell : ∀ fault, (p.drain host.limits.expressions).2.1 = some fault → tell fault = fault) :
    ∃ r q, Executes host tell (p.drain host.limits.expressions).2.1
        (p.drain host.limits.expressions).1 .nothing s r ∧
      told tell (statements host (p.size + 1) .nothing ⟨p, s⟩) = leaving q r :=
  executes_statements host tell (p.size + 1) .nothing p hs htell

/-- The three ways through the text come upon the same: the statements `nodes`, and behind them the
fault `e`. The faults of a run are told as `tell` does. -/
structure Agree (host : Host) (tell : Fault → Fault) (text uri : String) (s : State) (nodes : List Node)
    (e : Option Diagnostic) : Prop where
  parsed : Parser.parse host.limits.expressions text host.file =
    match e with
    | none => .ok nodes
    | some d => .error (.diagnostic d)
  analyzed : ∃ notices, Notified e notices ∧
    analyze host.limits.expressions uri text = .ok (nodes.filterMap (Symbol.ofNode? uri), notices)
  introduced : ∀ n ∈ nodes, ∀ kind name, n.Introduces kind name ↔
    ∃ symbol, Symbol.ofNode? uri n = some symbol ∧ symbol.kind = kind ∧ symbol.name = name ∧
      symbol.uri = uri ∧ symbol.line = n.line - 1
  executed : ∃ r p, Executes host tell (e.map .diagnostic) nodes .nothing s r ∧
    execute host ⟨.ofText text host.file, s⟩ = leaving p r

/-- Parsing, analyzing and running one text come upon the same statements and the same fault, whenever
the parser has only diagnostics to tell. -/
theorem drivers_agree (host : Host) (text uri : String) (s : State) (hs : s.Global)
    (hfault : ∀ fault, Parser.parse host.limits.expressions text host.file = .error fault →
      fault.IsDiagnostic) :
    ∃ nodes e, Agree host (retold host) text uri s nodes e := by
  have hparse := Parser.parse_eq_drain host.limits.expressions text host.file
  obtain ⟨e, he⟩ : ∃ e : Option Diagnostic,
      ((Parser.ofText text host.file).drain host.limits.expressions).2.1 = e.map .diagnostic := by
    cases hd : ((Parser.ofText text host.file).drain host.limits.expressions).2.1 with
    | none => exact ⟨none, rfl⟩
    | some fault =>
      rw [hd] at hparse
      obtain ⟨d, rfl⟩ := hfault fault hparse
      exact ⟨some d, rfl⟩
  have htell : ∀ fault,
      ((Parser.ofText text host.file).drain host.limits.expressions).2.1 = some fault →
        retold host fault = fault := by
    intro fault hd
    obtain ⟨d, -, rfl⟩ := Option.map_eq_some_iff.mp (he.symm.trans hd)
    rfl
  obtain ⟨r, p, hr, hrun⟩ := executes_drain host (retold host) _ hs htell
  refine ⟨_, e, ?_, analyze_of_drain rfl he uri, fun n _ => Symbol.introduces_iff uri n, r, p, ?_, ?_⟩
  · rw [hparse, he]
    cases e <;> rfl
  · rw [← he]
    exact hr
  · exact (execute_eq_told host _).trans hrun

/-- Behind a `return` there is a fault, which a parser finds and a run does not come to. -/
theorem drivers_agree_of_return_before_fault :
    let host : Host := { file := "<script>" }
    ∃ nodes, Agree host (retold host) "let x = 7; return x; x + )" "file:///x.ct" {} nodes
      (some ⟨.unexpected ")", some 1, some 25, some "<script>"⟩) := by
  intro host
  have hfault : ((Parser.ofText "let x = 7; return x; x + )" "<script>").drain 500).2.1 =
      some (.diagnostic ⟨.unexpected ")", some 1, some 25, some "<script>"⟩) := by decide +kernel
  have hparse := Parser.parse_eq_drain 500 "let x = 7; return x; x + )" "<script>"
  rw [hfault] at hparse
  have hdiagnostic : ∀ fault, Parser.parse 500 "let x = 7; return x; x + )" "<script>" = .error fault →
      fault.IsDiagnostic := by
    intro fault hf
    cases hparse.symm.trans hf
    exact ⟨_, rfl⟩
  obtain ⟨nodes, e, h⟩ := drivers_agree host "let x = 7; return x; x + )" "file:///x.ct" {} rfl hdiagnostic
  have hparsed := hparse.symm.trans h.parsed
  cases e with
  | none => cases hparsed
  | some d =>
    cases hparsed
    exact ⟨nodes, h⟩

/-- A program that nests too deeply does not end with the fault of a statement: that fault is told in
another way. -/
theorem not_agree_of_nesting {text uri : String} (hs : s.Global)
    (hnone : ((Parser.ofText text host.file).drain host.limits.expressions).2.1 = none)
    (hdeep : faultOf? (statements host ((Parser.ofText text host.file).size + 1) .nothing
      ⟨.ofText text host.file, s⟩) = some .nesting) :
    ¬∃ nodes e, Agree host id text uri s nodes e := by
  rintro ⟨nodes, e, hparsed, -, -, r, p, hr, hrun⟩
  have hparse := Parser.parse_eq_drain host.limits.expressions text host.file
  rw [hnone] at hparse
  replace hparsed := hparse.symm.trans hparsed
  cases e with
  | some d => cases hparsed
  | none =>
    cases hparsed
    obtain ⟨r', q, hr', hstatements⟩ :=
      executes_drain host id (.ofText text host.file) hs (fun _ _ => rfl)
    rw [hnone] at hr'
    have hsame : r = r' := hr.unique hr'
    subst hsame
    obtain ⟨i, hi⟩ := eq_error_of_faultOf? hdeep
    rw [hi] at hstatements
    rw [execute_eq_told, hi] at hrun
    cases r with
    | ok value t => cases hrun
    | error fault t =>
      cases hstatements
      cases hrun

/-- A program of calls that stay within their limit and nest too deeply nevertheless. The parser finds no
fault in it, and its run does not end with the fault of its last statement. -/
theorem not_agree_of_deep_recursion :
    let host : Host := { file := "<script>" }
    let text := "let f() { return f()+1+1+1+1+1+1+1+1+1+1+1+1+1+1+1+1+1+1+1+1+1+1+1+1+1+1+1+1+1+1; } f();"
    (∃ nodes, Parser.parse host.limits.expressions text host.file = .ok nodes) ∧
      ¬∃ nodes e, Agree host id text "file:///x.ct" {} nodes e := by
  intro host text
  have hnone : ((Parser.ofText text host.file).drain host.limits.expressions).2.1 = none := by
    decide +kernel
  have hdeep : faultOf? (statements host ((Parser.ofText text host.file).size + 1) .nothing
      ⟨.ofText text host.file, {}⟩) = some .nesting := by
    decide +kernel
  have hparse := Parser.parse_eq_drain host.limits.expressions text host.file
  rw [hnone] at hparse
  exact ⟨⟨_, hparse⟩, not_agree_of_nesting rfl hnone hdeep⟩

end Run
end ScriptLang
