import ScriptLang.Proofs.Evaluator.MemberCalls
import ScriptLang.Proofs.Evaluator.Signals
import ScriptLang.Proofs.Evaluator.Unquoted

/-! What calls return. The statements of a function run in a scope of its own up to the first one that
returns; breaks and continues end nothing there. What comes back is evaluated once more, when the scopes of
inner blocks are gone: most values stay what they are, and a function is defined anew or refused. -/
namespace ScriptLang.Eval
variable {host : Host} {sub : Node → Eval Outcome} {nodes args : List Node} {s t u : State}

inductive Ending
  | through
  | returned (value : Value)
  | failed (fault : Fault)

/-- The statements that run one after another in `s`, each where the one before left the state, end so in
`u`. -/
inductive RunsTo (sub : Node → Eval Outcome) : List Node → State → Ending → State → Prop
  | through (s : State) : RunsTo sub [] s .through s
  | returned {node nodes s value t} : sub node s = .ok (.returning value) t →
    RunsTo sub (node :: nodes) s (.returned value) t
  | failed {node nodes s fault t} : sub node s = .error fault t →
    RunsTo sub (node :: nodes) s (.failed fault) t
  | passed {node nodes s outcome t ending u} : sub node s = .ok outcome t →
    outcome.signal? ≠ some .returning → RunsTo sub nodes t ending u →
    RunsTo sub (node :: nodes) s ending u

/-- The statements of a body always run to some end. -/
theorem exists_runsTo (sub : Node → Eval Outcome) (nodes : List Node) (s : State) :
    ∃ ending u, RunsTo sub nodes s ending u := by
  induction nodes generalizing s with
  | nil => exact ⟨_, _, .through s⟩
  | cons node nodes ih =>
    cases h : sub node s with
    | error fault t => exact ⟨_, _, .failed h⟩
    | ok outcome t =>
      by_cases hsignal : outcome.signal? = some .returning
      · cases outcome with
        | returning value => exact ⟨_, _, .returned h⟩
        | normal | breaking | continuing => cases hsignal
      · obtain ⟨ending, u, hrest⟩ := ih t
        exact ⟨ending, u, .passed h hsignal hrest⟩

def Ending.result (host : Host) (sub : Node → Eval Outcome) (u : State) :
    Ending → EStateM.Result Fault State Value
  | .through => .ok .nothing u
  | .returned value => again host sub value u
  | .failed fault => .error fault u

/-- The body of a function gives what the end of its statements calls for. -/
theorem functionBody_of_runsTo {ending : Ending} (h : RunsTo sub nodes s ending u) :
    functionBody host sub nodes s = ending.result host sub u := by
  induction h with
  | through s => rfl
  | returned h => exact bind_of_ok h
  | failed h => exact bind_of_error h
  | @passed node nodes s outcome t ending u h hsignal _ ih =>
    rw [← ih]
    refine (bind_of_ok h).trans ?_
    cases outcome with
    | returning value => exact absurd rfl hsignal
    | normal | breaking | continuing => rfl

/-- The statements of a function give back the scopes and the depth that they run in. -/
theorem kept_of_runsTo {nesting : Nat} {ending : Ending}
    (h : RunsTo (evaluate host nesting) nodes s ending u) : s.Kept u := by
  have hnode {node : Node} {s t : State} (hfinal : final (evaluate host nesting node) s = t) :
      s.Kept t := by
    rw [← hfinal]
    exact evaluate_kept host nesting node s
  induction h with
  | through s => exact State.Kept.refl s
  | returned h => exact hnode (final_of_ok h)
  | failed h => exact hnode (final_of_error h)
  | passed h _ _ ih => exact (hnode (final_of_ok h)).trans ih

/-- Within a regime the statements of a function return a value of the regime. -/
theorem value_of_runsTo {R : Regime host} {nesting : Nat} {value : Value}
    (h : RunsTo (evaluate host nesting) nodes s (.returned value) u) (hn : ∀ n ∈ nodes, R.node n)
    (hs : R.Holds s) : R.value value := by
  have hends {node : Node} {outcome : Outcome} {s t : State} (hnode : R.node node) (hs : R.Holds s)
      (he : evaluate host nesting node s = .ok outcome t) : R.Holds t ∧ R.value outcome.value := by
    have hconfined := (R.confined_evaluate nesting node s hnode hs).ends
    rwa [he] at hconfined
  generalize hending : Ending.returned value = ending at h
  induction h with
  | through s => cases hending
  | returned h =>
    cases hending
    exact (hends (hn _ List.mem_cons_self) hs h).2
  | failed h => cases hending
  | passed h _ _ ih =>
    obtain ⟨hnode, hnodes⟩ := List.forall_mem_cons.mp hn
    exact ih hnodes (hends hnode hs h).1 hending

/-- Statements that return something were evaluated. -/
theorem exists_succ_of_runsTo {nesting : Nat} {value : Value}
    (h : RunsTo (evaluate host nesting) nodes s (.returned value) u) : ∃ n, nesting = n + 1 := by
  cases nesting with
  | succ n => exact ⟨n, rfl⟩
  | zero =>
    cases h with
    | returned h => cases h
    | passed h => cases h

def entered (f : Function) (values : List Value) (t : State) : State :=
  { t with scopes := t.scopes.push (Table.ofList (f.params.zip values)), depth := t.depth + 1 }

def left (u : State) : State :=
  { u with scopes := u.scopes.dropInnermost, depth := u.depth - 1 }

def leave : EStateM.Result Fault State Value → EStateM.Result Fault State Value
  | .ok value u => .ok value (left u)
  | .error fault u => .error fault (left u)

/-- A call that is not refused comes to what its body comes to, with the scope of the function taken off. -/
theorem callFunction_of_runsTo {name : String} {f : Function} {receiver : Option Value} {line : Nat}
    {values : List Value} {ending : Ending}
    (hcount : receiver.toList.length + args.length = f.params.length)
    (hdepth : (s.depth : Int) < host.depthLimit)
    (hargs : handOver host sub receiver args s = .ok values t)
    (h : RunsTo sub f.body (entered f values t) ending u) :
    callFunction host sub name (.function f) receiver args line s =
      leave (ending.result host sub u) := by
  have hlimit : ¬host.depthLimit ≤ s.depth := by omega
  rw [callFunction_eq, if_neg (not_not.mpr hcount), if_neg hlimit]
  refine (bind_of_ok hargs).trans ?_
  have hbody : functionBody host sub f.body (entered f values t) = ending.result host sub u :=
    functionBody_of_runsTo h
  unfold entered at hbody
  simp only [oneDeeper, inScope, hbody]
  cases ending.result host sub u with
  | ok v w => rfl
  | error fault w => rfl

/-- A body runs on top of the scopes of its caller, and these are left as it has left them. -/
theorem kept_of_entered {nesting : Nat} {receiver : Option Value} {f : Function} {values : List Value}
    {ending : Ending} (hargs : handOver host (evaluate host nesting) receiver args s = .ok values t)
    (h : RunsTo (evaluate host nesting) f.body (entered f values t) ending u) :
    1 < u.scopes.size ∧ s.Kept (left u) := by
  obtain ⟨hscopes, hdepth⟩ := kept_of_runsTo h
  have hsize : u.scopes.size = t.scopes.size + 1 := hscopes.size
  have hpos : 0 < t.scopes.size := Nat.succ_pos _
  have hleft : t.Kept (left u) := by
    refine ⟨hscopes.dropInnermost, ?_⟩
    show u.depth - 1 = t.depth
    rw [hdepth]
    exact Nat.add_sub_cancel t.depth 1
  exact ⟨by omega, (kept_of_handOver hargs).trans hleft⟩

/-- Where nothing quoted is handed over, nothing quoted is returned. -/
theorem unquoted_of_returned {nesting : Nat} {receiver : Option Value} {f : Function}
    {values : List Value} {value : Value} (hhost : host.Unquoted)
    (hs : s.scopes.Binds Value.Unquoted) (hr : ∀ v ∈ receiver, v.Unquoted)
    (hargs : handOver host (evaluate host nesting) receiver args s = .ok values t)
    (h : RunsTo (evaluate host nesting) f.body (entered f values t) (.returned value) u) :
    value.Unquoted := by
  let R := (Regime.all host).unquoted hhost
  have hall : ∀ n : Node, R.node n := fun _ => trivial
  have hcaller : R.Holds s := Regime.holds_all_unquoted hhost hs
  have hreceiver : ∀ v ∈ receiver, R.value v := fun v hv => ⟨fun _ _ => trivial, hr v hv⟩
  have hhanded := (R.confined_handOver (R.confined_evaluate nesting) hcaller hreceiver
    fun n (_ : n ∈ args) => hall n).ends
  rw [hargs] at hhanded
  obtain ⟨ht, hvalues⟩ := hhanded
  have hentered : R.Holds (entered f values t) :=
    Scopes.Binds.push ht (Regime.binds_parameters f.params hvalues)
  exact (value_of_runsTo h (fun n _ => hall n) hentered).2

/-- A function is returned unless its name is bound where the return reached the body: the definition that
follows goes with the scope of the body. -/
theorem result_of_returned_function {nesting : Nat} (g : Function) (hsize : 1 < u.scopes.size) :
    leave ((Ending.returned (.function g)).result host (evaluate host (nesting + 1)) u) =
      if u.scopes.contains g.name then
        .error (.atSite (.functionExists g.name) (host.site g.line)) (left u)
      else .ok (.function g) (left u) := by
  have hagain := again_function host nesting g u
  show leave (again host (evaluate host (nesting + 1)) (.function g) u) = _
  rw [hagain]
  split
  · rfl
  · simp only [leave, left, Scopes.dropInnermost_define hsize]

/-- What a call returns that is not refused, in scopes without quoted syntax. Its statements come to an end,
in a scope of the function on top of those of the caller; where they end without a fault and without a
return, there is no value. A value that is no function is the result as it is. A function is refused
exactly where its name is bound in the scope of the called function or in one of the caller, and is the
result otherwise. The scopes of the caller stay as they were when the statements ended. -/
theorem call_returns {nesting : Nat} {f : Function} {receiver : Option Value} {values : List Value}
    (hhost : host.Unquoted) (hs : s.scopes.Binds Value.Unquoted) (hr : ∀ v ∈ receiver, v.Unquoted)
    (hcount : receiver.toList.length + args.length = f.params.length)
    (hdepth : (s.depth : Int) < host.depthLimit)
    (hargs : handOver host (evaluate host nesting) receiver args s = .ok values t)
    (name : String) (line : Nat) :
    let result := callFunction host (evaluate host nesting) name (.function f) receiver args line s
    (∃ ending u, RunsTo (evaluate host nesting) f.body (entered f values t) ending u) ∧
    ∀ ending u, RunsTo (evaluate host nesting) f.body (entered f values t) ending u →
      u.scopes.inward = u.scopes.innermost :: (left u).scopes.inward ∧ s.Kept (left u) ∧
      match ending with
      | .through => result = .ok .nothing (left u)
      | .failed fault => result = .error fault (left u)
      | .returned value =>
        ((∀ g, value ≠ .function g) → result = .ok value (left u)) ∧
        ∀ g, value = .function g →
          let bound := u.scopes.innermost.contains g.name = true ∨
            ∃ scope ∈ (left u).scopes.inward, scope.contains g.name = true
          (result = .error (.atSite (.functionExists g.name) (host.site g.line)) (left u) ↔ bound) ∧
            (¬bound → result = .ok value (left u)) := by
  intro result
  refine ⟨exists_runsTo _ _ _, fun ending u h => ?_⟩
  obtain ⟨hsize, hkept⟩ := kept_of_entered hargs h
  have hinward : u.scopes.inward = u.scopes.innermost :: (left u).scopes.inward :=
    Scopes.inward_of_size hsize
  have hresult : result = _ := callFunction_of_runsTo hcount hdepth hargs h
  refine ⟨hinward, hkept, ?_⟩
  cases ending with
  | through => exact hresult
  | failed fault => exact hresult
  | returned value =>
    have hunquoted := unquoted_of_returned hhost hs hr hargs h
    refine ⟨fun hplain => ?_, ?_⟩
    · rw [hresult]
      simp only [Ending.result, again_plain hplain hunquoted u, leave]
    · rintro g rfl bound
      obtain ⟨n, rfl⟩ := exists_succ_of_runsTo h
      -- The scope of the function is still on top when its name is looked for.
      have hbound : u.scopes.contains g.name = true ↔ bound := by
        rw [Scopes.contains_iff, hinward, List.exists_mem_cons_iff]
      rw [hresult, result_of_returned_function g hsize]
      by_cases hb : bound
      · rw [if_pos (hbound.mpr hb)]
        exact ⟨iff_of_true rfl hb, fun hfree => absurd hb hfree⟩
      · rw [if_neg (mt hbound.mp hb)]
        refine ⟨iff_of_false (fun he => ?_) hb, fun _ => rfl⟩
        cases he

def returningFrom (block : List Node → List Node) : Function :=
  ⟨1, ⟨1, "f", [], "any"⟩, .breaking 1 :: block
    [.function 2 ⟨2, "g", [], "any"⟩ [], .returning 3 (some (.reference 3 "g"))]⟩

/-- What was defined in a branch is gone when it is returned, and is the result; what was defined in the scope
of the function is still bound there, and is refused. -/
theorem call_returns_of_branch_and_body :
    let host : Host := { file := "<script>" }
    let g : Function := ⟨2, ⟨2, "g", [], "any"⟩, []⟩
    let branch := returningFrom fun nodes => [.conditional 1 [.mk 1 (.literal 1 (.boolean true)) nodes]]
    let body := returningFrom id
    callFunction host (evaluate host 4) "f" (.function branch) none [] 1 {} = .ok (.function g) {} ∧
      callFunction host (evaluate host 4) "f" (.function body) none [] 1 {} =
        .error (.atSite (.functionExists "g") (host.site 2)) {} := by
  intro host g branch body
  have hhost : host.Unquoted := Host.unquoted_of_standard rfl rfl
  have hs : Scopes.Binds Value.Unquoted (State.scopes {}) :=
    Scopes.binds_of_tables Table.binds_empty (List.forall_mem_nil _)
  have hr : ∀ v ∈ (none : Option Value), v.Unquoted := fun v hv => by cases hv
  have hdepth : ((State.depth {} : Nat) : Int) < host.depthLimit := by decide
  have hargs : handOver host (evaluate host 4) none [] {} = .ok [] {} := rfl
  constructor
  · have hruns : RunsTo (evaluate host 4) branch.body (entered branch [] {}) (.returned (.function g)) _ :=
      .passed rfl (by decide) (.returned rfl)
    have hends := (call_returns hhost hs hr rfl hdepth hargs "f" 1).2 _ _ hruns
    refine (hends.2.2.2 g rfl).2 ?_
    decide
  · have hruns : RunsTo (evaluate host 4) body.body (entered body [] {}) (.returned (.function g)) _ :=
      .passed rfl (by decide) (.passed rfl (by decide) (.returned rfl))
    have hends := (call_returns hhost hs hr rfl hdepth hargs "f" 1).2 _ _ hruns
    refine (hends.2.2.2 g rfl).1.mpr ?_
    decide

end ScriptLang.Eval
