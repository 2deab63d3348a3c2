import ScriptLang.Proofs.Evaluator.Regime

/-! Calls of members. The receiver is handed over before the other arguments are evaluated, from left to
right and in the scopes of the caller, and the body of the member runs in a scope of its own. Handing over
does nothing for most receivers; a function is evaluated once more, which defines it in the scopes of the
caller or fails. -/
namespace ScriptLang.Eval
variable {host : Host} {sub : Node → Eval Outcome} {nodes args : List Node} {s t : State} {v : Value}
  {f : Function}

/-- Evaluating the nodes from left to right, each where the one before it left the state, ends so: with
all values, or with the first fault. -/
inductive InTurn (host : Host) (sub : Node → Eval Outcome) :
    List Node → State → EStateM.Result Fault State (List Value) → Prop
  | nil (s : State) : InTurn host sub [] s (.ok [] s)
  | cons {node nodes s t u v vs} : expression host sub node s = .ok v t →
    InTurn host sub nodes t (.ok vs u) → InTurn host sub (node :: nodes) s (.ok (v :: vs) u)
  | failed {node nodes s t e} : expression host sub node s = .error e t →
    InTurn host sub (node :: nodes) s (.error e t)
  | failedLater {node nodes s t u v e} : expression host sub node s = .ok v t →
    InTurn host sub nodes t (.error e u) → InTurn host sub (node :: nodes) s (.error e u)

/-- From the state `s` the arguments are evaluated in turn, and where all have a value the body of `f`
runs one call deeper, in a new scope that binds the parameters to the receiver and these values. -/
inductive Called (host : Host) (sub : Node → Eval Outcome) (f : Function) (receiver : Value)
    (args : List Node) (s : State) : EStateM.Result Fault State Outcome → Prop
  | refused {e t} : InTurn host sub args s (.error e t) → Called host sub f receiver args s (.error e t)
  | ran {values t} : InTurn host sub args s (.ok values t) → s.Kept t →
    Called host sub f receiver args s ((Outcome.normal <$> oneDeeper (inScope
      (Table.ofList (f.params.zip (receiver :: values))) (functionBody host sub f.body))) t)

/-- Arguments are evaluated in turn, and the first failure ends them. -/
theorem inTurn_expressions (host : Host) (sub : Node → Eval Outcome) (nodes : List Node) (s : State) :
    InTurn host sub nodes s (expressions host sub nodes s) := by
  induction nodes generalizing s with
  | nil => exact .nil s
  | cons node nodes ih =>
    cases hv : expression host sub node s with
    | error e t =>
      have he : expressions host sub (node :: nodes) s = .error e t := bind_of_error hv
      rw [he]
      exact .failed hv
    | ok v t =>
      have hrest := ih t
      cases hvs : expressions host sub nodes t with
      | error e u =>
        have he : expressions host sub (node :: nodes) s = .error e u :=
          (bind_of_ok hv).trans (bind_of_error hvs)
        rw [he]
        rw [hvs] at hrest
        exact .failedLater hv hrest
      | ok vs u =>
        have he : expressions host sub (node :: nodes) s = .ok (v :: vs) u :=
          (bind_of_ok hv).trans (bind_of_ok hvs)
        rw [he]
        rw [hvs] at hrest
        exact .cons hv hrest

/-- What is handed over to a call is evaluated in the scopes of the caller, and these are given back. -/
theorem kept_of_handOver {nesting : Nat} {receiver : Option Value} {values : List Value}
    (h : handOver host (evaluate host nesting) receiver args s = .ok values t) : s.Kept t := by
  have hrules : SteadyRules host s (evaluate host nesting) (evaluate host nesting) :=
    fun node u _ => ⟨rfl, evaluate_kept host nesting node u⟩
  have hwithin := State.Within.refl host s
  have hsteady : Steady s (handOver host (evaluate host nesting) receiver args)
      (handOver host (evaluate host nesting) receiver args) := by
    apply (steady_receiver hrules hwithin receiver).bind
    intro first u hu
    apply (steady_expressions hrules (hwithin.kept hu) args).bind
    intro others w _
    exact Steady.pure w _
  rw [← final_of_ok h]
  exact hsteady.kept

theorem kept_of_expressions {nesting : Nat} {values : List Value}
    (h : expressions host (evaluate host nesting) args s = .ok values t) : s.Kept t := by
  rw [← handOver_none] at h
  exact kept_of_handOver h

/-- A call that is not refused hands over its receiver first, then its arguments. -/
theorem callFunction_receiver (attr : String) (line : Nat)
    (hk : f.params.length = args.length + 1) (hd : (s.depth : Int) < host.depthLimit) :
    callFunction host sub attr (.function f) (some v) args line s =
      (do
        let first ← again host sub v
        let others ← expressions host sub args
        oneDeeper (inScope (Table.ofList (f.params.zip (first :: others)))
          (functionBody host sub f.body))) s := by
  have hcount : ¬(some v).toList.length + args.length ≠ f.params.length := by
    simp [hk, Nat.add_comm]
  have hdepth : ¬host.depthLimit ≤ s.depth := by omega
  rw [callFunction_eq, if_neg hcount, if_neg hdepth]
  simp only [handOver, Option.toList, List.mapM_cons, List.mapM_nil, bind_assoc, pure_bind,
    List.singleton_append]

/-- What a member call comes to once its receiver was handed over in the state `t`. -/
theorem called_of_again {nesting : Nat} (attr : String) (line : Nat)
    (hk : f.params.length = args.length + 1) (hd : (s.depth : Int) < host.depthLimit)
    (ha : again host (evaluate host nesting) v s = .ok v t) :
    Called host (evaluate host nesting) f v args t ((Outcome.normal <$> callFunction host
      (evaluate host nesting) attr (.function f) (some v) args line) s) := by
  have hcall := (callFunction_receiver attr line hk hd).trans (bind_of_ok ha)
  have hturn := inTurn_expressions host (evaluate host nesting) args t
  cases hargs : expressions host (evaluate host nesting) args t with
  | ok values u =>
    rw [hargs] at hturn
    rw [map_congr (hcall.trans (bind_of_ok hargs))]
    exact .ran hturn (kept_of_expressions hargs)
  | error e u =>
    rw [hargs] at hturn
    rw [map_of_error (hcall.trans (bind_of_error hargs))]
    exact .refused hturn

/-- The member of a receiver is found and called, whatever the rule is for the nodes inside. -/
theorem step_memberCall {line : Nat} {name attr : String} {prototype : Prototype}
    (hv : s.scopes.find? name = some v) (hp : host.structs.find? v.typeName = some prototype)
    (hm : prototype.member attr = .function f) :
    step host sub (.memberCall line name attr args) s = (Outcome.normal <$>
      callFunction host sub attr (.function f) (some v) args line) s := by
  have hlookup : lookup host "variable" name line s = .ok v s := lookup_of_bound hv
  have hmember (node : Node) : memberOf host node v attr s = .ok (.function f) s := by
    rw [memberOf, hp, ← hm]
    rfl
  show (do return .normal (← member host sub (.memberCall line name attr args) name attr (some args)) :
    Eval Outcome) s = _
  rw [bind_pure_comp]
  exact map_congr ((bind_of_ok hlookup).trans (bind_of_ok (hmember _)))

/-- A member call whose receiver and member are found is a call of the member with the receiver
handed over. -/
theorem evaluate_memberCall {nesting line : Nat} {name attr : String} {prototype : Prototype}
    (hv : s.scopes.find? name = some v) (hp : host.structs.find? v.typeName = some prototype)
    (hm : prototype.member attr = .function f) :
    evaluate host (nesting + 1) (.memberCall line name attr args) s = (Outcome.normal <$>
      callFunction host (evaluate host nesting) attr (.function f) (some v) args line) s :=
  step_memberCall hv hp hm

/-- A value that is no syntax is handed over as it is. -/
theorem again_plain (hf : ∀ g, v ≠ .function g) (hq : ∀ q, v ≠ .quoted q) (s : State) :
    again host sub v s = .ok v s := by
  cases v with
  | function g => exact absurd rfl (hf g)
  | quoted q => exact absurd rfl (hq q)
  | _ => rfl

/-- A function is defined once more where it is handed over, and refused where its name is bound. -/
theorem again_function (host : Host) (nesting : Nat) (g : Function) (s : State) :
    again host (evaluate host (nesting + 1)) (.function g) s =
      if s.scopes.contains g.name then .error (.atSite (.functionExists g.name) (host.site g.line)) s
      else .ok (.function g) { s with scopes := s.scopes.define g.name (.function g) } := by
  have hget : (do
      if (← get).scopes.contains g.name then refuse host (.functionExists g.name) g.line
      return .normal (← define g.name (.function g)) : Eval Outcome) s =
      if s.scopes.contains g.name then .error (.atSite (.functionExists g.name) (host.site g.line)) s
      else .ok (.normal (.function g)) { s with scopes := s.scopes.define g.name (.function g) } := by
    rw [get_bind]
    split
    · rfl
    · rfl
  have hstep : evaluate host (nesting + 1) g.toNode s = _ := hget
  split at hstep
  · next hbound =>
    rw [if_pos hbound]
    exact bind_of_error hstep
  · next hfree =>
    rw [if_neg hfree]
    exact bind_of_ok hstep

/-- A member call hands over a receiver that is no function as it is: its arguments are evaluated in the
state of the call itself. A function is refused where its name is bound, and is bound to its name
otherwise, before the first argument is evaluated. -/
theorem memberCall_hands_over {nesting line : Nat} {name attr : String} {prototype : Prototype}
    (hv : s.scopes.find? name = some v) (hq : ∀ q, v ≠ .quoted q)
    (hp : host.structs.find? v.typeName = some prototype) (hm : prototype.member attr = .function f)
    (hk : f.params.length = args.length + 1) (hd : (s.depth : Int) < host.depthLimit) :
    let result := evaluate host (nesting + 2) (.memberCall line name attr args) s
    let sub := evaluate host (nesting + 1)
    ((∀ g, v ≠ .function g) → Called host sub f v args s result) ∧
    ∀ g, v = .function g →
      (s.scopes.contains g.name = true →
        result = .error (.atSite (.functionExists g.name) (host.site g.line)) s) ∧
      (s.scopes.contains g.name = false →
        Called host sub f v args { s with scopes := s.scopes.define g.name v } result) := by
  intro result sub
  have hresult : result = _ := evaluate_memberCall hv hp hm
  refine ⟨fun hplain => ?_, ?_⟩
  · rw [hresult]
    exact called_of_again attr line hk hd (again_plain hplain hq s)
  · rintro g rfl
    have hagain := again_function host nesting g s
    refine ⟨fun hbound => ?_, fun hfree => ?_⟩
    · rw [if_pos hbound] at hagain
      rw [hresult]
      exact map_of_error ((callFunction_receiver attr line hk hd).trans (bind_of_error hagain))
    · rw [if_neg (by simp [hfree])] at hagain
      rw [hresult]
      exact called_of_again attr line hk hd hagain

def secondOf : Function :=
  ⟨1, ⟨1, "m", ["x", "y"], "any"⟩, [.returning 1 (some (.reference 1 "y"))]⟩

def hostWithMember : Host :=
  { file := "<script>"
    structs := .ofList [("int", { members := .ofList [("m", .function secondOf)] }),
      ("fun", { members := .ofList [("m", .function secondOf)] })] }

def stateWithFunction : State :=
  { scopes := ⟨.ofList [("f", .function (.empty "f" "any")), ("n", .integer 5)], []⟩ }

/-- The integer is handed over and its member runs; the function that is bound to its name is refused. -/
theorem memberCall_hands_over_of_integer_and_function :
    Called hostWithMember (evaluate hostWithMember 3) secondOf (.integer 5) [.reference 1 "n"]
      stateWithFunction
      (evaluate hostWithMember 4 (.memberCall 1 "n" "m" [.reference 1 "n"]) stateWithFunction) ∧
    evaluate hostWithMember 4 (.memberCall 1 "f" "m" [.reference 1 "n"]) stateWithFunction =
      .error (.atSite (.functionExists "f") (hostWithMember.site 0)) stateWithFunction := by
  constructor
  · exact (memberCall_hands_over (by rfl) (by simp) (by rfl) (by rfl) (by rfl) (by decide)).1 (by simp)
  · have hbound : stateWithFunction.scopes.contains "f" = true →
        evaluate hostWithMember 4 (.memberCall 1 "f" "m" [.reference 1 "n"]) stateWithFunction =
          .error (.atSite (.functionExists "f") (hostWithMember.site 0)) stateWithFunction :=
      ((memberCall_hands_over (by rfl) (by simp) (by rfl) (by rfl) (by rfl) (by decide)).2
        (.empty "f" "any") rfl).1
    exact hbound (by rfl)

/-- Handing over a receiver may fail. -/
theorem not_called_of_function_receiver :
    ¬∀ (host : Host) (nesting line : Nat) (name attr : String) (args : List Node) (s : State) (v : Value)
      (f : Function) (prototype : Prototype), s.scopes.find? name = some v → (∀ q, v ≠ .quoted q) →
      host.structs.find? v.typeName = some prototype → prototype.member attr = .function f →
      f.params.length = args.length + 1 → (s.depth : Int) < host.depthLimit →
      Called host (evaluate host (nesting + 1)) f v args s
        (evaluate host (nesting + 2) (.memberCall line name attr args) s) := by
  intro hcalls
  have hcalled := hcalls hostWithMember 2 1 "f" "m" [.reference 1 "n"] stateWithFunction
    (.function (.empty "f" "any")) secondOf _ (by rfl) (by simp) (by rfl) (by rfl) (by rfl) (by decide)
  have hrefused : evaluate hostWithMember 4 (.memberCall 1 "f" "m" [.reference 1 "n"])
      stateWithFunction =
        .error (.atSite (.functionExists "f") (hostWithMember.site 0)) stateWithFunction := by rfl
  have hvalue : expression hostWithMember (evaluate hostWithMember 3) (.reference 1 "n")
      stateWithFunction = .ok (.integer 5) stateWithFunction := by rfl
  generalize hresult : evaluate hostWithMember 4 (.memberCall 1 "f" "m" [.reference 1 "n"])
    stateWithFunction = r at hcalled
  rw [hrefused] at hresult
  cases hcalled with
  | refused hturn =>
    cases hturn with
    | failed he => cases hvalue.symm.trans he
    | failedLater _ hlater => cases hlater
  | ran hturn _ =>
    cases hturn with
    | cons hv hrest =>
      cases hvalue.symm.trans hv
      cases hrest
      cases hresult

end ScriptLang.Eval
