import ScriptLang.Proofs.Evaluator.Changes
import ScriptLang.Proofs.Evaluator.Signals
import ScriptLang.Proofs.Parser.Boundary
import ScriptLang.Proofs.Runs

/-! Programs that are run in pieces. An interpreter that has run one text and is then given another goes
on as it does where the second text stands behind the first: nothing but the state is carried over, and
nothing hangs on the lines that the second text is read on. -/
namespace ScriptLang

def Change.erasing : Change where
  lines _ := 0

def Value.Alike (v w : Value) : Prop :=
  Change.erasing.value v = Change.erasing.value w

theorem Value.eq_integer_of_alike {v : Value} {n : Int} (h : v.Alike (.integer n)) : v = .integer n := by
  cases v <;> cases h
  rfl

structure State.Alike (s t : State) : Prop where
  scopes : s.scopes.map Change.erasing.value = t.scopes.map Change.erasing.value
  depth : s.depth = t.depth
  world : s.world = t.world

/-- A native that answers alike to arguments that are the same, lines aside. -/
def Native.PastLines (native : Native) : Prop :=
  ∀ args args' w, args.map Change.erasing.value = args'.map Change.erasing.value →
    Change.erasing.result id Change.erasing.value (native args w) =
      Change.erasing.result id Change.erasing.value (native args' w)

def Host.PastLines (host : Host) : Prop :=
  ∀ name native, host.natives.find? name = some native → native.PastLines

/-- The default natives do not look at the lines of functions. -/
theorem Native.pastLines_standard {name : String} {native : Native}
    (hf : standard.find? name = some native) : native.PastLines := by
  intro args args' w h
  have hargs : native (args.map Change.erasing.value) = native args := standard_mapLines _ args hf
  have hargs' : native (args'.map Change.erasing.value) = native args' := standard_mapLines _ args' hf
  rw [← hargs, ← hargs', h]

namespace Change

theorem world_erasing (w : World) : erasing.world w = w := by
  simp [world, erasing]

theorem value_erasing_erasing (v : Value) : erasing.value (erasing.value v) = erasing.value v :=
  v.mapLines_mapLines _ _

/-- States are alike just when they are the same without lines. -/
theorem alike_iff_state_erasing_eq {s t : State} : s.Alike t ↔ erasing.state s = erasing.state t := by
  constructor
  · intro h
    simp only [state, h.scopes, h.depth, h.world]
  · intro h
    simp only [state, State.mk.injEq, world_erasing] at h
    exact ⟨h.1, h.2.1, h.2.2⟩

/-- The host for programs whose lines are erased: its structs have functions without lines, and its natives
give such functions. -/
def erased (host : Host) : Host :=
  { host with
    natives := host.natives.map fun native args w => erasing.result id erasing.value (native args w)
    structs := host.structs.map fun prototype =>
      { prototype with members := prototype.members.map erasing.value } }

/-- A host whose natives look past lines works alike on values without them. -/
theorem followsHost_erased {host : Host} (hn : host.PastLines) :
    erasing.FollowsHost host (erased host) where
  file := rfl
  depthLimit := rfl
  limits := rfl
  natives name := by
    have hfind : (erased host).natives.find? name = (host.natives.find? name).map
        fun native args w => erasing.result id erasing.value (native args w) := Table.find?_map _ _ _
    rw [hfind]
    cases hf : host.natives.find? name with
    | none => exact .none
    | some native =>
      refine .some fun args w => ?_
      have hargs : (args.map erasing.value).map erasing.value = args.map erasing.value := by
        simp [value_erasing_erasing]
      have hworld : erasing.world = id := funext world_erasing
      rw [hworld]
      exact hn name native hf _ _ w hargs
  structs name := by
    simp only [erased, Table.find?_map]
    cases host.structs.find? name <;> rfl

inductive EvaluatedAlike : EStateM.Result Fault State Outcome → EStateM.Result Fault State Outcome → Prop
  | value {v w : Value} {s t : State} : v.Alike w → s.Alike t →
    EvaluatedAlike (.ok (.normal v) s) (.ok (.normal w) t)
  | returning {v w : Value} {s t : State} : v.Alike w → s.Alike t →
    EvaluatedAlike (.ok (.returning v) s) (.ok (.returning w) t)
  | breaking {s t : State} : s.Alike t → EvaluatedAlike (.ok .breaking s) (.ok .breaking t)
  | continuing {s t : State} : s.Alike t → EvaluatedAlike (.ok .continuing s) (.ok .continuing t)
  | fault {e e' : Fault} {s t : State} : e.Alike e' → s.Alike t →
    EvaluatedAlike (.error e s) (.error e' t)

/-- Evaluations whose results are the same without lines end alike. -/
theorem evaluatedAlike_of_result_eq {r r' : EStateM.Result Fault State Outcome}
    (h : erasing.result erasing.state erasing.outcome r =
      erasing.result erasing.state erasing.outcome r') : EvaluatedAlike r r' := by
  cases r with
  | error e s =>
    cases r' with
    | ok o t => cases h
    | error e' t =>
      injection h with he hs
      exact .fault (Fault.alike_of_mapLines_eq he) (alike_iff_state_erasing_eq.mpr hs)
  | ok o s =>
    cases r' with
    | error e' t => cases h
    | ok o' t =>
      injection h with ho hs
      have hst := alike_iff_state_erasing_eq.mpr hs
      cases o <;> cases o' <;> simp only [outcome, reduceCtorEq, Outcome.normal.injEq,
        Outcome.returning.injEq] at ho
      case normal.normal v w => exact .value ho hst
      case returning.returning v w => exact .returning ho hst
      case breaking.breaking => exact .breaking hst
      case continuing.continuing => exact .continuing hst

/-- Nodes that are the same, lines aside, are evaluated alike in states that are the same. -/
theorem evaluate_alike {host : Host} (hn : host.PastLines) (nesting : Nat) {a b : Node} {s t : State}
    (hab : erasing.node a = erasing.node b) (hst : s.Alike t) :
    EvaluatedAlike (Eval.evaluate host nesting a s) (Eval.evaluate host nesting b t) := by
  have hfollows := follows_evaluate (followsHost_erased hn) nesting
  apply evaluatedAlike_of_result_eq
  rw [← hfollows a s, ← hfollows b t, hab, alike_iff_state_erasing_eq.mp hst]

end Change

/-- Two runs ended alike: with values, which are the same, lines aside, if `valued`, or with faults of one
class and one bare message; and in states that are the same, lines aside. -/
def EndsAlike (valued : Prop) : EStateM.Result Fault Interpreter Value →
    EStateM.Result Fault Interpreter Value → Prop
  | .ok v i, .ok w j => i.state.Alike j.state ∧ (valued → v.Alike w)
  | .error e i, .error f j => i.state.Alike j.state ∧ e.Alike f
  | _, _ => False

theorem EndsAlike.mono {valued valued' : Prop} {r r' : EStateM.Result Fault Interpreter Value}
    (h : EndsAlike valued r r') (hv : valued' → valued) : EndsAlike valued' r r' := by
  cases r <;> cases r'
  case ok.ok => exact ⟨h.1, fun hv' => h.2 (hv hv')⟩
  case ok.error => exact h
  case error.ok => exact h
  case error.error => exact h

theorem Fault.Alike.nesting_iff {e f : Fault} (h : e.Alike f) : e = .nesting ↔ f = .nesting := by
  rcases h with rfl | ⟨d, d', rfl, rfl, -⟩
  · exact Iff.rfl
  · constructor <;> intro hd <;> cases hd

namespace Run
variable {host : Host}

/-- Two runs of one text at two places, from states that are the same, lines aside, end alike. -/
theorem statements_alike (hn : host.PastLines) {n fuel fuel' : Nat} {p q : Parser}
    (hm : p.Moved n q) {s t : State} (hst : s.Alike t) (hp : p.size < fuel) (hq : q.size < fuel')
    (last last' : Value) :
    EndsAlike (last.Alike last' ∨ ∃ node r, Parse.next host.limits.expressions p = .ok (some node) r)
      (statements host fuel last ⟨p, s⟩) (statements host fuel' last' ⟨q, t⟩) := by
  -- The texts are read in step, so the induction is on the rounds of the first run.
  induction fuel generalizing fuel' p q s t last last' with
  | zero => omega
  | succ fuel ih =>
    cases fuel' with
    | zero => omega
    | succ fuel' =>
      rw [statements_succ, statements_succ]
      have hr := Simulation.runs_next (S := Parser.moved n) host.limits.expressions hm
      unfold Simulation.Runs at hr
      cases hnext : Parse.next host.limits.expressions p with
      | error e p' =>
        rw [hnext] at hr
        obtain ⟨-, e', q', hq', he, -⟩ := hr trivial
        rw [hq']
        exact ⟨hst, he⟩
      | ok a p' =>
        rw [hnext] at hr
        obtain ⟨-, b, q', hq', -, hstated⟩ := hr
        rw [hq']
        cases hstated with
        | none hmoved hshows =>
          refine ⟨hst, fun hvalued => hvalued.resolve_right ?_⟩
          rintro ⟨node, r, hnode⟩
          cases hnode
        | @some a b _ _ hab hmoved hlp hlq =>
          have hrest {u v : State} (huv : u.Alike v) {x y : Value} (hxy : x.Alike y) :
              EndsAlike True (statements host fuel x ⟨p', u⟩) (statements host fuel' y ⟨q', v⟩) :=
            (ih (hmoved.resolve_right False.elim) huv (by omega) (by omega) x y).mono
              fun _ => Or.inl hxy
          have hnode : Change.erasing.node a = Change.erasing.node b := by
            have he := congrArg Change.erasing.node hab
            simp only [Change.node, Node.mapLines_mapLines] at he
            exact he
          have heval := Change.evaluate_alike hn host.limits.evaluations hnode hst
          simp only
          generalize Eval.evaluate host host.limits.evaluations a s = r at heval
          generalize Eval.evaluate host host.limits.evaluations b t = r' at heval
          cases heval with
          | fault he huv => exact ⟨huv, he⟩
          | returning hxy huv => exact ⟨huv, fun _ => hxy⟩
          | value hxy huv => exact (hrest huv hxy).mono fun _ => trivial
          | breaking huv => exact (hrest huv rfl).mono fun _ => trivial
          | continuing huv => exact (hrest huv rfl).mono fun _ => trivial

/-- Runs whose statements end alike end alike, also where they nest too deeply. -/
theorem execute_alike {valued : Prop} {i j : Interpreter}
    (h : EndsAlike valued (statements host (i.parser.size + 1) .nothing i)
      (statements host (j.parser.size + 1) .nothing j)) :
    EndsAlike valued (execute host i) (execute host j) := by
  unfold execute
  generalize statements host (i.parser.size + 1) .nothing i = r at h
  generalize statements host (j.parser.size + 1) .nothing j = r' at h
  cases r <;> cases r'
  case ok.ok => exact h
  case ok.error => exact h.elim
  case error.ok => exact h.elim
  case error.error e i' f j' =>
    have hnesting := h.2.nesting_iff
    by_cases he : e = .nesting
    · rw [he, hnesting.mp he]
      exact ⟨h.1, Or.inl rfl⟩
    · have hf : f ≠ .nesting := fun hf => he (hnesting.mpr hf)
      split
      · next heq =>
        injection heq with hen
        exact absurd hen he
      · split
        · next heq =>
          injection heq with hfn
          exact absurd hfn hf
        · exact h

end Run

/-- A text that is parsed gives its statements one by one, and then none. -/
theorem Parser.steps_of_statements {nesting fuel : Nat} {p q : Parser} {as : List Node}
    (h : Parse.statements nesting fuel p = .ok as q) :
    ∃ r, Steps nesting p as r ∧ Parse.next nesting r = .ok none q := by
  induction fuel generalizing p as with
  | zero => cases h
  | succ fuel ih =>
    obtain ⟨node, p₁, hnext, hrest⟩ := ok_of_bind h
    cases node with
    | none =>
      cases hrest
      exact ⟨p, .nil, hnext⟩
    | some a =>
      obtain ⟨bs, p₂, hbs, hret⟩ := ok_of_bind hrest
      cases hret
      obtain ⟨r, hsteps, hend⟩ := ih hbs
      exact ⟨r, .cons hnext hsteps, hend⟩

namespace Run
variable {host : Host}

def NeverReturns (host : Host) (i : Interpreter) : Prop :=
  ∀ node s v t, Comes host i node s →
    Eval.evaluate host host.limits.evaluations node s ≠ .ok (.returning v) t

/-- A run that never returns does not do so behind its first statement either. -/
theorem NeverReturns.later {p p' : Parser} {s t : State} {node : Node} {outcome : Outcome}
    (h : NeverReturns host ⟨p, s⟩) (hn : Parse.next host.limits.expressions p = .ok (some node) p')
    (he : Eval.evaluate host host.limits.evaluations node s = .ok outcome t) :
    NeverReturns host ⟨p', t⟩ := by
  have hgoes : ∀ value, outcome ≠ .returning value := by
    rintro value rfl
    exact h node s value t (.first hn) he
  intro node' s' v t' hc
  exact h node' s' v t' (.later hn he hgoes hc)

/-- Statements that were run to the end of one text are run the same where more follows them, and then the
run is at what follows, with the value of the last. -/
theorem statements_before_more {as : List Node} {p p' r r' q : Parser} {s : State} {last v : Value}
    {i : Interpreter} {fuel : Nat} (hp : Parser.Steps host.limits.expressions p as r)
    (hp' : Parser.Steps host.limits.expressions p' as r')
    (hend : Parse.next host.limits.expressions r = .ok none q)
    (hret : NeverReturns host ⟨p, s⟩)
    (hrun : statements host (as.length + (fuel + 1)) last ⟨p, s⟩ = .ok v i) (fuel' : Nat) :
    statements host (as.length + fuel') last ⟨p', s⟩ = statements host fuel' v ⟨r', i.state⟩ := by
  induction hp generalizing p' s last with
  | nil =>
    cases hp'
    rw [List.length_nil, Nat.zero_add, statements_succ, hend] at hrun
    cases hrun
    rw [List.length_nil, Nat.zero_add]
  | @cons p p₁ r a as hnext hsteps ih =>
    cases hp' with
    | @cons _ p₁' _ _ _ hnext' hsteps' =>
      have hsucc (k : Nat) : (a :: as).length + k = as.length + k + 1 := by
        simp only [List.length_cons]
        omega
      rw [hsucc, statements_succ, hnext] at hrun
      rw [hsucc, statements_succ, hnext']
      simp only at hrun ⊢
      cases he : Eval.evaluate host host.limits.evaluations a s with
      | error fault t =>
        rw [he] at hrun
        cases hrun
      | ok outcome t =>
        rw [he] at hrun
        have hlater := hret.later hnext he
        cases outcome with
        | returning value => exact absurd he (hret a s value t (.first hnext))
        | normal value => exact ih hsteps' hend hlater hrun
        | breaking => exact ih hsteps' hend hlater hrun
        | continuing => exact ih hsteps' hend hlater hrun

/-- Where a text is behind a boundary, the run of the whole comes to it with all that the run of the text
before it has left, and goes on as a run of the second text alone would on the line it stands on. -/
theorem statements_behind_boundary {file p q joint : String} {as : List Node} {s : State} {last : Value}
    {i : Interpreter} (hp : Parser.parse host.limits.expressions p file = .ok as)
    (hb : Parser.Boundary file p q joint)
    (hrun : statements host ((Parser.ofText p file).size + 1) .nothing ⟨.ofText p file, s⟩ = .ok last i)
    (hret : NeverReturns host ⟨.ofText p file, s⟩) :
    let whole := Parser.ofText (p ++ joint ++ q) file
    let rest := Parser.startingAt q (Position.start.after (p ++ joint).toList) file
    ∃ fuel, rest.size < fuel ∧ statements host (whole.size + 1) .nothing ⟨whole, s⟩ =
      statements host fuel last ⟨rest, i.state⟩ := by
  intro whole rest
  obtain ⟨mark, l, hparted⟩ := hb.parted
  obtain ⟨r', hwhole, hlen, hpeek⟩ := hparted.steps hp
  rw [Parser.parse_eq] at hp
  split at hp
  · next nodes p' hparsed =>
    cases hp
    obtain ⟨r, hsteps, hend⟩ := Parser.steps_of_statements hparsed
    obtain ⟨k, hk⟩ : ∃ k, (Parser.ofText p file).size + 1 = as.length + (k + 1) := by
      refine ⟨p.length - as.length, ?_⟩
      rw [Parser.size_ofText]
      omega
    obtain ⟨m, hm⟩ : ∃ m, whole.size + 1 = as.length + (m + 1) := by
      refine ⟨whole.size - as.length, ?_⟩
      simp only [whole, Parser.size_ofText, String.length_append]
      omega
    have hrest : rest.size < m + 1 := by
      have hsize : rest.size = (Parser.ofText q file).size := rfl
      rw [hsize, Parser.size_ofText]
      simp only [whole, Parser.size_ofText, String.length_append] at hm
      omega
    refine ⟨m + 1, hrest, ?_⟩
    rw [hk] at hrun
    rw [hm, statements_before_more hsteps hwhole hend hret hrun (m + 1)]
    cases hnesting : host.limits.expressions with
    | zero =>
      rw [hnesting] at hparsed
      cases hparsed
    | succ n =>
      rw [statements_succ, statements_succ, hnesting, Parser.next_congr hpeek]
  · cases hp

/-- A text that ends with the semicolon of its last statement, or with a brace before a line that begins a
statement of its own, can be cut off there. If it runs to its end without a `return`, running it and then
the rest on the same interpreter ends as running both in one does: with the same output, the same input
left, and the same scopes, lines aside; and with the same fault, or with the same value if there is a
statement in the rest. -/
theorem pieces_end_as_whole (host : Host) (hn : host.PastLines) {file p q joint : String}
    (file' : String) {as : List Node} {s : State} {last : Value} {i : Interpreter}
    (hp : Parser.parse host.limits.expressions p file = .ok as) (hb : Parser.Boundary file p q joint)
    (hrun : execute host ⟨.ofText p file, s⟩ = .ok last i)
    (hret : NeverReturns host ⟨.ofText p file, s⟩) :
    EndsAlike (∃ node r, Parse.next host.limits.expressions (.ofText q file') = .ok (some node) r)
      (execute host ⟨.ofText q file', i.state⟩)
      (execute host ⟨.ofText (p ++ joint ++ q) file, s⟩) := by
  have hstatements : statements host ((Parser.ofText p file).size + 1) .nothing
      ⟨.ofText p file, s⟩ = .ok last i := by
    unfold execute at hrun
    split at hrun
    · cases hrun
    · exact hrun
  obtain ⟨fuel, hfuel, hwhole⟩ := statements_behind_boundary (q := q) hp hb hstatements hret
  have hmoved : (Parser.ofText q file').Moved ((p ++ joint).toList.count '\n')
      (Parser.startingAt q (Position.start.after (p ++ joint).toList) file) := by
    have hm := Parser.moved_startingAt q file (p ++ joint).toList
    exact ⟨⟨hm.cursor.rest, hm.cursor.line⟩, hm.ahead, hm.semicolon⟩
  have hsame : i.state.Alike i.state := ⟨rfl, rfl, rfl⟩
  apply execute_alike
  rw [hwhole]
  have halike := statements_alike hn hmoved hsame (Nat.lt_succ_self _) hfuel .nothing last
  exact halike.mono Or.inr

end Run

/-- A form that cannot return: it is no `return`, and has no block for one to stand in. -/
def Node.stays : Node → Bool
  | .returning _ _ | .conditional _ _ | .loop _ _ _ => false
  | _ => true

/-- Statements without a way to return do not return. -/
theorem Eval.evaluate_ne_returning {host : Host} {nesting : Nat} {node : Node} (h : node.stays = true)
    (s t : State) (v : Value) : evaluate host nesting node s ≠ .ok (.returning v) t := by
  intro hr
  have hexposed := results_evaluate host nesting node s _ t hr .returning rfl
  cases hexposed <;> cases h

namespace Run
variable {host : Host}

/-- Where no statement has a way to return, the run never returns early. -/
theorem neverReturns_of_stays {i : Interpreter}
    (h : (i.parser.drain host.limits.expressions).1.all Node.stays = true) : NeverReturns host i := by
  intro node s v t hc
  exact Eval.evaluate_ne_returning (List.all_eq_true.mp h node hc.mem_drain) s t v

def givesStatement : EStateM.Result Fault Parser (Option Node) → Bool
  | .ok (some _) _ => true
  | _ => false

theorem ok_of_givesStatement {r : EStateM.Result Fault Parser (Option Node)}
    (h : givesStatement r = true) : ∃ node p, r = .ok (some node) p := by
  unfold givesStatement at h
  split at h
  · next node p => exact ⟨node, p, rfl⟩
  · cases h

/-- A function is called from a text that is run after the one that defines it, on another line. -/
theorem pieces_end_as_whole_of_call :
    let host : Host := { file := "<script>", limits := ⟨10, 40, 10, 10⟩ }
    let p := "let f(n) \x7b return n + 1; \x7d\nlet x = f(1);"
    let q := "\nprint(\"hi\"); f(x) * 2;"
    ∃ i j k, execute host ⟨.ofText p "<script>", {}⟩ = .ok (.integer 2) i ∧
      execute host ⟨.ofText q "<rest>", i.state⟩ = .ok (.integer 6) j ∧
      execute host ⟨.ofText (p ++ "" ++ q) "<script>", {}⟩ = .ok (.integer 6) k ∧
      j.state.Alike k.state ∧ k.state.world.output = "hi" := by
  intro host p q
  have hparse : (Parser.parse 10 p "<script>").isOk = true := by decide +kernel
  obtain ⟨as, has⟩ : ∃ as, Parser.parse 10 p "<script>" = .ok as := by
    cases h : Parser.parse 10 p "<script>" with
    | error fault =>
      rw [h] at hparse
      cases hparse
    | ok as => exact ⟨as, rfl⟩
  have hnext : ∃ node r, Parse.next 10 (.ofText q "<rest>") = .ok (some node) r := by
    have hbegins : givesStatement (Parse.next 10 (.ofText q "<rest>")) = true := by decide +kernel
    exact ok_of_givesStatement hbegins
  have hreturns : NeverReturns host ⟨.ofText p "<script>", {}⟩ :=
    neverReturns_of_stays (by decide +kernel)
  have hboundary : Parser.Boundary "<script>" p q "" := by
    have htokens : (Parser.ofText p "<script>").significant = .ok [⟨.identifier "let", ⟨1, 0⟩⟩,
        ⟨.identifier "f", ⟨1, 4⟩⟩, ⟨.punctuation '(', ⟨1, 5⟩⟩, ⟨.identifier "n", ⟨1, 6⟩⟩,
        ⟨.punctuation ')', ⟨1, 7⟩⟩, ⟨.punctuation '\x7b', ⟨1, 9⟩⟩, ⟨.identifier "return", ⟨1, 11⟩⟩,
        ⟨.identifier "n", ⟨1, 18⟩⟩, ⟨.operator "+", ⟨1, 20⟩⟩, ⟨.integer 1, ⟨1, 22⟩⟩,
        ⟨.punctuation ';', ⟨1, 23⟩⟩, ⟨.punctuation '\x7d', ⟨1, 25⟩⟩, ⟨.identifier "let", ⟨2, 0⟩⟩,
        ⟨.identifier "x", ⟨2, 4⟩⟩, ⟨.operator "=", ⟨2, 6⟩⟩, ⟨.identifier "f", ⟨2, 8⟩⟩,
        ⟨.punctuation '(', ⟨2, 9⟩⟩, ⟨.integer 1, ⟨2, 10⟩⟩, ⟨.punctuation ')', ⟨2, 11⟩⟩,
        ⟨.punctuation ';', ⟨2, 12⟩⟩] := by decide +kernel
    have hinit : p.toList = p.toList.dropLast ++ [';'] := by decide +kernel
    exact .semicolon hinit htokens (by decide +kernel)
  have hfirst : endsWith 2 (fun _ => true) (execute host ⟨.ofText p "<script>", {}⟩) = true := by
    decide +kernel
  have hwhole : endsWith 6 (·.state.world.output == "hi")
      (execute host ⟨.ofText (p ++ "" ++ q) "<script>", {}⟩) = true := by
    decide +kernel
  obtain ⟨i, hi, -⟩ := eq_ok_of_endsWith hfirst
  obtain ⟨k, hk, hhi⟩ := eq_ok_of_endsWith hwhole
  have hn : host.PastLines := fun _ _ hf => Native.pastLines_standard hf
  have halike := pieces_end_as_whole host hn "<rest>" has hboundary hi hreturns
  rw [hk] at halike
  cases hj : execute host ⟨.ofText q "<rest>", i.state⟩ with
  | error fault j =>
    rw [hj] at halike
    exact halike.elim
  | ok v j =>
    rw [hj] at halike
    have hv := Value.eq_integer_of_alike (halike.2 hnext)
    subst hv
    exact ⟨i, j, k, hi, hj, hk, halike.1, by simpa using hhi⟩

end Run
end ScriptLang
