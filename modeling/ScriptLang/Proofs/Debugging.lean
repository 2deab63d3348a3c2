import ScriptLang.CommandLine
import ScriptLang.Proofs.Evaluator.Changes
import ScriptLang.Proofs.Parser.Comments
import ScriptLang.Proofs.Parser.Courses
import ScriptLang.Proofs.Runs
import ScriptLang.Proofs.Worlds

/-! Debugging from the command line. What a program does is not affected by what was printed before it; so
a listing that is printed first is all that debugging adds, where there is one. There is none for a script
that the lexer cannot read on its own: it does not pass over comments as the parser does. -/
namespace ScriptLang

theorem Table.map_id {α : Type} (t : Table α) : t.map id = t := by
  obtain ⟨entries⟩ := t
  simp [Table.map]

theorem Scopes.map_id {α : Type} (c : Scopes α) : c.map id = c := by
  obtain ⟨innermost, around⟩ := c
  have hid : Table.map (id : α → α) = id := funext Table.map_id
  simp [Scopes.map, hid]

namespace Change

def printed (before : String) : Change where
  before := before

variable (before : String)

theorem value_printed : (printed before).value = id :=
  funext Value.mapLines_id

theorem node_printed : (printed before).node = id :=
  funext Node.mapLines_id

theorem outcome_printed : (printed before).outcome = id := by
  funext outcome
  cases outcome <;> simp only [Change.outcome, value_printed, id]

theorem state_printed (s : State) :
    (printed before).state s = { s with world := (printed before).world s.world } := by
  simp only [state, value_printed, Scopes.map_id]

theorem result_printed {σ α : Type} (f : σ → σ) (r : EStateM.Result Fault σ α) :
    (printed before).result f id r = match r with
      | .ok a s => .ok a (f s)
      | .error fault s => .error fault (f s) := by
  cases r with
  | ok a s => rfl
  | error fault s => simp only [result, printed, Fault.mapLines_id]

theorem followsHost_printed {host : Host} (hn : host.natives = Native.standard) :
    (printed before).FollowsHost host host where
  file := rfl
  depthLimit := rfl
  limits := rfl
  natives name := by
    rw [hn]
    cases hf : Native.standard.find? name with
    | none => exact .none
    | some native => exact .some (followsNative_standard (printed before) hf)
  structs name := by
    rw [value_printed]
    simp only [Table.map_id]

end Change

def Prints {α : Type} (m : EStateM Fault World α) : Prop :=
  ∀ before w, m { w with output := before ++ w.output } = match m w with
    | .ok a u => .ok a { u with output := before ++ u.output }
    | .error fault u => .error fault { u with output := before ++ u.output }

namespace Prints
variable {α β : Type}

theorem pure (a : α) : Prints (Pure.pure a) :=
  fun _ _ => rfl

theorem write (text : String) : Prints (World.write text) := by
  intro before w
  unfold World.write
  cases text.toList.find? fun c => !w.encodes c with
  | some c => rfl
  | none => simp only [String.append_assoc]

theorem bind {m : EStateM Fault World α} {f : α → EStateM Fault World β} (hm : Prints m)
    (hf : ∀ a, Prints (f a)) : Prints (m >>= f) := by
  intro before w
  simp only [Bind.bind, EStateM.bind, hm before w]
  cases m w with
  | ok a u => exact hf a before u
  | error fault u => rfl

theorem printLine (line : String) : Prints (CommandLine.printLine line) :=
  write _

theorem depthLimit (settings : Settings) : Prints (CommandLine.depthLimit settings) := by
  unfold CommandLine.depthLimit
  split
  · exact pure _
  · exact pure _
  · split
    · exact pure _
    · exact (printLine _).bind fun _ => pure _

end Prints

namespace Run

/-- Statements run the same after more was printed. -/
theorem statements_printed {host : Host} (hn : host.natives = Native.standard) (before : String)
    (fuel : Nat) (last : Value) (p : Parser) (s : State) :
    statements host fuel last ⟨p, (Change.printed before).state s⟩ =
      (Change.printed before).result (fun i => { i with state := (Change.printed before).state i.state })
        id (statements host fuel last ⟨p, s⟩) := by
  induction fuel generalizing last p s with
  | zero => rfl
  | succ fuel ih =>
    have hfollows := Change.follows_evaluate (Change.followsHost_printed before hn)
      host.limits.evaluations
    rw [statements_succ, statements_succ]
    cases Parse.next host.limits.expressions p with
    | error fault p' => simp only [Change.result_printed]
    | ok a p' =>
      cases a with
      | none => rfl
      | some node =>
        have he := hfollows node s
        rw [Change.node_printed, Change.outcome_printed, id] at he
        simp only
        rw [he]
        cases Eval.evaluate host host.limits.evaluations node s with
        | error fault t => simp only [Change.result_printed]
        | ok outcome t =>
          cases outcome with
          | returning value => rfl
          | normal value => exact ih value p' t
          | breaking => exact ih _ p' t
          | continuing => exact ih _ p' t

end Run

/-- A run of a script only ever appends to the output. -/
theorem Prints.execute {host : Host} (hn : host.natives = Native.standard) (code : String) :
    Prints (CommandLine.execute host code) := by
  intro before w
  have hstart : (Change.printed before).state { world := w } =
      { world := { w with output := before ++ w.output } } := Change.state_printed before _
  have hrun := Run.statements_printed hn before ((Parser.ofText code host.file).size + 1) .nothing
    (.ofText code host.file) { world := w }
  rw [hstart] at hrun
  unfold CommandLine.execute Run.execute
  simp only [hrun, Change.result_printed]
  cases Run.statements host ((Parser.ofText code host.file).size + 1) .nothing
    ⟨.ofText code host.file, { world := w }⟩ with
  | ok v i => rfl
  | error fault i => cases fault <;> rfl

theorem Prints.reporting {m : EStateM Fault World Unit} (hm : Prints m) :
    Prints (CommandLine.reporting m) := by
  intro before w
  unfold CommandLine.reporting
  rw [hm before w]
  cases m w with
  | ok _ u => rfl
  | error fault u =>
    cases fault with
    | diagnostic d =>
      have htold := (Prints.printLine (d.family.title ++ ": " ++ d.text)).bind fun _ => pure 1
      exact htold before u
    | _ => rfl

/-- Two results are the same, but that the second has a text printed between what `w` has and the rest. -/
inductive PrintsMore (w : World) (text : String) {α : Type} :
    EStateM.Result Fault World α → EStateM.Result Fault World α → Prop
  | ok (a : α) (u : World) (rest : String) :
    PrintsMore w text (.ok a { u with output := w.output ++ rest })
      (.ok a { u with output := w.output ++ text ++ rest })
  | error (fault : Fault) (u : World) (rest : String) :
    PrintsMore w text (.error fault { u with output := w.output ++ rest })
      (.error fault { u with output := w.output ++ text ++ rest })

/-- A step that starts behind a text printed already does what it does without it, with the text in front. -/
theorem Prints.printsMore {α : Type} {m : EStateM Fault World α} (hm : Prints m) (w : World)
    (text : String) : PrintsMore w text (m w) (m { w with output := w.output ++ text }) := by
  -- Both are what the steps do where nothing was printed before, behind one text or the other.
  have hplain := hm w.output { w with output := "" }
  have hmore := hm (w.output ++ text) { w with output := "" }
  simp only [String.append_empty] at hplain hmore
  rw [hplain, hmore]
  cases m { w with output := "" } with
  | ok a u => exact .ok a u u.output
  | error fault u => exact .error fault u u.output

namespace CommandLine
variable {limits : Limits} {code script : String} {w : World}

theorem reporting_congr {m m' : EStateM Fault World Unit} {w w' : World} (h : m w = m' w') :
    reporting m w = reporting m' w' := by
  unfold reporting
  rw [h]

/-- A script that can be read comes to what running its text comes to, with diagnostics reported
on the way out. -/
theorem run_script (limits : Limits) (settings : Settings) (h : script ≠ "-h") (h' : script ≠ "--help")
    (hread : World.readText script w = .ok (.ok code) w) :
    run limits settings [script] w = reporting (runCode limits settings code script) w := by
  have hrun : run limits settings [script] = runScript limits settings script := by
    unfold run
    split
    · next heq => cases heq
    · next heq => exact absurd (List.cons.inj heq).1 h
    · next heq => exact absurd (List.cons.inj heq).1 h'
    · next heq => rw [(List.cons.inj heq).1]
    · next hno => exact absurd rfl (hno script)
  rw [hrun, runScript]
  simp only [bind, EStateM.bind, hread]

theorem prints_runCode (limits : Limits) (depth : Option String) (code script : String) :
    Prints (runCode limits { maxDepth := depth } code script) := by
  have hcode : runCode limits { maxDepth := depth } code script = (do
      let limit ← depthLimit { maxDepth := depth }
      execute { file := script, depthLimit := limit, limits } code) := rfl
  rw [hcode]
  exact (Prints.depthLimit _).bind fun limit => Prints.execute rfl code

/-- Debugging comes before everything else. -/
theorem runCode_debug (depth : Option String) {setting : String} (hset : isSet (some setting) = true) :
    runCode limits { debug := some setting, maxDepth := depth } code script = (do
      debug limits code script
      runCode limits { maxDepth := depth } code script) := by
  have hcode : runCode limits { maxDepth := depth } code script = (do
      let limit ← depthLimit { maxDepth := depth }
      execute { file := script, depthLimit := limit, limits } code) := rfl
  rw [hcode, runCode, if_pos hset]
  rfl

/-- A text without comments that parses can be listed as tokens, since the parser saw every
token of it. -/
theorem tokenize_of_parse {nodes : List Node} (h : Parser.parse limits.expressions code script = .ok nodes)
    (hc : blanked code = code) : ∃ tokens, Lexer.tokenize code script = .ok tokens := by
  obtain ⟨tokens, htokens⟩ := Parser.significant_of_parse h
  have hcursor : (Cursor.ofText code script).blanked = Cursor.ofText code script := by
    have hrest : blankedFrom .between code.toList = code.toList := by
      rw [← String.toList_ofList (l := blankedFrom .between code.toList)]
      exact congrArg String.toList hc
    simp only [Cursor.blanked, Cursor.ofText, hrest]
  have hread := Parser.significantFrom_eq_tokensFrom ((Parser.ofText code script).size + 1)
    (Cursor.ofText code script) true
  rw [hcursor] at hread
  exact ⟨tokens, hread.symm.trans htokens⟩

def printedLines (lines : List String) : String :=
  String.join (lines.map (· ++ "\n"))

theorem printedLines_cons (line : String) (lines : List String) :
    printedLines (line :: lines) = line ++ "\n" ++ printedLines lines :=
  String.join_cons

/-- Lines are printed up to the first that has a character without bytes. -/
theorem forM_printLine (lines : List String) (w : World) :
    (w.Takes (printedLines lines) →
      lines.forM printLine w = .ok () { w with output := w.output ++ printedLines lines }) ∧
    (¬w.Takes (printedLines lines) → ∃ c shown, w.encodes c = false ∧ shown <+: lines ∧
      lines.forM printLine w =
        .error (.waiting (.encoding c)) { w with output := w.output ++ printedLines shown }) := by
  induction lines generalizing w with
  | nil =>
    have htakes : w.Takes (printedLines []) := List.forall_mem_nil _
    refine ⟨fun _ => ?_, fun h => absurd htakes h⟩
    simp only [printedLines, List.map_nil, String.join_nil, String.append_empty]
    rfl
  | cons line lines ih =>
    rw [printedLines_cons, World.takes_append]
    by_cases hline : w.Takes (line ++ "\n")
    · have hwrite := World.write_of_takes hline
      have hforM : (line :: lines).forM printLine w =
          lines.forM printLine { w with output := w.output ++ (line ++ "\n") } := bind_of_ok hwrite
      obtain ⟨hall, hstop⟩ := ih { w with output := w.output ++ (line ++ "\n") }
      rw [hforM]
      constructor
      · rintro ⟨-, hlines⟩
        rw [hall hlines, String.append_assoc]
      · intro hnot
        obtain ⟨c, shown, hc, hprefix, hend⟩ := hstop fun hlines => hnot ⟨hline, hlines⟩
        refine ⟨c, line :: shown, hc, List.cons_prefix_cons.mpr ⟨rfl, hprefix⟩, ?_⟩
        rw [hend, printedLines_cons, String.append_assoc]
    · obtain ⟨c, hc, hwrite⟩ := World.write_of_not_takes hline
      refine ⟨fun h => absurd h.1 hline, fun _ => ⟨c, [], hc, List.nil_prefix, ?_⟩⟩
      have hforM : (line :: lines).forM printLine w = .error (.waiting (.encoding c)) w :=
        bind_of_error hwrite
      simp only [hforM, printedLines, List.map_nil, String.join_nil, String.append_empty]

/-- What debugging prints of tokens and tree: the tree is left out where it is too deep. -/
def debugLines (limits : Limits) (tokens : List Token) (nodes : List Node) : List String :=
  tokenLines tokens ++ if limits.listings < Node.levelsList nodes then [] else treeLines nodes

section
variable {tokens : List Token} {nodes : List Node} (htokens : Lexer.tokenize code script = .ok tokens)
  (hparse : Parser.parse limits.expressions code script = .ok nodes)
include htokens hparse

/-- With tokens and tree at hand, debugging prints what it has of them, and gives up behind the tokens of a
tree that is too deep. -/
theorem debug_of_tokenize :
    debug limits code script w = ((debugLines limits tokens nodes).forM printLine >>= fun _ =>
      if limits.listings < Node.levelsList nodes then throw Fault.nesting else pure ()) w := by
  have hlisted : debug limits code script w = ((tokenLines tokens).forM printLine >>= fun _ => do
      if limits.listings < Node.levelsList nodes then throw Fault.nesting
      (treeLines nodes).forM printLine) w := by
    simp only [debug, htokens, hparse, ofExcept, bind, EStateM.bind]
  rw [hlisted, debugLines]
  by_cases hdeep : limits.listings < Node.levelsList nodes
  · simp only [if_pos hdeep, List.append_nil]
    rfl
  · simp only [if_neg hdeep, bind_pure_unit]
    exact (congrFun List.forM_append w).symm

/-- A tree that is shallow enough is listed behind the tokens. -/
theorem debug_of_shallow (hlevels : Node.levelsList nodes ≤ limits.listings)
    (htakes : w.Takes (printedLines (tokenLines tokens ++ treeLines nodes))) :
    debug limits code script w =
      .ok () { w with output := w.output ++ printedLines (tokenLines tokens ++ treeLines nodes) } := by
  have hshallow : ¬limits.listings < Node.levelsList nodes := Nat.not_lt.mpr hlevels
  have hlines : debugLines limits tokens nodes = tokenLines tokens ++ treeLines nodes := by
    rw [debugLines, if_neg hshallow]
  have hprinted := (forM_printLine (tokenLines tokens ++ treeLines nodes) w).1 htakes
  rw [debug_of_tokenize htokens hparse, hlines, bind_of_ok hprinted, if_neg hshallow]
  rfl

/-- Behind the tokens of a tree that is too deep nothing is listed any more. -/
theorem debug_of_deep (hdeep : limits.listings < Node.levelsList nodes)
    (htakes : w.Takes (printedLines (tokenLines tokens))) :
    debug limits code script w =
      .error .nesting { w with output := w.output ++ printedLines (tokenLines tokens) } := by
  have hlines : debugLines limits tokens nodes = tokenLines tokens := by
    rw [debugLines, if_pos hdeep, List.append_nil]
  have hprinted := (forM_printLine (tokenLines tokens) w).1 htakes
  rw [debug_of_tokenize htokens hparse, hlines, bind_of_ok hprinted, if_pos hdeep]
  rfl

/-- A listing that the output cannot take is cut off in front of the line with the character at fault. -/
theorem debug_of_not_takes (hnot : ¬w.Takes (printedLines (debugLines limits tokens nodes))) :
    ∃ c lines, w.encodes c = false ∧ lines <+: debugLines limits tokens nodes ∧
      debug limits code script w =
        .error (.waiting (.encoding c)) { w with output := w.output ++ printedLines lines } := by
  obtain ⟨c, lines, hc, hprefix, hend⟩ := (forM_printLine (debugLines limits tokens nodes) w).2 hnot
  refine ⟨c, lines, hc, hprefix, ?_⟩
  rw [debug_of_tokenize htokens hparse, bind_of_error hend]

end

/-- What ends some steps without being a diagnostic is not reported. -/
theorem reporting_of_error {fault : Fault} {u : World} {m : EStateM Fault World Unit}
    (h : m w = .error fault u) (hplain : ∀ d, fault ≠ .diagnostic d) :
    reporting m w = .error fault u := by
  rw [reporting, h]
  cases fault with
  | diagnostic d => exact absurd rfl (hplain d)
  | _ => rfl

/-- For a script that is parsed, debugging adds the listing of its tokens and of its tree in front of what
the script prints, and changes nothing else, whenever all of the script can be read as tokens, as it can
where there are no comments, and the tree is not too deep to be listed. Else debugging ends before the
script is run: with what the lexer could not read, behind the tokens of a tree that is too deep, or with a
character that the output has no bytes for. -/
theorem debugging_adds_listing (limits : Limits) (depth : Option String) (setting script : String)
    (w : World) {code : String} {nodes : List Node} (hset : isSet (some setting) = true)
    (h : script ≠ "-h") (h' : script ≠ "--help")
    (hread : World.readText script w = .ok (.ok code) w)
    (hparse : Parser.parse limits.expressions code script = .ok nodes) :
    let plain := run limits { maxDepth := depth } [script] w
    let shown := run limits { debug := some setting, maxDepth := depth } [script] w
    (∀ tokens, Lexer.tokenize code script = .ok tokens →
      let listing := printedLines (tokenLines tokens ++ treeLines nodes)
      let cut := printedLines (tokenLines tokens)
      (Node.levelsList nodes ≤ limits.listings → w.Takes listing → PrintsMore w listing plain shown) ∧
      (limits.listings < Node.levelsList nodes → w.Takes cut →
        shown = .error .nesting { w with output := w.output ++ cut }) ∧
      (¬w.Takes (printedLines (debugLines limits tokens nodes)) →
        ∃ c lines, w.encodes c = false ∧ lines <+: debugLines limits tokens nodes ∧
          shown = .error (.waiting (.encoding c)) { w with output := w.output ++ printedLines lines })) ∧
    (∀ fault, Lexer.tokenize code script = .error fault → shown = reporting (throw fault) w) ∧
    (blanked code = code → ∃ tokens, Lexer.tokenize code script = .ok tokens) := by
  intro plain shown
  have hplain : plain = reporting (runCode limits { maxDepth := depth } code script) w :=
    run_script limits _ h h' hread
  have hshown : shown = reporting (do
      debug limits code script
      runCode limits { maxDepth := depth } code script) w := by
    rw [← runCode_debug depth hset]
    exact run_script limits _ h h' hread
  refine ⟨?_, ?_, tokenize_of_parse hparse⟩
  · intro tokens htokens listing cut
    refine ⟨?_, ?_, ?_⟩
    · intro hlevels htakes
      have hlisted : debug limits code script w = .ok () { w with output := w.output ++ listing } :=
        debug_of_shallow htokens hparse hlevels htakes
      have hbehind : shown = reporting (runCode limits { maxDepth := depth } code script)
          { w with output := w.output ++ listing } := by
        rw [hshown]
        exact reporting_congr (bind_of_ok hlisted)
      rw [hplain, hbehind]
      exact (prints_runCode limits depth code script).reporting.printsMore w _
    · intro hdeep htakes
      have hcut := debug_of_deep htokens hparse hdeep htakes
      exact hshown.trans (reporting_of_error (bind_of_error hcut) fun d => Fault.noConfusion)
    · intro hnot
      obtain ⟨c, lines, hc, hprefix, hend⟩ := debug_of_not_takes htokens hparse hnot
      exact ⟨c, lines, hc, hprefix,
        hshown.trans (reporting_of_error (bind_of_error hend) fun d => Fault.noConfusion)⟩
  · intro fault hfault
    have hdebug : debug limits code script w = .error fault w := by
      simp only [debug, hfault, ofExcept, bind, EStateM.bind]
    rw [hshown]
    apply reporting_congr
    rw [bind_of_error hdebug]
    rfl

def worldOf (script code : String) : World where
  disk path :=
    if path = script then .bytes (code.toList.map fun c => c.toNat.toUInt8) else .refused .notFound

def ending : EStateM.Result Fault World Nat → Option (Nat × String)
  | .ok status w => some (status, w.output)
  | .error _ _ => none

/-- A script of one statement. -/
theorem debugging_adds_listing_of_print :
    let w := worldOf "s.ct" "print(1);"
    let plain := run ⟨10, 40, 10, 10⟩ {} ["s.ct"] w
    let shown := run ⟨10, 40, 10, 10⟩ { debug := some "1" } ["s.ct"] w
    ∃ tokens nodes, Lexer.tokenize "print(1);" "s.ct" = .ok tokens ∧
      Parser.parse 10 "print(1);" "s.ct" = .ok nodes ∧
      PrintsMore w (printedLines (tokenLines tokens ++ treeLines nodes)) plain shown ∧
      ending plain = some (0, "1") := by
  intro w plain shown
  let nodes : List Node := [.call 1 "print" [.literal 1 (.integer 1)]]
  have hparse : Parser.parse 10 "print(1);" "s.ct" = .ok nodes := by cbv
  have hread : World.readText "s.ct" w = .ok (.ok "print(1);") w := by
    have htext : textOfBytes ("print(1);".toList.map fun c => c.toNat.toUInt8) = .ok "print(1);" := by
      cbv
    simp only [World.readText, w, worldOf, if_true, htext]
  obtain ⟨hadds, -, hcovers⟩ :=
    debugging_adds_listing ⟨10, 40, 10, 10⟩ none "1" "s.ct" w rfl (by decide) (by decide) hread hparse
  have hblanked : blanked "print(1);" = "print(1);" := by decide
  obtain ⟨tokens, htokens⟩ := hcovers hblanked
  have hlevels : Node.levelsList nodes ≤ 10 := by decide
  have hlisted := (hadds tokens htokens).1 hlevels fun _ _ => rfl
  exact ⟨tokens, nodes, htokens, hparse, hlisted, by decide +kernel⟩

/-- A script that is parsed and run, and that debugging does not come to run: the lexer cannot read a
character of its comment. -/
theorem debugging_stops_in_comment :
    let code := "print(\"hi\"); // it's"
    let w := worldOf "s.ct" code
    (Parser.parse 10 code "s.ct").isOk = true ∧
      ending (run ⟨10, 40, 10, 10⟩ {} ["s.ct"] w) = some (0, "hi") ∧
      ending (run ⟨10, 40, 10, 10⟩ { debug := some "1" } ["s.ct"] w) =
        some (1, "LexerException: Cannot identify: ' (line: 1, col: 18) in s.ct\n") := by
  decide +kernel

end CommandLine
end ScriptLang
