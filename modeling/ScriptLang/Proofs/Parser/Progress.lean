import ScriptLang.Proofs.Parser.Arguments
import ScriptLang.Proofs.Parser.Places

/-! Every call of the parser comes to an end, and gets on. The rounds of all loops are bounded by the text that
is left, which every round makes smaller; a statement is never empty, and no statement means that no
significant token is left. -/
namespace ScriptLang

namespace Lexer

/-- There are no more tokens than characters. -/
theorem tokenize_ne_unfinished {text file : String} : tokenize text file ≠ .error .unfinished := by
  have hf : text.toList.length < text.toList.length + 1 := Nat.lt_succ_self _
  intro h
  rcases tokensFrom_cases [] file hf with
    ⟨pieces, last, -, ht⟩ | ⟨pieces, space, x, xs, failure, -, -, -, -, ht⟩
  · rw [tokenize_eq, ht] at h
    cases h
  · rw [tokenize_eq, ht] at h
    have hfault := Except.error.inj h
    cases failure <;> cases hfault

end Lexer

namespace Parser

theorem ne_unfinished_of_peek {p p' : Parser} {e : Fault} (h : Parse.peek p = .error e p') :
    e ≠ .unfinished := by
  rintro rfl
  rcases fault_of_peek h with ⟨d, hd, -⟩ | ⟨hn, -⟩
  · cases hd
  · cases hn

theorem nesting_ne_unfinished : Fault.nesting ≠ .unfinished := by
  intro h
  cases h

theorem atPosition_ne_unfinished (cause : Cause) (pos : Position) (file : String) :
    Fault.atPosition cause pos file ≠ .unfinished := by
  intro h
  cases h

def lasting : Course where
  holds _ := True
  faults e := e ≠ .unfinished
  holds_withSemicolon _ h := h
  holds_peek h _ := h
  holds_taken h _ := h
  faults_peek _ hp := ne_unfinished_of_peek hp
  faults_refused cause pos file _ := atPosition_ne_unfinished cause pos file
  faults_nesting := nesting_ne_unfinished

end Parser

namespace Parse
variable {α β : Type}

/-- The step comes to its end from `p` on, and makes the parser no larger: rounds do not run out, and levels of
nesting only where there are no more of them than there is text left. -/
def EndsAt (nesting : Nat) (p : Parser) (m : Parse α) : Prop :=
  match m p with
  | .ok _ q => q.size ≤ p.size
  | .error e _ => e ≠ .unfinished ∧ (p.size < nesting → e ≠ .nesting)

def Ends (nesting : Nat) (m : Parse α) : Prop :=
  ∀ p, EndsAt nesting p m

variable {k : Nat} {p q : Parser} {m : Parse α} {f : α → Parse β}

theorem EndsAt.size_le {a : α} (h : EndsAt k p m) (ha : m p = .ok a q) : q.size ≤ p.size := by
  unfold EndsAt at h
  rwa [ha] at h

/-- Steps that end for want of neither room nor fuel do so one after another. -/
theorem EndsAt.bind (hm : EndsAt k p m)
    (hf : ∀ a q, m p = .ok a q → q.size ≤ p.size → EndsAt k q (f a)) : EndsAt k p (m >>= f) := by
  unfold EndsAt
  cases ha : m p with
  | error e q =>
    rw [bind_of_error ha]
    unfold EndsAt at hm
    rwa [ha] at hm
  | ok a q =>
    rw [bind_of_ok ha]
    have hle := hm.size_le ha
    have hq := hf a q ha hle
    unfold EndsAt at hq
    split
    · next b r hb =>
      rw [hb] at hq
      exact Nat.le_trans hq hle
    · next e r hb =>
      rw [hb] at hq
      exact ⟨hq.1, fun hlt => hq.2 (Nat.lt_of_le_of_lt hle hlt)⟩

theorem endsAt_pure (a : α) : EndsAt k p (pure a) :=
  Nat.le_refl p.size

/-- The size of what is left is fuel enough. -/
theorem EndsAt.bounded {step : Nat → Parse α} (h : EndsAt k p (step (p.size + 1))) :
    EndsAt k p (bounded step) :=
  h

theorem endsAt_refuse (cause : Cause) : EndsAt k p (refuse cause : Parse α) :=
  ⟨nofun, fun _ => nofun⟩

/-- What keeps two parsers in step comes to an end on each. -/
theorem endsAt_of_runs {Q : α → α → Parser → Parser → Prop}
    (h : Parser.lasting.beside.Runs k p p m m Q) : EndsAt k p m := by
  unfold Simulation.Runs at h
  unfold EndsAt
  split
  · next a q ha =>
    rw [ha] at h
    exact h.1
  · next e q he =>
    rw [he] at h
    obtain ⟨hn, _, _, -, hf, -⟩ := h trivial
    exact ⟨hf, fun hlt hnest => Nat.not_le_of_lt hlt (hn hnest).1⟩

section Rules
open Simulation

theorem beside_self (p : Parser) : Parser.lasting.beside.abreast p p :=
  ⟨rfl, trivial⟩

theorem ends_peek : Ends k peek :=
  fun p => endsAt_of_runs (runs_peek (beside_self p))

theorem ends_advance : Ends k advance :=
  fun p => endsAt_of_runs (runs_advance (beside_self p))

theorem ends_operatorAhead : Ends k operatorAhead :=
  fun p => endsAt_of_runs (runs_operatorAhead (.inl (beside_self p)))

variable (nesting : Nat)

theorem ends_operand : Ends (nesting + 1) (operand (primary nesting)) :=
  fun p => endsAt_of_runs (runs_operand (primary_subRule _ nesting) (beside_self p))

/-- An operand takes at least one token. -/
theorem size_operand_lt {node : Node} (h : operand (primary nesting) p = .ok (some node) q) :
    q.size < p.size := by
  have hr := runs_operand (primary_subRule Parser.lasting.beside nesting) (beside_self p)
  unfold Runs at hr
  rw [h] at hr
  obtain ⟨-, _, _, -, -, hfound⟩ := hr
  cases hfound with
  | some _ _ hlt _ => exact hlt

theorem endsAt_links (floor : Nat) {fuel : Nat} (hp : p.size < fuel) :
    EndsAt (nesting + 1) p (links (primary nesting) fuel floor) :=
  endsAt_of_runs (runs_links (primary_subRule _ nesting) (.inl (beside_self p)) floor hp hp)

/-- Without a floor every round takes an operand, or the last one fails. -/
theorem endsAt_linksWithoutFloor {fuel : Nat} (hp : p.size < fuel) :
    EndsAt (nesting + 1) p (linksWithoutFloor (primary nesting) fuel : Parse α) := by
  induction fuel generalizing p with
  | zero => omega
  | succ fuel ih =>
    refine (ends_peek p).bind fun _ p₁ _ _ => (ends_operatorAhead p₁).bind fun _ p₂ _ _ =>
      (ends_advance p₂).bind fun _ p₃ _ _ => (ends_operand nesting p₃).bind fun a p₄ ha _ => ?_
    cases a with
    | none => exact endsAt_refuse _
    | some node =>
      have hlt := size_operand_lt nesting ha
      refine (ends_operatorAhead p₄).bind fun op p₅ _ _ => ?_
      split
      · exact (endsAt_links nesting _ (by omega)).bind fun _ p₆ _ _ => ih (by omega)
      · exact ih (by omega)

/-- A chain ends, with an operand in front of it or without. -/
theorem ends_foldOnto (floor : Int) (left : Option Node) :
    Ends (nesting + 1) (foldOnto (primary nesting) floor left) := by
  intro p
  unfold foldOnto
  split
  · exact .bounded (endsAt_linksWithoutFloor nesting (Nat.lt_succ_self _))
  · have hlinks : EndsAt (nesting + 1) p (bounded fun fuel => links (primary nesting) fuel floor.toNat) :=
      endsAt_links nesting _ (Nat.lt_succ_self _)
    exact hlinks.bind fun _ _ _ _ => endsAt_pure _

theorem ends_block : Ends nesting (block (primary nesting)) :=
  fun p => endsAt_of_runs (runs_block (primary_subRule _ nesting) (beside_self p))

/-- Arguments end, for every one of them takes a token. -/
theorem ends_arguments : Ends nesting (arguments (primary nesting)) :=
  fun p => endsAt_of_runs (runs_arguments (primary_subRule _ nesting) (beside_self p))

theorem ends_ifForm : Ends nesting (ifForm (primary nesting)) :=
  fun p => endsAt_of_runs (runs_ifForm (primary_subRule _ nesting) (beside_self p))

theorem ends_next : Ends nesting (next nesting) :=
  fun p => endsAt_of_runs (runs_next nesting (beside_self p))

/-- A whole text is parsed or refused within the nesting it is given. -/
theorem ends_program : Ends nesting (program nesting) :=
  fun p => endsAt_of_runs (runs_statements trivial nesting (beside_self p) (Nat.lt_succ_self _)
    (Nat.lt_succ_self _))

end Rules

/-- No statement means that no significant token is left. -/
theorem ended_of_next_none {nesting : Nat} (h : next nesting p = .ok none q) : p.Ended := by
  obtain ⟨_, htook, hstated⟩ := (traced_next nesting p).of_ok h
  obtain ⟨rfl, hs⟩ := hstated.ended rfl
  exact htook.ended (ended_of_shows hs)

end Parse

namespace Parser
variable {text file : String} {p q : Parser} {ts : List Token} {before written : List Char} {t : Token}

/-- Calls for the next statement lead from the start of the text to the parser, some of which may fail. -/
inductive Visited (text file : String) : Parser → Prop
  | start : Visited text file (ofText text file)
  | answered {nesting : Nat} {p q : Parser} {node : Option Node} : Visited text file p →
    Parse.next nesting p = .ok node q → Visited text file q
  | failed {nesting : Nat} {p q : Parser} {e : Fault} : Visited text file p →
    Parse.next nesting p = .error e q → Visited text file q

/-- A parser that was visited stands somewhere in its text. -/
theorem Visited.stands (h : Visited text file p) :
    ∃ ts before written, p.Stands text file ts before written := by
  induction h with
  | start => exact ⟨[], [], [], stands_ofText text file⟩
  | @answered nesting p q node _ hn ih =>
    obtain ⟨ts, before, written, hp⟩ := ih
    obtain ⟨us, hus, -⟩ := (Parse.traced_next nesting p).of_ok hn
    obtain ⟨before', written', -, -, hq⟩ := hus.passes.stands hp
    exact ⟨_, before', written', hq⟩
  | @failed nesting p q e _ hn ih =>
    obtain ⟨ts, before, written, hp⟩ := ih
    obtain ⟨us, hus⟩ := (Parse.traced_next nesting p).of_error hn
    obtain ⟨before', written', -, hq, -⟩ := hus.stands hp
    exact ⟨_, before', written', hq⟩

/-- No more is left than the text has characters, since a token that is looked ahead to has one at least. -/
theorem Stands.size_le (h : p.Stands text file ts before written) : p.size ≤ text.length := by
  have hlength := congrArg List.length h.split
  have ha := h.ahead
  rw [List.length_append, List.length_append, String.length_toList] at hlength
  unfold Parser.size Lexer.size
  split
  · next t hs =>
    rw [hs] at ha
    have hpos := List.length_pos_iff.mpr ha.2.2.ne_nil
    omega
  · omega

/-- A token that is shown stays where it is as long as nothing is taken. -/
theorem Took.size_eq (h : p.Took [] q) (hs : p.Shows (some t)) : q.size = p.size := by
  generalize hts : ([] : List Token) = ts at h
  induction h with
  | refl => rfl
  | peek hp _ ih =>
    cases (Parse.peek_of_shows hs).symm.trans hp
    exact ih hs hts
  | take _ _ _ => cases hts
  | tell needed _ ih => exact ih ⟨hs.ahead, hs.significant⟩ hts

/-- Behind a statement the parser stands behind some character that it did not stand behind before. -/
theorem Stands.next {nesting : Nat} {node : Node} (h : p.Stands text file ts before written)
    (hn : Parse.next nesting p = .ok (some node) q) :
    ∃ us passed written', passed ≠ [] ∧ q.Stands text file us (before ++ passed) written' := by
  cases nesting with
  | zero => cases hn
  | succ nesting =>
    obtain ⟨a, r, ha, hrest⟩ := ok_of_bind hn
    cases a with
    | none => cases hrest
    | some left =>
      obtain ⟨t, p', hp, -⟩ := begins_of_primary ha
      have hshows := Parse.shows_of_peek hp
      have hn' : Parse.next (nesting + 1) p' = .ok (some node) q :=
        (next_congr ((Parse.peek_of_shows hshows).trans hp.symm)).trans hn
      obtain ⟨us, hus, -⟩ := (Parse.traced_next (nesting + 1) p').of_ok hn'
      obtain ⟨before₁, _, ⟨space, rfl⟩, h₁⟩ := h.peek hp
      obtain ⟨_, written', ⟨rest, rfl⟩, hlength, hq⟩ := hus.passes.stands h₁
      refine ⟨ts ++ us, space ++ rest, written', ?_, by rwa [← List.append_assoc]⟩
      cases us with
      | nil =>
        have hsize := hus.size_eq hshows
        have hlt := size_lt_of_next hn'
        omega
      | cons u us =>
        intro hnil
        obtain ⟨rfl, rfl⟩ := List.append_eq_nil_iff.mp hnil
        simp only [List.append_nil, List.length_cons] at hlength
        omega

/-- Parsing never runs out of fuel, and not of nesting if that is greater than the length of the text. -/
theorem parse_ne_error (nesting : Nat) :
    parse nesting text file ≠ .error .unfinished ∧
      (text.length < nesting → parse nesting text file ≠ .error .nesting) := by
  have hends := Parse.ends_program nesting (ofText text file)
  unfold Parse.EndsAt at hends
  unfold parse
  split
  · exact ⟨nofun, fun _ => nofun⟩
  · next e q he =>
    rw [he, size_ofText] at hends
    exact ⟨fun h => hends.1 (Except.error.inj h), fun hlt h => hends.2 hlt (Except.error.inj h)⟩

/-- All calls and loops of the parser come to an end, and the calls for the next statement get on. -/
theorem parsing_progresses (nesting : Nat) (hp : Visited text file p) :
    (match Parse.next nesting p with
      | .error e _ => e ≠ .unfinished ∧ (text.length < nesting → e ≠ .nesting)
      | .ok none _ => p.significant = .ok []
      | .ok (some _) q => q.size < p.size ∧ ∃ before passed, before ++ passed <+: text.toList ∧
          passed ≠ [] ∧ p.place = .behind before ∧ q.place = .behind (before ++ passed)) ∧
    (parse nesting text file ≠ .error .unfinished ∧
      (text.length < nesting → parse nesting text file ≠ .error .nesting)) ∧
    Lexer.tokenize text file ≠ .error .unfinished ∧
    Parse.Ends nesting Parse.peek ∧
    Parse.Ends nesting (Parse.block (Parse.primary nesting)) ∧
    Parse.Ends nesting (Parse.arguments (Parse.primary nesting)) ∧
    Parse.Ends nesting (Parse.ifForm (Parse.primary nesting)) ∧
    ∀ floor left, Parse.Ends (nesting + 1) (Parse.foldOnto (Parse.primary nesting) floor left) := by
  refine ⟨?_, parse_ne_error nesting, ?_, Parse.ends_peek, Parse.ends_block nesting,
    Parse.ends_arguments nesting, Parse.ends_ifForm nesting, Parse.ends_foldOnto nesting⟩
  · obtain ⟨ts, before, written, hstands⟩ := hp.stands
    have hends := Parse.ends_next nesting p
    have hle := hstands.size_le
    unfold Parse.EndsAt at hends
    split
    · next e q he =>
      rw [he] at hends
      exact ⟨hends.1, fun hlt => hends.2 (Nat.lt_of_le_of_lt hle hlt)⟩
    · next q hn => exact significant_eq_ok_iff.mpr (reads_nil (Parse.ended_of_next_none hn))
    · next node q hn =>
      obtain ⟨us, passed, written', hne, hq⟩ := hstands.next hn
      exact ⟨size_lt_of_next hn, before, passed, ⟨_, hq.split.symm⟩, hne, hstands.place, hq.place⟩
  · exact Lexer.tokenize_ne_unfinished

/-- The number after `let` is taken before it is refused, and parsing goes on behind it. -/
theorem parsing_progresses_behind_fault :
    ∃ e p q, Parse.next 2 (ofText "let 5 x;" "f") = .error e p ∧ Visited "let 5 x;" "f" p ∧
      Parse.next 2 p = .ok (some (.reference 1 "x")) q ∧ q.size < p.size ∧
      ∃ before passed, before ++ passed <+: "let 5 x;".toList ∧ passed ≠ [] ∧
        p.place = .behind before ∧ q.place = .behind (before ++ passed) := by
  have hfailed : Parse.next 2 (ofText "let 5 x;" "f") =
      .error (.atPosition (.variableExpected "5") ⟨1, 5⟩ "f")
        ⟨⟨⟨" x;".toList, ⟨1, 5⟩, "f"⟩, none⟩, true⟩ := by cbv
  have hnext : Parse.next 2 ⟨⟨⟨" x;".toList, ⟨1, 5⟩, "f"⟩, none⟩, true⟩ =
      .ok (some (.reference 1 "x")) ⟨⟨⟨[], ⟨1, 8⟩, "f"⟩, none⟩, true⟩ := by cbv
  have hvisited := Visited.failed .start hfailed
  have hprogress := (parsing_progresses 2 hvisited).1
  rw [hnext] at hprogress
  exact ⟨_, _, _, hfailed, hvisited, hnext, hprogress⟩

end Parser
end ScriptLang
