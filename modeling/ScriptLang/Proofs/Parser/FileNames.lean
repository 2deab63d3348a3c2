import ScriptLang.Proofs.Parser.Moved

/-! One text under two names. The name of a file only tells where a fault was found: under another name
the same statements are read, and the same fault is found on the same line and in the same column. -/
namespace ScriptLang

namespace Fault

def named (file : String) : Fault → Fault
  | diagnostic d => diagnostic { d with file := some file }
  | fault => fault

/-- A diagnostic tells its line, counted from 1, and its column. -/
def Placed : Fault → Prop
  | diagnostic d => ∃ line col : Nat, d.line = some ((line + 1 : Nat) : Int) ∧ d.col = some (col : Int)
  | _ => True

theorem placed_atPosition (cause : Cause) {pos : Position} (file : String) (h : 1 ≤ pos.line) :
    (atPosition cause pos file).Placed := by
  refine ⟨pos.line - 1, pos.col, ?_, rfl⟩
  rw [Nat.sub_add_cancel h]

end Fault

namespace Cursor

structure Named (file : String) (c d : Cursor) : Prop where
  rest : d.rest = c.rest
  pos : d.pos = c.pos
  name : d.file = file
  line : 1 ≤ c.pos.line

inductive ReadNamed (file : String) : EStateM.Result Fault Cursor (Option Token) →
    EStateM.Result Fault Cursor (Option Token) → Prop
  | token {t c d} : (∀ u ∈ t, 1 ≤ u.pos.line) → Named file c d → ReadNamed file (.ok t c) (.ok t d)
  | fault {e c d} : e.Placed → e ≠ .nesting → Named file c d →
    ReadNamed file (.error e c) (.error (e.named file) d)

variable {file : String} {c d : Cursor}

theorem Named.move (h : c.Named file d) (taken rest : List Char) :
    (c.move taken rest).Named file (d.move taken rest) := by
  refine ⟨rfl, ?_, h.name, ?_⟩
  · simp only [Cursor.move, h.pos]
  · have hline := h.line
    simp only [Cursor.move, Position.line_after]
    omega

theorem Named.skipWhile (h : c.Named file d) (p : Char → Bool) :
    (c.skipWhile p).Named file (d.skipWhile p) := by
  unfold Cursor.skipWhile
  rw [h.rest]
  exact h.move _ _

/-- A fault of a cursor has a place, and under another file name differs in that name only. -/
theorem Named.fault (h : c.Named file d) (cause : Cause) :
    (c.fault cause).Placed ∧ d.fault cause = (c.fault cause).named file := by
  refine ⟨Fault.placed_atPosition cause c.file h.line, ?_⟩
  unfold Cursor.fault
  rw [h.pos, h.name]
  rfl

theorem Named.read (h : c.Named file d) : ReadNamed file (Cursor.read c) (Cursor.read d) := by
  have hs := h.skipWhile isSpace
  unfold Cursor.read
  simp only [hs.rest, hs.pos]
  split
  · exact .token (by simp) hs
  · next x xs hx =>
    have hm := hs.move (scan x xs).taken (scan x xs).rest
    have hfault (cause : Cause) := hm.fault cause
    split
    · refine .token ?_ hm
      intro u hu
      cases hu
      exact hs.line
    · rw [(hfault _).2]
      exact .fault (hfault _).1 (by simp [Cursor.fault, Fault.atPosition]) hm
    · exact .fault trivial (by simp) hm
    · rw [(hfault _).2]
      exact .fault (hfault _).1 (by simp [Cursor.fault, Fault.atPosition]) hm

/-- Reading apart from comments differs in the file name only. -/
theorem Named.readSignificant (h : c.Named file d) :
    ReadNamed file (readSignificant c) (readSignificant d) := by
  fun_induction Cursor.readSignificant c generalizing d with
  | case1 c t c' hread hc ih =>
    have hr := h.read
    rw [hread] at hr
    generalize hd : Cursor.read d = result at hr
    cases hr with
    | token _ hm =>
      rw [readSignificant_of_comment hd hc]
      exact ih (hm.skipWhile _)
  | case2 c t c' hread hc =>
    have hr := h.read
    rw [hread] at hr
    generalize hd : Cursor.read d = result at hr
    cases hr with
    | token ht hm =>
      rw [readSignificant_of_token hd (by simpa using hc)]
      exact .token ht hm
  | case3 c c' hread =>
    have hr := h.read
    rw [hread] at hr
    generalize hd : Cursor.read d = result at hr
    cases hr with
    | token ht hm =>
      rw [readSignificant_of_end hd]
      exact .token ht hm
  | case4 c fault c' hread =>
    have hr := h.read
    rw [hread] at hr
    generalize hd : Cursor.read d = result at hr
    cases hr with
    | fault he hn hm =>
      rw [readSignificant_of_error hd]
      exact .fault he hn hm

end Cursor

namespace Parser

structure Named (file : String) (p q : Parser) : Prop where
  cursor : p.lexer.cursor.Named file q.lexer.cursor
  ahead : q.lexer.ahead = p.lexer.ahead
  line : ∀ t, p.lexer.ahead = some (some t) → 1 ≤ t.pos.line
  semicolon : q.needsSemicolon = p.needsSemicolon

inductive PeekedNamed (file : String) : EStateM.Result Fault Parser (Option Token) →
    EStateM.Result Fault Parser (Option Token) → Prop
  | token {t p q} : Named file p q → PeekedNamed file (.ok t p) (.ok t q)
  | fault {e p q} : e.Placed → e ≠ .nesting → Named file p q →
    PeekedNamed file (.error e p) (.error (e.named file) q)

variable {file : String} {p q : Parser}

theorem named_ofText (text file file' : String) :
    (ofText text file).Named file' (ofText text file') := by
  refine ⟨⟨rfl, rfl, rfl, Nat.le_refl 1⟩, rfl, ?_, rfl⟩
  intro t ht
  cases ht

theorem Named.resume (h : p.Named file q) {r s : EStateM.Result Fault Cursor (Option Token)}
    (hr : Cursor.ReadNamed file r s) : PeekedNamed file (p.resume r) (q.resume s) := by
  cases hr with
  | token ht hm =>
    refine .token ⟨hm, rfl, ?_, h.semicolon⟩
    intro u hu
    exact ht u (Option.some.inj hu)
  | fault he hn hm =>
    refine .fault he hn ⟨hm, rfl, ?_, h.semicolon⟩
    intro u hu
    cases hu

theorem Named.peek (h : p.Named file q) : PeekedNamed file (Parse.peek p) (Parse.peek q) := by
  rw [Parse.peek_eq, Parse.peek_eq, h.ahead]
  cases p.lexer.ahead with
  | none => exact h.resume h.cursor.readSignificant
  | some t =>
    simp only
    split
    · exact h.resume (h.cursor.skipWhile _).readSignificant
    · exact .token h

theorem Named.taken (h : p.Named file q) : p.taken.Named file q.taken := by
  refine ⟨h.cursor, rfl, ?_, h.semicolon⟩
  intro t ht
  cases ht

/-- A diagnostic is placed at the same token, or where both cursors are. -/
theorem Named.place (h : p.Named file q) : q.place = p.place ∧ 1 ≤ p.place.line := by
  have hpos : q.pos = p.pos := h.cursor.pos
  have hline : 1 ≤ p.pos.line := h.cursor.line
  have hahead := h.line
  unfold Parser.place
  rw [h.ahead, hpos]
  split
  · next t ht => exact ⟨rfl, hahead t ht⟩
  · exact ⟨rfl, hline⟩

def named (file : String) : Simulation where
  toEnding := .together
  left := id
  right := id
  faults e f := e.Placed ∧ f = e.named file
  abreast := Named file
  stopped := Named file
  semicolon_eq h := h.semicolon.symm
  abreast_withSemicolon b h := ⟨h.cursor, h.ahead, h.line, rfl⟩
  abreast_peek {p q} h := by
    have hr := h.peek
    generalize hp : Parse.peek p = r at hr
    generalize hq : Parse.peek q = s at hr
    cases hr with
    | token hm => exact Or.inl ⟨_, _, _, _, rfl, rfl, rfl, hm⟩
    | fault he hn hm => exact Or.inr ⟨_, _, rfl, fun _ => ⟨hn, _, _, rfl, ⟨he, rfl⟩, hm⟩⟩
  abreast_taken h _ _ _ := Or.inl h.taken
  stopped_of_abreast h := h
  stopped_taken h _ _ := h.taken
  faults_refused {p q} cause h _ := by
    obtain ⟨hplace, hline⟩ := h.place
    have hfile : q.file = file := h.cursor.name
    rw [hplace, hfile]
    exact ⟨Fault.placed_atPosition cause p.file hline, rfl⟩
  faults_nesting := ⟨trivial, rfl⟩

/-- The next statement is the same under another file name, and a fault names the other file. -/
theorem next_of_named (nesting : Nat) (h : p.Named file q) :
    match Parse.next nesting p with
    | .ok a p' => ∃ q', Parse.next nesting q = .ok a q' ∧ p'.Named file q'
    | .error e _ => e.Placed ∧ ∃ q', Parse.next nesting q = .error (e.named file) q' := by
  have hr := Simulation.runs_next (S := named file) nesting h
  unfold Simulation.Runs at hr
  split
  · next a p' hp =>
    rw [hp] at hr
    obtain ⟨-, b, q', hq, -, hs⟩ := hr
    cases hs with
    | none hm _ => exact ⟨q', hq, hm⟩
    | @some a b _ _ hab hm _ _ =>
      have hb : a = b := a.mapLines_id.symm.trans (hab.trans b.mapLines_id)
      exact ⟨q', hb ▸ hq, hm.resolve_right False.elim⟩
  · next e p' hp =>
    rw [hp] at hr
    obtain ⟨-, e', q', hq, ⟨hplaced, rfl⟩, -⟩ := hr trivial
    exact ⟨hplaced, q', hq⟩

/-- Under another name the same statements are read, and the same fault is found. -/
theorem drainFrom_of_named (nesting fuel : Nat) (h : p.Named file q) :
    (drainFrom nesting fuel q).1 = (drainFrom nesting fuel p).1 ∧
      (drainFrom nesting fuel q).2.1 = (drainFrom nesting fuel p).2.1.map (Fault.named file) ∧
      ∀ e ∈ (drainFrom nesting fuel p).2.1, e.Placed := by
  induction fuel generalizing p q with
  | zero =>
    refine ⟨rfl, rfl, ?_⟩
    intro e he
    cases he
    trivial
  | succ fuel ih =>
    have hn := next_of_named nesting h
    unfold drainFrom
    cases hp : Parse.next nesting p with
    | error e p' =>
      rw [hp] at hn
      obtain ⟨hplaced, q', hq⟩ := hn
      rw [hq]
      refine ⟨rfl, rfl, ?_⟩
      intro e' he
      cases he
      exact hplaced
    | ok a p' =>
      rw [hp] at hn
      obtain ⟨q', hq, hm⟩ := hn
      rw [hq]
      cases a with
      | none => exact ⟨rfl, rfl, by simp⟩
      | some node =>
        obtain ⟨hnodes, hfault, hplaced⟩ := ih hm
        exact ⟨congrArg (node :: ·) hnodes, hfault, hplaced⟩

/-- Draining a text finds the same statements whatever its file is called. -/
theorem drain_ofText_named (nesting : Nat) (text file file' : String) :
    let found := (ofText text file).drain nesting
    ((ofText text file').drain nesting).1 = found.1 ∧
      ((ofText text file').drain nesting).2.1 = found.2.1.map (Fault.named file') ∧
      ∀ e ∈ found.2.1, e.Placed :=
  drainFrom_of_named nesting _ (named_ofText text file file')

end Parser
end ScriptLang
