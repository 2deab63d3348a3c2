import Mathlib.Data.List.Forall2
import ScriptLang.Proofs.Lexer.Locality
import ScriptLang.Proofs.Parser.Rules

/-! One text at two places. A parser that starts further down gives the same answers to all calls for
the next statement, with the lines moved by as much; where one finds a fault, so does the other. -/
namespace ScriptLang

/-- Faults of the same class with the same bare message, wherever they were found. -/
def Fault.Alike (e f : Fault) : Prop :=
  e = f ∨ ∃ d d', e = .diagnostic d ∧ f = .diagnostic d' ∧ d.cause = d'.cause

namespace Cursor

structure Moved (n : Nat) (c d : Cursor) : Prop where
  rest : c.rest = d.rest
  line : c.pos.line + n = d.pos.line

inductive ReadAlike (n : Nat) : EStateM.Result Fault Cursor (Option Token) →
    EStateM.Result Fault Cursor (Option Token) → Prop
  | done {c d} : Moved n c d → ReadAlike n (.ok none c) (.ok none d)
  | token {t t' c d} : t.seen (· + n) = t'.seen id → Moved n c d →
    ReadAlike n (.ok (some t) c) (.ok (some t') d)
  | fault {e e' c d} : e.Alike e' → e ≠ .nesting → Moved n c d →
    ReadAlike n (.error e c) (.error e' d)

variable {n : Nat} {c d : Cursor}

theorem Moved.move (h : c.Moved n d) (taken rest : List Char) :
    (c.move taken rest).Moved n (d.move taken rest) := by
  refine ⟨rfl, ?_⟩
  have hl := h.line
  simp only [Cursor.move, Position.line_after]
  omega

theorem Moved.skipWhile (h : c.Moved n d) (p : Char → Bool) :
    (c.skipWhile p).Moved n (d.skipWhile p) := by
  unfold Cursor.skipWhile
  rw [← h.rest]
  exact h.move _ _

theorem Moved.read (h : c.Moved n d) : ReadAlike n (Cursor.read c) (Cursor.read d) := by
  have hs := h.skipWhile isSpace
  unfold Cursor.read
  simp only [← hs.rest]
  split
  · exact .done hs
  · next x xs hx =>
    have hm := hs.move (scan x xs).taken (scan x xs).rest
    split
    · next lexeme hl =>
      refine .token ?_ hm
      simp [Token.seen, hs.line]
    · exact .fault (Or.inr ⟨_, _, rfl, rfl, rfl⟩) (by simp [fault, Fault.atPosition]) hm
    · exact .fault (Or.inl rfl) (by simp) hm
    · exact .fault (Or.inr ⟨_, _, rfl, rfl, rfl⟩) (by simp [fault, Fault.atPosition]) hm

/-- Reading apart from comments further down differs in the lines only. -/
theorem Moved.readSignificant (h : c.Moved n d) :
    ReadAlike n (readSignificant c) (readSignificant d) := by
  -- Each case of the reading on the left decides what one step on the right can be.
  fun_induction Cursor.readSignificant c generalizing d with
  | case1 c t c' hread hc ih =>
    have hr := h.read
    rw [hread] at hr
    generalize hd : Cursor.read d = result at hr
    cases hr with
    | @token _ t' _ _ ht hm =>
      have hl : t.lexeme = t'.lexeme := congrArg Prod.fst ht
      rw [readSignificant_of_comment hd (hl ▸ hc)]
      exact ih (hm.skipWhile _)
  | case2 c t c' hread hc =>
    have hr := h.read
    rw [hread] at hr
    generalize hd : Cursor.read d = result at hr
    cases hr with
    | @token _ t' _ _ ht hm =>
      have hl : t.lexeme = t'.lexeme := congrArg Prod.fst ht
      rw [readSignificant_of_token hd (by simpa [← hl] using hc)]
      exact .token ht hm
  | case3 c c' hread =>
    have hr := h.read
    rw [hread] at hr
    generalize hd : Cursor.read d = result at hr
    cases hr with
    | done hm =>
      rw [readSignificant_of_end hd]
      exact .done hm
  | case4 c fault c' hread =>
    have hr := h.read
    rw [hread] at hr
    generalize hd : Cursor.read d = result at hr
    cases hr with
    | fault he hn hm =>
      rw [readSignificant_of_error hd]
      exact .fault he hn hm

end Cursor

namespace Parser

structure Moved (n : Nat) (p q : Parser) : Prop where
  cursor : p.lexer.cursor.Moved n q.lexer.cursor
  ahead : p.lexer.ahead.map (Option.map (Token.seen (· + n))) =
    q.lexer.ahead.map (Option.map (Token.seen id))
  semicolon : p.needsSemicolon = q.needsSemicolon

inductive PeekedAlike (n : Nat) : EStateM.Result Fault Parser (Option Token) →
    EStateM.Result Fault Parser (Option Token) → Prop
  | token {t t' p q} : t.map (Token.seen (· + n)) = t'.map (Token.seen id) → Moved n p q →
    PeekedAlike n (.ok t p) (.ok t' q)
  | fault {e e' p q} : e.Alike e' → e ≠ .nesting → Moved n p q →
    PeekedAlike n (.error e p) (.error e' q)

variable {n : Nat} {p q : Parser}

theorem Moved.resume (h : p.Moved n q) {r s : EStateM.Result Fault Cursor (Option Token)}
    (hr : Cursor.ReadAlike n r s) : PeekedAlike n (p.resume r) (q.resume s) := by
  cases hr with
  | done hm => exact .token rfl ⟨hm, rfl, h.semicolon⟩
  | token ht hm => exact .token (congrArg some ht) ⟨hm, congrArg (some ∘ some) ht, h.semicolon⟩
  | fault he hn hm => exact .fault he hn ⟨hm, rfl, h.semicolon⟩

theorem Moved.peek (h : p.Moved n q) : PeekedAlike n (Parse.peek p) (Parse.peek q) := by
  have ha := h.ahead
  rw [Parse.peek_eq, Parse.peek_eq]
  cases hp : p.lexer.ahead with
  | none =>
    have hq : q.lexer.ahead = none := by
      rw [hp] at ha
      simpa using ha.symm
    rw [hq]
    exact h.resume h.cursor.readSignificant
  | some t =>
    rw [hp] at ha
    cases hq : q.lexer.ahead with
    | none =>
      rw [hq] at ha
      cases ha
    | some t' =>
      rw [hq] at ha
      have ht := Option.some.inj ha
      simp only [Token.any_eq_of_seen_eq ht Lexeme.isComment]
      split
      · exact h.resume (h.cursor.skipWhile _).readSignificant
      · exact .token ht h

theorem Moved.taken (h : p.Moved n q) : p.taken.Moved n q.taken :=
  ⟨h.cursor, rfl, h.semicolon⟩

def moved (n : Nat) : Simulation where
  toEnding := .together
  left := (· + n)
  right := id
  faults := Fault.Alike
  abreast := Moved n
  stopped := Moved n
  semicolon_eq h := h.semicolon
  abreast_withSemicolon b h := ⟨h.cursor, h.ahead, rfl⟩
  abreast_peek {p q} h := by
    have hr := h.peek
    generalize hp : Parse.peek p = r at hr
    generalize hq : Parse.peek q = s at hr
    cases hr with
    | token ht hm => exact Or.inl ⟨_, _, _, _, rfl, rfl, ht, hm⟩
    | fault he hn hm => exact Or.inr ⟨_, _, rfl, fun _ => ⟨hn, _, _, rfl, he, hm⟩⟩
  abreast_taken h _ _ _ := Or.inl h.taken
  stopped_of_abreast h := h
  stopped_taken h _ _ := h.taken
  faults_refused _ _ _ := Or.inr ⟨_, _, rfl, rfl, rfl⟩
  faults_nesting := Or.inl rfl

def calls (nesting : Nat) : Nat → Parser → List (Except Fault (Option Node))
  | 0, _ => []
  | count + 1, p =>
    match Parse.next nesting p with
    | .ok node p => .ok node :: calls nesting count p
    | .error fault p => .error fault :: calls nesting count p

inductive AnsweredAlike (n : Nat) :
    Except Fault (Option Node) → Except Fault (Option Node) → Prop
  | done : AnsweredAlike n (.ok none) (.ok none)
  | node (a : Node) : AnsweredAlike n (.ok (some a)) (.ok (some (a.mapLines (· + n))))
  | fault {e f : Fault} : e.Alike f → AnsweredAlike n (.error e) (.error f)

/-- Call by call, a parser further down answers alike, with the lines moved. -/
theorem calls_of_moved (nesting count : Nat) (h : p.Moved n q) :
    List.Forall₂ (AnsweredAlike n) (calls nesting count p) (calls nesting count q) := by
  induction count generalizing p q with
  | zero => exact .nil
  | succ count ih =>
    have hr := Simulation.runs_next (S := moved n) nesting h
    unfold Simulation.Runs at hr
    unfold calls
    cases hp : Parse.next nesting p with
    | ok a p' =>
      rw [hp] at hr
      obtain ⟨-, b, q', hq, -, hs⟩ := hr
      rw [hq]
      cases hs with
      | none hm _ => exact .cons .done (ih hm)
      | @some a b _ _ hab hm _ _ =>
        have hb : a.mapLines (· + n) = b := hab.trans b.mapLines_id
        rw [← hb]
        exact .cons (.node a) (ih (hm.resolve_right False.elim))
    | error e p' =>
      rw [hp] at hr
      obtain ⟨-, e', q', hq, hf, hm⟩ := hr trivial
      rw [hq]
      exact .cons (.fault hf) (ih hm)

/-- Statements read further down are the same, with the lines moved. -/
theorem statements_of_moved (nesting : Nat) (h : p.Moved n q) {fuel fuel' : Nat}
    (hp : p.size < fuel) (hq : q.size < fuel') :
    match Parse.statements nesting fuel p with
    | .ok as _ => ∃ q', Parse.statements nesting fuel' q = .ok (as.map (Node.mapLines (· + n))) q'
    | .error e _ => ∃ e' q', Parse.statements nesting fuel' q = .error e' q' ∧ e.Alike e' := by
  have hr := Simulation.runs_statements (S := moved n) trivial nesting h hp hq
  unfold Simulation.Runs at hr
  split
  · next as p' hs =>
    rw [hs] at hr
    obtain ⟨-, bs, q', hq', -, hab, -⟩ := hr
    have hb : as.map (Node.mapLines (· + n)) = bs := by
      have hid := Node.mapLinesList_id bs
      rw [Node.mapLinesList_eq] at hid
      exact hab.trans hid
    exact ⟨q', hb ▸ hq'⟩
  · next e p' hs =>
    rw [hs] at hr
    obtain ⟨-, e', q', hq', hf, -⟩ := hr trivial
    exact ⟨e', q', hq', hf⟩

/-- A statement takes something of the text: two runs of one text, no lines apart, both do. -/
theorem size_lt_of_next {nesting : Nat} {p' : Parser} {node : Node}
    (h : Parse.next nesting p = .ok (some node) p') : p'.size < p.size := by
  have hm : p.Moved 0 p := ⟨⟨rfl, rfl⟩, rfl, rfl⟩
  have hr := Simulation.runs_next (S := moved 0) nesting hm
  unfold Simulation.Runs at hr
  rw [h] at hr
  obtain ⟨-, b, q', -, -, hs⟩ := hr
  cases hs with
  | some _ _ hlt _ => exact hlt

/-- More rounds than there is text left find no further statements. -/
theorem drainFrom_congr (nesting : Nat) {fuel fuel' : Nat} (h : p.size < fuel) (h' : p.size < fuel') :
    drainFrom nesting fuel p = drainFrom nesting fuel' p := by
  induction fuel generalizing fuel' p with
  | zero => omega
  | succ fuel ih =>
    cases fuel' with
    | zero => omega
    | succ fuel' =>
      unfold drainFrom
      cases hn : Parse.next nesting p with
      | error fault p' => rfl
      | ok a p' =>
        cases a with
        | none => rfl
        | some node =>
          have hlt := size_lt_of_next hn
          have hrest : drainFrom nesting fuel p' = drainFrom nesting fuel' p' :=
            ih (by omega) (by omega)
          simp only [hrest]

/-- The statements of a text are the first one and those of the text behind it. -/
theorem drain_of_next {nesting : Nat} {p' : Parser} {node : Node}
    (h : Parse.next nesting p = .ok (some node) p') :
    (p.drain nesting).1 = node :: (p'.drain nesting).1 := by
  have hlt := size_lt_of_next h
  have hc := drainFrom_congr nesting (show p'.size < p.size by omega) (Nat.lt_succ_self p'.size)
  have hd : (p.drain nesting).1 = node :: (drainFrom nesting p.size p').1 := by
    simp only [drain, drainFrom, h]
  rw [hd, hc]
  rfl

end Parser
end ScriptLang
