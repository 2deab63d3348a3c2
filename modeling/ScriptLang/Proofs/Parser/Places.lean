import ScriptLang.Proofs.Parser.Courses
import ScriptLang.Proofs.Parser.Phrases

/-! Where a parser stands in its text. The text falls apart into what was consumed, the token that was looked
ahead to, and what is unread, and the place of the parser is the one behind the first of them. So a diagnostic
points at the first token that was not consumed, or at the first character that was not read. -/
namespace ScriptLang

/-- The token is written in the text right behind `before`, and placed there. -/
def Token.WrittenBehind (t : Token) (before text : List Char) : Prop :=
  ∃ written rest, text = before ++ (written ++ rest) ∧ Longest t.lexeme written rest ∧ t.pos = .behind before

def Token.EndsWithin (t : Token) (front text : List Char) : Prop :=
  ∃ before written rest, text = before ++ (written ++ rest) ∧ Longest t.lexeme written rest ∧
    t.pos = .behind before ∧ before ++ written <+: front

theorem Token.EndsWithin.mono {t : Token} {front front' text : List Char} (h : t.EndsWithin front text)
    (hf : front <+: front') : t.EndsWithin front' text := by
  obtain ⟨before, written, rest, htext, hl, hpos, hend⟩ := h
  exact ⟨before, written, rest, htext, hl, hpos, hend.trans hf⟩

theorem Longest.ne_nil {l : Lexeme} {written rest : List Char} (h : Longest l written rest) :
    written ≠ [] := by
  obtain ⟨c, tail, rfl, -⟩ := scan_of_longest h
  exact List.cons_ne_nil c tail

namespace Cursor
variable {c d : Cursor}

/-- A token read behind comments is read at some place ahead. -/
theorem exists_read_of_readSignificant {t : Token} (h : readSignificant c = .ok (some t) d) :
    ∃ e, c.Reaches e ∧ read e = .ok (some t) d := by
  fun_induction readSignificant c with
  | case1 c u c' hread hc ih =>
    obtain ⟨e, he, hr⟩ := ih h
    exact ⟨e, (reaches_of_read hread).trans ((reaches_skipWhile c' _).trans he), hr⟩
  | case2 c u c' hread hc =>
    cases h
    exact ⟨c, ⟨[], rfl, rfl, rfl⟩, hread⟩
  | case3 c c' hread => cases h
  | case4 c fault c' hread => cases h

/-- What is read significantly is written right behind a cursor further on. -/
theorem written_of_readSignificant {t : Token} (h : readSignificant c = .ok (some t) d) :
    ∃ e written, c.Reaches e ∧ t.pos = e.pos ∧ Longest t.lexeme written d.rest ∧
      e.rest = written ++ d.rest ∧ d.pos = e.pos.after written ∧ d.file = e.file := by
  obtain ⟨c', hc', hread⟩ := exists_read_of_readSignificant h
  obtain ⟨space, written, -, hl, hrest, hpos, hd⟩ := longest_of_read hread
  have hspace : c'.Reaches ⟨written ++ d.rest, c'.pos.after space, c'.file⟩ := ⟨space, hrest, rfl, rfl⟩
  have hdpos : d.pos = (c'.pos.after space).after written := by rw [hd]
  have hdfile : d.file = c'.file := by rw [hd]
  exact ⟨⟨written ++ d.rest, c'.pos.after space, c'.file⟩, written, hc'.trans hspace, hpos, hl, rfl,
    hdpos, hdfile⟩

/-- Where reading fails, a diagnostic is placed at the cursor that is left. -/
theorem fault_of_read_error {e : Fault} (h : read c = .error e d) :
    c.Reaches d ∧ (e = .numeralTooLong ∨ ∃ cause, e = .atPosition cause d.pos d.file) := by
  obtain ⟨space, x, xs, failure, -, -, hrest, -, rfl, rfl⟩ := scan_of_read_error h
  constructor
  · refine ⟨space ++ (scan x xs).taken, ?_, (Position.after_append ..).symm, rfl⟩
    rw [List.append_assoc, scan_append, hrest]
  · cases failure with
    | unreadable y => exact Or.inr ⟨_, rfl⟩
    | numeralTooLong => exact Or.inl rfl
    | integerTooLarge => exact Or.inr ⟨_, rfl⟩

/-- A failure to read stands at the place where reading stopped. -/
theorem fault_of_readSignificant_error {e : Fault} (h : readSignificant c = .error e d) :
    c.Reaches d ∧ (e = .numeralTooLong ∨ ∃ cause, e = .atPosition cause d.pos d.file) := by
  fun_induction readSignificant c with
  | case1 c t c' hread hc ih =>
    obtain ⟨hreach, hfault⟩ := ih h
    exact ⟨(reaches_of_read hread).trans ((reaches_skipWhile c' _).trans hreach), hfault⟩
  | case2 c t c' hread hc => cases h
  | case3 c c' hread => cases h
  | case4 c fault c' hread =>
    cases h
    exact fault_of_read_error hread

end Cursor

namespace Parser

/-- The text is what stands before the parser, what is written of the token it has looked ahead to, and what
it has not read. The tokens `ts` are among what stands before it. -/
structure Stands (text file : String) (ts : List Token) (before written : List Char) (p : Parser) :
    Prop where
  split : text.toList = before ++ (written ++ p.lexer.cursor.rest)
  pos : p.lexer.cursor.pos = .behind (before ++ written)
  file : p.lexer.cursor.file = file
  ahead : match p.lexer.ahead with
    | some (some t) => t.pos = .behind before ∧ t.lexeme.isComment = false ∧
        Longest t.lexeme written p.lexer.cursor.rest
    | some none => written = [] ∧ p.lexer.cursor.rest = []
    | none => written = []
  taken : ∀ t ∈ ts, t.EndsWithin before text.toList

variable {text file : String} {p q r : Parser} {ts us : List Token} {before written : List Char}
  {t : Token}

/-- A parser stands in front of its text before it has read anything. -/
theorem stands_ofText (text file : String) : (ofText text file).Stands text file [] [] [] where
  split := rfl
  pos := rfl
  file := rfl
  ahead := rfl
  taken := List.forall_mem_nil _

namespace Stands

theorem place (h : p.Stands text file ts before written) : p.place = .behind before := by
  have ha := h.ahead
  have hpos := h.pos
  unfold Parser.place
  split at ha
  · next t heq =>
    rw [heq]
    exact ha.1
  · next heq =>
    rw [heq]
    rwa [ha.1, List.append_nil] at hpos
  · next heq =>
    rw [heq]
    rwa [ha, List.append_nil] at hpos

/-- The token that a parser shows is written behind the text in front of it. -/
theorem shown (h : p.Stands text file ts before written) (hs : p.lexer.ahead = some (some t)) :
    p.Shows (some t) ∧ t.WrittenBehind before text.toList := by
  have ha := h.ahead
  rw [hs] at ha
  obtain ⟨hpos, hc, hl⟩ := ha
  exact ⟨⟨hs, hc⟩, written, _, h.split, hl, hpos⟩

theorem tell (h : p.Stands text file ts before written) (needed : Bool) :
    (p.withSemicolon needed).Stands text file ts before written :=
  ⟨h.split, h.pos, h.file, h.ahead, h.taken⟩

/-- A token that is taken ends where the parser stands then. -/
theorem take (h : p.Stands text file ts before written) (hs : p.Shows (some t)) :
    p.taken.Stands text file (ts ++ [t]) (before ++ written) [] ∧ written ≠ [] := by
  have ha := h.ahead
  rw [hs.ahead] at ha
  obtain ⟨hpos, -, hl⟩ := ha
  have hsplit : text.toList = before ++ written ++ ([] ++ p.lexer.cursor.rest) := by
    rw [List.nil_append, List.append_assoc]
    exact h.split
  refine ⟨⟨hsplit, by rw [List.append_nil]; exact h.pos, h.file, rfl, ?_⟩, hl.ne_nil⟩
  intro u hu
  rcases List.mem_append.mp hu with hu | hu
  · exact (h.taken u hu).mono (List.prefix_append before written)
  · cases List.mem_singleton.mp hu
    exact ⟨before, written, _, h.split, hl, hpos, List.prefix_rfl⟩

theorem past (h : p.Stands text file ts before written) (hs : p.Shows none) :
    p.taken.Stands text file ts before [] ∧ p.lexer.cursor.rest = [] := by
  have ha := h.ahead
  rw [hs.ahead] at ha
  obtain ⟨rfl, hrest⟩ := ha
  exact ⟨⟨h.split, h.pos, h.file, rfl, h.taken⟩, hrest⟩

/-- A cursor further on stands further on, with nothing looked ahead to yet. -/
theorem onward {d : Cursor} (h : p.Stands text file ts before written)
    (hd : p.lexer.cursor.Reaches d) : ∃ before', before <+: before' ∧
      (⟨⟨d, none⟩, p.needsSemicolon⟩ : Parser).Stands text file ts before' [] := by
  obtain ⟨passed, hrest, hpos, hfile⟩ := hd
  have hprefix : before <+: before ++ written ++ passed := by
    rw [List.append_assoc]
    exact List.prefix_append _ _
  refine ⟨before ++ written ++ passed, hprefix, ?_, ?_, hfile.trans h.file, rfl, ?_⟩
  · rw [h.split, hrest]
    simp
  · rw [List.append_nil, ← Position.behind_after, ← h.pos]
    exact hpos
  · exact fun u hu => (h.taken u hu).mono hprefix

/-- Looking ahead finds a token further on, or the end. -/
theorem resume {c : Cursor} {t : Option Token} (h : p.Stands text file ts before written)
    (hc : p.lexer.cursor.Reaches c) (hr : p.resume c.readSignificant = .ok t q) :
    ∃ before' written', before <+: before' ∧ q.Stands text file ts before' written' := by
  cases hs : c.readSignificant with
  | error fault d =>
    rw [hs] at hr
    cases hr
  | ok u d =>
    rw [hs] at hr
    cases hr
    cases t with
    | none =>
      have hend := c.length_readSignificant
      rw [hs] at hend
      obtain ⟨before', hprefix, hstands⟩ := h.onward (hc.trans (Cursor.reaches_of_readSignificant hs))
      exact ⟨before', [], hprefix, hstands.split, hstands.pos, hstands.file, ⟨rfl, hend⟩, hstands.taken⟩
    | some t =>
      obtain ⟨e, written', he, hpos, hl, hrest, hd, hfile⟩ := Cursor.written_of_readSignificant hs
      obtain ⟨before', hprefix, hstands⟩ := h.onward (hc.trans he)
      have hplace : e.pos = .behind before' := by
        have hp := hstands.pos
        rwa [List.append_nil] at hp
      have hcomment : t.lexeme.isComment = false := by
        simpa using Cursor.not_isComment_of_readSignificant hs
      refine ⟨before', written', hprefix, ?_, ?_, hfile.trans hstands.file,
        ⟨hpos.trans hplace, hcomment, hl⟩, hstands.taken⟩
      · have hsplit := hstands.split
        rwa [List.nil_append, hrest] at hsplit
      · rw [← Position.behind_after, ← hplace]
        exact hd

/-- Looking ahead only moves a parser further on in its text. -/
theorem peek {t : Option Token} (h : p.Stands text file ts before written)
    (hp : Parse.peek p = .ok t q) :
    ∃ before' written', before <+: before' ∧ q.Stands text file ts before' written' := by
  rcases peek_cases p with ⟨u, hu⟩ | ⟨c, hc, hr⟩
  · cases hu.symm.trans hp
    exact ⟨before, written, List.prefix_rfl, h⟩
  · exact h.resume hc (hr.symm.trans hp)

/-- Where looking ahead fails, nothing is looked ahead to, and a diagnostic is at the place of the parser. -/
theorem unread {e : Fault} (h : p.Stands text file ts before written) (hp : Parse.peek p = .error e q) :
    ∃ before', before <+: before' ∧ q.Stands text file ts before' [] ∧ q.lexer.ahead = none ∧
      (e = .numeralTooLong ∨ ∃ cause, e = .atPosition cause q.place q.file) := by
  rcases peek_cases p with ⟨u, hu⟩ | ⟨c, hc, hr⟩
  · cases hu.symm.trans hp
  · cases hs : c.readSignificant with
    | ok u d =>
      rw [hs] at hr
      cases hr.symm.trans hp
    | error fault d =>
      rw [hs] at hr
      cases hr.symm.trans hp
      obtain ⟨hreach, hfault⟩ := Cursor.fault_of_readSignificant_error hs
      obtain ⟨before', hprefix, hstands⟩ := h.onward (hc.trans hreach)
      exact ⟨before', hprefix, hstands, rfl, hfault⟩

end Stands

/-- Whatever is done to a parser moves it on, by a character at least for every token that is taken. -/
theorem Passes.stands (h : p.Passes us q) (hp : p.Stands text file ts before written) :
    ∃ before' written', before <+: before' ∧ before.length + us.length ≤ before'.length ∧
      q.Stands text file (ts ++ us) before' written' := by
  induction h generalizing ts before written with
  | refl => exact ⟨before, written, List.prefix_rfl, Nat.le_refl _, by rwa [List.append_nil]⟩
  | peek hpeek _ ih =>
    obtain ⟨before₁, written₁, hprefix, h₁⟩ := hp.peek hpeek
    obtain ⟨before', written', hprefix', hlength, hq⟩ := ih h₁
    have hle := hprefix.length_le
    exact ⟨before', written', hprefix.trans hprefix', by omega, hq⟩
  | @take p q t us hs _ ih =>
    obtain ⟨h₁, hne⟩ := hp.take hs
    obtain ⟨before', written', hprefix, hlength, hq⟩ := ih h₁
    have hpos := List.length_pos_iff.mpr hne
    rw [List.length_append] at hlength
    rw [List.append_assoc] at hq
    refine ⟨before', written', (List.prefix_append before written).trans hprefix, ?_, hq⟩
    rw [List.length_cons]
    omega
  | past hs _ ih => exact ih (hp.past hs).1
  | tell needed _ ih => exact ih (hp.tell needed)

/-- The tokens that were taken are those that draining the parser gives first, and so is what follows them. -/
theorem Passes.drains (h : p.Passes ts q) (hp : p.Stands text file [] before written)
    (hq : q.Drains us r) : ∃ r', p.Drains (ts ++ us) r' := by
  induction h generalizing before written with
  | @refl p => exact ⟨r, hq⟩
  | @peek p p' q t ts hpeek _ ih =>
    obtain ⟨_, _, -, h₁⟩ := hp.peek hpeek
    obtain ⟨r', hr'⟩ := ih h₁ hq
    cases hts : ts ++ us with
    | nil => exact ⟨p, .nil⟩
    | cons u vs =>
      rw [hts] at hr'
      cases hr' with
      | cons hu hrest =>
        rw [Parse.peek_of_shows (Parse.shows_of_peek hpeek)] at hu
        cases hu
        exact ⟨r', .cons hpeek hrest⟩
  | @take p q t ts hs _ ih =>
    have hclear : p.taken.Stands text file [] (before ++ written) [] := by
      have h₁ := (hp.take hs).1
      exact ⟨h₁.split, h₁.pos, h₁.file, h₁.ahead, List.forall_mem_nil _⟩
    obtain ⟨r', hr'⟩ := ih hclear hq
    exact ⟨r', .cons (Parse.peek_of_shows hs) hr'⟩
  | @past p q ts hs _ ih =>
    obtain ⟨h₁, hrest⟩ := hp.past hs
    obtain ⟨r', hr'⟩ := ih h₁ hq
    cases hts : ts ++ us with
    | nil => exact ⟨p, .nil⟩
    | cons u vs =>
      rw [hts] at hr'
      cases hr' with
      | cons hu _ =>
        have hread : Cursor.read p.lexer.cursor = .ok none (p.lexer.cursor.skipWhile isSpace) := by
          rcases Cursor.read_cases p.lexer.cursor with ⟨-, hr⟩ | ⟨x, xs, hx, -⟩
          · exact hr
          · rw [hrest] at hx
            cases hx
        rw [Parse.peek_eq] at hu
        simp only [taken, Cursor.readSignificant_of_end hread] at hu
        cases hu
  | @tell p q ts needed _ ih =>
    obtain ⟨r', hr'⟩ := ih (hp.tell needed) hq
    exact ⟨_, hr'.withSemicolon p.needsSemicolon⟩

/-- The parser is left somewhere in its text by a fault, too, and a diagnostic is at its place. -/
theorem Stops.stands {e : Fault} (h : p.Stops us e q) (hp : p.Stands text file ts before written) :
    ∃ before' written', before <+: before' ∧ q.Stands text file (ts ++ us) before' written' ∧
      ∀ d, e = .diagnostic d → ∃ cause, e = .atPosition cause q.place q.file := by
  cases h with
  | unread hr he =>
    obtain ⟨before₁, _, hprefix, -, h₁⟩ := hr.stands hp
    obtain ⟨before', hprefix', hq, -, hfault⟩ := h₁.unread he
    refine ⟨before', [], hprefix.trans hprefix', hq, ?_⟩
    rintro d rfl
    exact hfault.resolve_left nofun
  | refused cause hr =>
    obtain ⟨before', written', hprefix, -, hq⟩ := hr.stands hp
    exact ⟨before', written', hprefix, hq, fun _ _ => ⟨cause, rfl⟩⟩
  | exhausted hr he =>
    obtain ⟨before', written', hprefix, -, hq⟩ := hr.stands hp
    refine ⟨before', written', hprefix, hq, ?_⟩
    rintro d rfl
    rcases he with he | he <;> cases he

/-- Calls for the next statement lead from the start of the text to the parser, and all are answered. -/
inductive Answered (text file : String) : Parser → Prop
  | start : Answered text file (ofText text file)
  | next {nesting : Nat} {p q : Parser} {node : Option Node} : Answered text file p →
    Parse.next nesting p = .ok node q → Answered text file q

theorem Answered.passes (h : Answered text file p) : ∃ ts, (ofText text file).Passes ts p := by
  induction h with
  | start => exact ⟨[], .refl⟩
  | @next nesting p q node _ hn ih =>
    obtain ⟨ts, hts⟩ := ih
    obtain ⟨us, hus, -⟩ := (Parse.traced_next nesting p).of_ok hn
    exact ⟨ts ++ us, hts.trans hus.passes⟩

/-- A diagnostic is placed between `before` and `after`, which the text consists of: not before the end of
any of the tokens `ts`, and not behind what the parser has read. There the first token starts that was not
taken, if it is looked ahead to, and else the text that was not read. -/
structure PointsBetween (d : Diagnostic) (text file : String) (ts : List Token) (q : Parser)
    (before after : List Char) : Prop where
  split : text.toList = before ++ after
  line : d.line = some ((Position.behind before).line : Int)
  col : d.col = some ((Position.behind before).col : Int)
  source : d.file = some file
  taken : ∀ t ∈ ts, t.EndsWithin before text.toList
  unread : q.lexer.cursor.rest <:+ after
  ahead : match q.lexer.ahead with
    | some (some t) => t.WrittenBehind before text.toList ∧ ∃ r, (ofText text file).Drains (ts ++ [t]) r
    | _ => after = q.lexer.cursor.rest

/-- A token that is looked ahead to when the parser stops is the one behind those that were taken. -/
theorem Stops.drains {e : Fault} (h : p.Stops ts e q) (hp : p.Stands text file [] before written)
    (hs : q.Shows (some t)) : ∃ r, p.Drains (ts ++ [t]) r := by
  have hq : q.Drains [t] q.taken := .cons (Parse.peek_of_shows hs) .nil
  cases h with
  | unread hr he =>
    obtain ⟨_, _, -, -, h₁⟩ := hr.stands hp
    obtain ⟨_, -, -, hahead, -⟩ := h₁.unread he
    cases hahead.symm.trans hs.ahead
  | refused cause hr => exact hr.drains hp hq
  | exhausted hr _ => exact hr.drains hp hq

/-- Every syntax error points into the text, at the lookahead of the parser. -/
theorem faults_point_at_lookahead {nesting : Nat} {d : Diagnostic} (hp : Answered text file p)
    (h : Parse.next nesting p = .error (.diagnostic d) q) :
    ∃ ts before after, (ofText text file).Stops ts (.diagnostic d) q ∧
      PointsBetween d text file ts q before after := by
  obtain ⟨ts, hts⟩ := hp.passes
  obtain ⟨us, hus⟩ := (Parse.traced_next nesting p).of_error h
  have hstops := hts.stops hus
  obtain ⟨before, written, -, hq, hplace⟩ := hstops.stands (stands_ofText text file)
  obtain ⟨cause, hcause⟩ := hplace d rfl
  rw [hq.place] at hcause
  cases hcause
  refine ⟨ts ++ us, before, written ++ q.lexer.cursor.rest, hstops, hq.split, rfl, rfl,
    congrArg some hq.file, hq.taken, List.suffix_append _ _, ?_⟩
  have hahead := hq.ahead
  split
  · next t hs =>
    obtain ⟨hshows, hwritten⟩ := hq.shown hs
    exact ⟨hwritten, hstops.drains (stands_ofText text file) hshows⟩
  · next hnone =>
    split at hahead
    · next t heq => exact absurd heq (hnone t)
    · rw [hahead.1, List.nil_append]
    · rw [hahead, List.nil_append]

/-- The second call of a text takes a name and an operator behind a comment, and stops at the semicolon. -/
theorem faults_point_at_lookahead_behind_comment :
    ∃ q ts before after,
      (ofText "x; // c\ny + ;" "f").Stops ts (.atPosition (.unexpected ";") ⟨2, 4⟩ "f") q ∧
        PointsBetween ⟨.unexpected ";", some 2, some 4, some "f"⟩ "x; // c\ny + ;" "f" ts q before after := by
  have hfirst : Parse.next 2 (ofText "x; // c\ny + ;" "f") = .ok (some (.reference 1 "x"))
      ⟨⟨⟨" // c\ny + ;".toList, ⟨1, 2⟩, "f"⟩, none⟩, true⟩ := by cbv
  have hsecond : Parse.next 2 ⟨⟨⟨" // c\ny + ;".toList, ⟨1, 2⟩, "f"⟩, none⟩, true⟩ =
      .error (.atPosition (.unexpected ";") ⟨2, 4⟩ "f")
        ⟨⟨⟨[], ⟨2, 5⟩, "f"⟩, some (some ⟨.punctuation ';', ⟨2, 4⟩⟩)⟩, true⟩ := by cbv
  exact ⟨_, faults_point_at_lookahead (.next .start hfirst) hsecond⟩

end Parser
end ScriptLang
