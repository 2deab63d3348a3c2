import ScriptLang.Proofs.Lexer.Splitting
import ScriptLang.Proofs.Parser.Moved
import ScriptLang.Proofs.Parser.Streams

/-! The course of one parser. What looking ahead and taking a token keep is kept by every rule of the
grammar, and the faults of looking ahead and of the grammar itself are all that a rule can end with. So a
text that is parsed was read to its end, and what cannot be read of a text is found by its lexer. -/
namespace ScriptLang

namespace Fault

def IsDiagnostic (e : Fault) : Prop :=
  ∃ d, e = .diagnostic d

/-- The fault is a diagnostic about the text rather than about its evaluation. -/
def OfText (e : Fault) : Prop :=
  ∃ d, e = .diagnostic d ∧ d.family.ofEvaluation = false

theorem ofText_atPosition {cause : Cause} (h : cause.family.ofEvaluation = false) (pos : Position)
    (file : String) : (atPosition cause pos file).OfText :=
  ⟨_, rfl, h⟩

end Fault

namespace Parser

structure Course where
  holds : Parser → Prop
  /-- The faults that may be met. -/
  faults : Fault → Prop
  holds_withSemicolon : ∀ {p} (b), holds p → holds (p.withSemicolon b)
  holds_peek : ∀ {p t p'}, holds p → Parse.peek p = .ok t p' → holds p'
  holds_taken : ∀ {p t}, holds p → p.Shows (some t) → holds p.taken
  faults_peek : ∀ {p e p'}, holds p → Parse.peek p = .error e p' → faults e
  faults_refused : ∀ (cause : Cause) (pos : Position) (file : String),
    cause.family = .grammatical → faults (.atPosition cause pos file)
  faults_nesting : faults .nesting

theorem ne_nesting_of_peek {p p' : Parser} {e : Fault} (h : Parse.peek p = .error e p') :
    e ≠ .nesting := by
  have hm : p.Moved 0 p := ⟨⟨rfl, rfl⟩, rfl, rfl⟩
  have hr := hm.peek
  rw [h] at hr
  cases hr with
  | fault _ hn _ => exact hn

namespace Course
variable (C : Course) {p p' : Parser}

def beside : Simulation where
  toEnding := .together
  left := id
  right := id
  faults e _ := C.faults e
  abreast p q := p = q ∧ C.holds p
  stopped _ _ := True
  semicolon_eq h := congrArg Parser.needsSemicolon h.1
  abreast_withSemicolon b h := ⟨congrArg (withSemicolon · b) h.1, C.holds_withSemicolon b h.2⟩
  abreast_peek {p q} h := by
    obtain ⟨rfl, hp⟩ := h
    cases hpeek : Parse.peek p with
    | ok t p' => exact Or.inl ⟨t, p', t, p', rfl, rfl, rfl, rfl, C.holds_peek hp hpeek⟩
    | error e p' =>
      have hfault := C.faults_peek hp hpeek
      exact Or.inr ⟨e, p', rfl, fun _ => ⟨ne_nesting_of_peek hpeek, e, p', rfl, hfault, trivial⟩⟩
  abreast_taken h hp _ _ := Or.inl ⟨congrArg taken h.1, C.holds_taken h.2 hp⟩
  stopped_of_abreast _ := trivial
  stopped_taken _ _ _ := trivial
  faults_refused cause _ hc := C.faults_refused cause _ _ hc
  faults_nesting := C.faults_nesting

/-- What a call for the next statement keeps, and which faults it ends with. -/
theorem next (nesting : Nat) (h : C.holds p) :
    match Parse.next nesting p with
    | .ok none p' => C.holds p' ∧ p'.Shows none
    | .ok (some _) p' => C.holds p'
    | .error e _ => C.faults e := by
  have hr := Simulation.runs_next (S := C.beside) nesting ⟨rfl, h⟩
  unfold Simulation.Runs at hr
  cases hn : Parse.next nesting p with
  | error e p' =>
    rw [hn] at hr
    obtain ⟨-, e', q', -, he, -⟩ := hr trivial
    exact he
  | ok a p' =>
    rw [hn] at hr
    obtain ⟨-, b, q', -, -, hstated⟩ := hr
    cases hstated with
    | none hb hs => exact ⟨hb.2, hs⟩
    | some _ hb _ _ => exact (hb.resolve_right False.elim).2

end Course

/-! A text that cannot be read to its end. -/

def endless : Course where
  holds p := ∀ ts, ¬p.Reads ts
  faults _ := True
  holds_withSemicolon {p} b h ts hr := by
    have hb := hr.withSemicolon p.needsSemicolon
    exact h ts hb
  holds_peek {p t p'} h hp ts hr := by
    have hpeek := Parse.peek_of_shows (Parse.shows_of_peek hp)
    obtain ⟨q, hq, -⟩ := hr.peek
    rw [hpeek] at hq
    cases ts with
    | nil =>
      cases hq
      exact h [] (reads_nil ⟨p', hp⟩)
    | cons u us =>
      cases hq
      obtain ⟨us', hus, hrest⟩ := hr.taken (Parse.shows_of_peek hp)
      exact h (u :: us') (reads_cons hp hrest)
  holds_taken {p t} h hs ts hr := h (t :: ts) (reads_cons (Parse.peek_of_shows hs) hr)
  faults_peek _ _ := trivial
  faults_refused _ _ _ _ := trivial
  faults_nesting := trivial

/-- A text that parses to its end is read to its end. -/
theorem reads_of_statements {nesting fuel : Nat} {p q : Parser} {nodes : List Node}
    (h : Parse.statements nesting fuel p = .ok nodes q) : ∃ ts, p.Reads ts := by
  by_contra hno
  have hp : endless.holds p := fun ts hr => hno ⟨ts, hr⟩
  clear hno
  induction fuel generalizing p q nodes with
  | zero => cases h
  | succ fuel ih =>
    obtain ⟨node, p₁, hn, hrest⟩ := ok_of_bind h
    have hcourse := endless.next nesting hp
    rw [hn] at hcourse
    cases node with
    | none =>
      exact hcourse.1 [] (reads_nil ⟨p₁, Parse.peek_of_shows hcourse.2⟩)
    | some node =>
      obtain ⟨nodes', p₂, hnodes, -⟩ := ok_of_bind hrest
      exact ih hnodes hcourse

/-- All significant tokens of a text that is parsed can be read. -/
theorem significant_of_parse {nesting : Nat} {text file : String} {nodes : List Node}
    (h : parse nesting text file = .ok nodes) : ∃ ts, (ofText text file).significant = .ok ts := by
  rw [parse_eq] at h
  split at h
  · next nodes' q hs =>
    obtain ⟨ts, hr⟩ := reads_of_statements hs
    exact ⟨ts, significant_eq_ok_iff.mpr hr⟩
  · cases h

end Parser

/-! The faults of reading a text. -/

def HasLongNumeral (cs : List Char) : Prop :=
  ∃ digits, digits <:+: cs ∧ (∀ c ∈ digits, c.isDigit = true) ∧ Text.digitLimit < digits.length

/-- A numeral that is too long for the end of a text is one in the text. -/
theorem HasLongNumeral.of_suffix {cs rest : List Char} (h : HasLongNumeral rest) (hs : rest <:+ cs) :
    HasLongNumeral cs := by
  obtain ⟨digits, hi, hd, hl⟩ := h
  exact ⟨digits, hi.trans hs.isInfix, hd, hl⟩

/-- A numeral is too long only if it has more digits than the limit. -/
theorem length_of_integerLexeme {cs : List Char} (h : integerLexeme cs = .error .numeralTooLong) :
    Text.digitLimit < cs.length := by
  unfold integerLexeme at h
  split at h
  · assumption
  · simp only at h
    split at h <;> cases h

namespace Cursor

theorem Reaches.suffix {c d : Cursor} (h : c.Reaches d) : d.rest <:+ c.rest := by
  obtain ⟨passed, hrest, -⟩ := h
  exact ⟨passed, hrest.symm⟩

/-- Reading fails with a diagnostic about the text, unless a numeral is too long. -/
theorem fault_of_read {c d : Cursor} {e : Fault} (h : read c = .error e d) :
    e.OfText ∨ (e = .numeralTooLong ∧ HasLongNumeral c.rest) := by
  obtain ⟨space, x, xs, failure, -, hx, hrest, hscan, -, rfl⟩ := scan_of_read_error h
  cases failure with
  | unreadable y => exact Or.inl (Fault.ofText_atPosition rfl _ _)
  | integerTooLarge => exact Or.inl (Fault.ofText_atPosition rfl _ _)
  | numeralTooLong =>
    rcases scan_error_cases hx hscan with ⟨-, hf⟩ | ⟨tail, rest, hdigits, -, rfl, hi, -⟩
    · cases hf
    · refine Or.inr ⟨rfl, x :: tail, ⟨space, rest, ?_⟩, hdigits, length_of_integerLexeme hi⟩
      rw [hrest]
      simp

/-- Reading fails at the text, or at a numeral in it that is too long. -/
theorem fault_of_readSignificant {c d : Cursor} {e : Fault} (h : readSignificant c = .error e d) :
    e.OfText ∨ (e = .numeralTooLong ∧ HasLongNumeral c.rest) := by
  fun_induction readSignificant c with
  | case1 c t c' hread hc ih =>
    have hsuffix := ((reaches_of_read hread).trans (reaches_skipWhile c' (· != '\n'))).suffix
    exact (ih h).imp_right fun hl => ⟨hl.1, hl.2.of_suffix hsuffix⟩
  | case2 c t c' hread hc => cases h
  | case3 c c' hread => cases h
  | case4 c fault c' hread =>
    cases h
    exact fault_of_read hread

end Cursor

namespace Parser
variable {p p' : Parser} {e : Fault} {t : Option Token}

/-- Looking ahead shows what is seen already, or reads on from where the parser is in its text. -/
theorem peek_cases (p : Parser) :
    (∃ t, Parse.peek p = .ok t p) ∨
      ∃ c, p.lexer.cursor.Reaches c ∧ Parse.peek p = p.resume c.readSignificant := by
  have hself : p.lexer.cursor.Reaches p.lexer.cursor := ⟨[], rfl, rfl, rfl⟩
  rw [Parse.peek_eq]
  split
  · exact Or.inr ⟨_, hself, rfl⟩
  · next t _ =>
    split
    · exact Or.inr ⟨_, p.lexer.cursor.reaches_skipWhile _, rfl⟩
    · exact Or.inl ⟨t, rfl⟩

theorem suffix_of_peek (h : Parse.peek p = .ok t p') :
    p'.lexer.cursor.rest <:+ p.lexer.cursor.rest := by
  rcases peek_cases p with ⟨u, hp⟩ | ⟨c, hc, hp⟩
  · cases hp.symm.trans h
    exact List.suffix_refl _
  · cases hr : c.readSignificant with
    | error fault d =>
      rw [hr] at hp
      cases hp.symm.trans h
    | ok u d =>
      rw [hr] at hp
      cases hp.symm.trans h
      exact (hc.trans (Cursor.reaches_of_readSignificant hr)).suffix

theorem fault_of_peek (h : Parse.peek p = .error e p') :
    e.OfText ∨ (e = .numeralTooLong ∧ HasLongNumeral p.lexer.cursor.rest) := by
  rcases peek_cases p with ⟨u, hp⟩ | ⟨c, hc, hp⟩
  · cases hp.symm.trans h
  · cases hr : c.readSignificant with
    | ok u d =>
      rw [hr] at hp
      cases hp.symm.trans h
    | error fault d =>
      rw [hr] at hp
      cases hp.symm.trans h
      have hfault := Cursor.fault_of_readSignificant hr
      exact hfault.imp_right fun hl => ⟨hl.1, hl.2.of_suffix hc.suffix⟩

def within (text : String) : Course where
  holds p := p.lexer.cursor.rest <:+ text.toList
  faults e := e.OfText ∨ e = .nesting ∨ (e = .numeralTooLong ∧ HasLongNumeral text.toList)
  holds_withSemicolon _ h := h
  holds_peek h hp := (suffix_of_peek hp).trans h
  holds_taken h _ := h
  faults_peek h hp := (fault_of_peek hp).imp_right fun hl => Or.inr ⟨hl.1, hl.2.of_suffix h⟩
  faults_refused cause pos file hcause := Or.inl (Fault.ofText_atPosition (by rw [hcause]; rfl) pos file)
  faults_nesting := Or.inr (Or.inl rfl)

end Parser
end ScriptLang
