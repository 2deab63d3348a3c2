import ScriptLang.Parser.Grammar
import ScriptLang.Proofs.Lexer.Reading
import ScriptLang.Proofs.Steps

/-! The significant tokens that a parser sees. Looking ahead reads past comments, taking a token is
looking ahead and dropping what was seen, and each token taken makes the parser smaller. -/
namespace ScriptLang

namespace Parser

def taken (p : Parser) : Parser :=
  { p with lexer := { p.lexer with ahead := none } }

structure Shows (p : Parser) (t : Option Token) : Prop where
  ahead : p.lexer.ahead = some t
  significant : t.any (·.lexeme.isComment) = false

/-- What looking ahead may come to: it shows what it found or fails, and never makes the parser larger. -/
def Seen (p : Parser) : EStateM.Result Fault Parser (Option Token) → Prop
  | .ok t p' => p'.Shows t ∧ p'.needsSemicolon = p.needsSemicolon ∧ p'.size ≤ p.size
  | .error _ p' => p'.needsSemicolon = p.needsSemicolon ∧ p'.size ≤ p.size

def Ended (p : Parser) : Prop :=
  ∃ p', Parse.peek p = .ok none p'

def withSemicolon (p : Parser) (needed : Bool) : Parser :=
  { p with needsSemicolon := needed }

def resume (p : Parser) :
    EStateM.Result Fault Cursor (Option Token) → EStateM.Result Fault Parser (Option Token)
  | .ok t c => .ok t { p with lexer := ⟨c, some t⟩ }
  | .error fault c => .error fault { p with lexer := ⟨c, none⟩ }

end Parser

namespace Parse

theorem ofLexer_peek_of_none {p : Parser} (h : p.lexer.ahead = none) :
    ofLexer Lexer.peek p = p.resume (Cursor.read p.lexer.cursor) := by
  simp only [ofLexer, Lexer.peek, h]
  cases Cursor.read p.lexer.cursor <;> simp [Parser.resume]

theorem ofLexer_peek_of_some {p : Parser} {t : Option Token} (h : p.lexer.ahead = some t) :
    ofLexer Lexer.peek p = .ok t p := by
  simp only [ofLexer, Lexer.peek, h]

/-- With room for the text that is left, dropping comments never runs out. -/
theorem skipComments_eq (fuel : Nat) (p : Parser) (h : p.lexer.cursor.rest.length < fuel) :
    skipComments fuel p =
      p.resume (p.lexer.cursor.skipWhile (· != '\n')).readSignificant := by
  induction fuel generalizing p with
  | zero => omega
  | succ fuel ih =>
    let c := p.lexer.cursor.skipWhile (· != '\n')
    have hl : c.rest.length ≤ p.lexer.cursor.rest.length := Cursor.length_skipWhile_le _ _
    have hp : ofLexer Lexer.peek { p with lexer := ⟨c, none⟩ } = p.resume (Cursor.read c) :=
      ofLexer_peek_of_none rfl
    have hs : skipComments (fuel + 1) p = EStateM.bind (ofLexer Lexer.peek)
        (fun token => if token.any (·.lexeme.isComment) then skipComments fuel else pure token)
        { p with lexer := ⟨c, none⟩ } := rfl
    rw [hs, Cursor.readSignificant, EStateM.bind, hp]
    cases hr : Cursor.read c with
    | ok t c' =>
      cases t with
      | none => rfl
      | some t =>
        simp only [Parser.resume, Option.any_some]
        have hc := Cursor.length_read_lt hr
        split
        · refine ih _ ?_
          show c'.rest.length < fuel
          omega
        · rfl
    | error fault c' => rfl

/-- Looking ahead shows the token held, or goes on to the next that is no comment. -/
theorem peek_eq (p : Parser) :
    peek p = match p.lexer.ahead with
      | none => p.resume p.lexer.cursor.readSignificant
      | some t =>
        if t.any (·.lexeme.isComment) then
          p.resume (p.lexer.cursor.skipWhile (· != '\n')).readSignificant
        else .ok t p := by
  have hb : peek p = EStateM.bind (ofLexer Lexer.peek) (fun token =>
      if token.any (·.lexeme.isComment) then EStateM.bind EStateM.get
        (fun q => skipComments (q.size + 1)) else pure token) p := rfl
  rw [hb, EStateM.bind]
  cases ha : p.lexer.ahead with
  | none =>
    rw [ofLexer_peek_of_none ha, Cursor.readSignificant]
    cases hr : Cursor.read p.lexer.cursor with
    | ok t c =>
      cases t with
      | none => rfl
      | some t =>
        simp only [Parser.resume, Option.any_some]
        split
        · exact skipComments_eq _ _ (by simp only [Parser.size, Lexer.size]; omega)
        · rfl
    | error fault c => rfl
  | some t =>
    rw [ofLexer_peek_of_some ha]
    simp only
    split
    · exact skipComments_eq _ _ (by simp only [Parser.size, Lexer.size]; omega)
    · rfl

theorem seen_resume (p : Parser) (c : Cursor) (hc : c.rest.length ≤ p.lexer.cursor.rest.length) :
    p.Seen (p.resume c.readSignificant) := by
  have hl := c.length_readSignificant
  cases hr : c.readSignificant with
  | ok t c' =>
    rw [hr] at hl
    refine ⟨⟨rfl, Cursor.not_isComment_of_readSignificant hr⟩, rfl, ?_⟩
    cases t with
    | none =>
      simp only [Parser.size, Lexer.size, hl, List.length_nil]
      omega
    | some t =>
      simp only [Parser.size, Lexer.size] at hl ⊢
      omega
  | error fault c' =>
    rw [hr] at hl
    refine ⟨rfl, ?_⟩
    simp only [Parser.size, Lexer.size] at hl ⊢
    omega

/-- Looking ahead never moves a parser backwards, and a token it shows is shown from then on. -/
theorem seen_peek (p : Parser) : p.Seen (peek p) := by
  rw [peek_eq]
  split
  · exact seen_resume p _ (Nat.le_refl _)
  · next t ha =>
    split
    · exact seen_resume p _ (Cursor.length_skipWhile_le _ _)
    · next hc => exact ⟨⟨ha, by simpa using hc⟩, rfl, Nat.le_refl _⟩

theorem shows_of_peek {p p' : Parser} {t : Option Token} (h : peek p = .ok t p') : p'.Shows t := by
  have hs := seen_peek p
  rw [h] at hs
  exact hs.1

theorem semicolon_of_peek {p p' : Parser} {t : Option Token} (h : peek p = .ok t p') :
    p'.needsSemicolon = p.needsSemicolon := by
  have hs := seen_peek p
  rw [h] at hs
  exact hs.2.1

theorem size_peek_le {p p' : Parser} {t : Option Token} (h : peek p = .ok t p') :
    p'.size ≤ p.size := by
  have hs := seen_peek p
  rw [h] at hs
  exact hs.2.2

theorem peek_of_shows {p : Parser} {t : Option Token} (h : p.Shows t) : peek p = .ok t p := by
  rw [peek_eq, h.ahead]
  simp [h.significant]

/-- Taking a token is looking ahead to it first. -/
theorem advance_of_peek {p p' : Parser} {t : Option Token} (h : peek p = .ok t p') :
    advance p = .ok t p'.taken := by
  have hb : advance p = EStateM.bind peek (fun _ => ofLexer Lexer.next) p := rfl
  rw [hb, EStateM.bind, h]
  simp only [ofLexer, Lexer.next, (shows_of_peek h).ahead]
  rfl

/-- A token that is shown is the one taken. -/
theorem advance_of_shows {p : Parser} {t : Option Token} (h : p.Shows t) :
    advance p = .ok t p.taken :=
  advance_of_peek (peek_of_shows h)

theorem advance_of_peek_error {p p' : Parser} {fault : Fault} (h : peek p = .error fault p') :
    advance p = .error fault p' := by
  have hb : advance p = EStateM.bind peek (fun _ => ofLexer Lexer.next) p := rfl
  rw [hb, EStateM.bind, h]

/-- Looking ahead neither reads nor changes whether a semicolon is needed. -/
theorem peek_withSemicolon (p : Parser) (b : Bool) :
    peek (p.withSemicolon b) = match peek p with
      | .ok t p' => .ok t (p'.withSemicolon b)
      | .error e p' => .error e (p'.withSemicolon b) := by
  have hr (c : Cursor) : (p.withSemicolon b).resume c.readSignificant =
      match p.resume c.readSignificant with
      | .ok t p' => .ok t (p'.withSemicolon b)
      | .error e p' => .error e (p'.withSemicolon b) := by
    cases c.readSignificant <;> rfl
  have hl : (p.withSemicolon b).lexer = p.lexer := rfl
  rw [peek_eq, peek_eq, hl]
  cases p.lexer.ahead with
  | none => exact hr _
  | some t =>
    simp only
    split
    · exact hr _
    · rfl

section
variable {p : Parser}

theorem ended_of_shows (h : p.Shows none) : p.Ended :=
  ⟨p, peek_of_shows h⟩

theorem atMark_of_ended (h : p.Ended) (c : Char) : ∃ p', atMark c p = .ok false p' ∧ p'.Ended := by
  obtain ⟨p', hp⟩ := h
  exact ⟨p', bind_of_ok hp, ended_of_shows (shows_of_peek hp)⟩

theorem skip_of_ended (h : p.Ended) (c : Char) : ∃ e p', skip c p = .error e p' := by
  obtain ⟨p₁, hm, p₂, hp⟩ := atMark_of_ended h c
  have hs : skip c p = missing c.toString p₁ := bind_of_ok hm
  exact ⟨_, p₂, hs.trans (bind_of_ok hp)⟩

end

/-- A name that begins no form of its own is taken for itself; `else` alone is such a name. -/
theorem namedForm_of_unreserved {x : String} {line : Nat} (sub : Parse (Option Node))
    (hx : Keyword.ofName? x = none ∨ Keyword.ofName? x = some .elseForm) :
    namedForm sub x line = nameForm sub x line := by
  unfold namedForm
  rcases hx with hx | hx
  · rw [hx]
  · rw [hx]

end Parse

namespace Parser

theorem size_ofText (text file : String) : (ofText text file).size = text.length :=
  String.length_toList

/-- Parsing a text is parsing statements with its length as fuel. -/
theorem parse_eq (nesting : Nat) (text file : String) :
    parse nesting text file =
      match Parse.statements nesting ((ofText text file).size + 1) (ofText text file) with
      | .ok nodes _ => .ok nodes
      | .error fault _ => .error fault := rfl

@[simp] theorem taken_needsSemicolon (p : Parser) : p.taken.needsSemicolon = p.needsSemicolon := rfl

/-- Taking a token makes progress. -/
theorem Shows.size_taken_lt {p : Parser} {t : Token} (h : p.Shows (some t)) :
    p.taken.size < p.size := by
  simp [taken, size, Lexer.size, h.ahead]

theorem size_taken_le (p : Parser) : p.taken.size ≤ p.size := by
  simp only [taken, size, Lexer.size]
  omega

end Parser
end ScriptLang
