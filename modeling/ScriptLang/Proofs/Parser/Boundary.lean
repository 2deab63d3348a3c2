import Mathlib
import ScriptLang.Proofs.Parser.Moved
import ScriptLang.Proofs.Parser.Phrases
import ScriptLang.Proofs.Parser.Streams

/-! Statement boundaries. Behind the semicolon that ends a text, or behind a brace before a line that
goes on neither with an operator nor with `else`, further text is parsed as if it stood alone:
neither a token looked ahead to nor a waived semicolon is carried over. -/
namespace ScriptLang.Parser

def append (p : Parser) (ext : List Char) : Parser :=
  { p with lexer := { p.lexer with cursor := p.lexer.cursor.append ext } }

section Drained
variable {p p' r : Parser} {t : Token} {ts : List Token}

/-- Without a lookahead, looking ahead is reading. -/
theorem resume_of_peek {t : Option Token} (ha : p.lexer.ahead = none)
    (h : Parse.peek p = .ok t p') :
    p.lexer.cursor.readSignificant = .ok t p'.lexer.cursor ∧
      p' = { p with lexer := ⟨p'.lexer.cursor, some t⟩ } := by
  rw [Parse.peek_eq, ha] at h
  simp only at h
  cases hr : p.lexer.cursor.readSignificant with
  | error e c =>
    rw [hr] at h
    cases h
  | ok u c =>
    rw [hr] at h
    cases h
    exact ⟨rfl, rfl⟩

/-- Looking ahead does not see what is appended to a text, if there is text left or a mark in front. -/
theorem peek_append (ext : List Char) (ha : p.lexer.ahead = none)
    (h : Parse.peek p = .ok (some t) p')
    (he : p'.taken.lexer.cursor.rest ≠ [] ∨ ∃ x, t.lexeme = .punctuation x) :
    Parse.peek (p.append ext) = .ok (some t) (p'.append ext) := by
  obtain ⟨hr, hp⟩ := resume_of_peek ha h
  have hr' := Cursor.readSignificant_append ext hr he
  have ha' : (p.append ext).lexer.ahead = none := ha
  have hc : (p.append ext).lexer.cursor = p.lexer.cursor.append ext := rfl
  rw [Parse.peek_eq, ha']
  simp only [hc, hr', resume]
  rw [hp]
  rfl

/-- What is left behind tokens that were all taken stands further on in the same text. -/
theorem Drains.reaches (h : p.Drains ts r) (ha : p.lexer.ahead = none) :
    r.lexer.ahead = none ∧ r.needsSemicolon = p.needsSemicolon ∧
      (ts ≠ [] → p.lexer.cursor.Reaches r.lexer.cursor) := by
  induction h with
  | nil => exact ⟨ha, rfl, fun hn => absurd rfl hn⟩
  | @cons p p' r t ts hp hd ih =>
    obtain ⟨hr, hp'⟩ := resume_of_peek ha hp
    obtain ⟨hra, hrs, hrr⟩ := ih rfl
    have hc : p.lexer.cursor.Reaches p'.lexer.cursor := Cursor.reaches_of_readSignificant hr
    refine ⟨hra, by rw [hrs, taken_needsSemicolon, hp'], fun _ => ?_⟩
    cases ts with
    | nil =>
      cases hd
      exact hc
    | cons u us => exact hc.trans (hrr (by simp))

/-- Behind punctuation taken last, the parser stands right behind its character. -/
theorem Drains.pos_last {x : Char} (h : p.Drains ts r) (ha : p.lexer.ahead = none)
    (hl : ts.getLast? = some t) (ht : t.lexeme = .punctuation x) :
    r.lexer.cursor.pos = t.pos.step x := by
  induction h with
  | nil => cases hl
  | @cons p p' r u ts hp hd ih =>
    cases ts with
    | nil =>
      cases hd
      cases hl
      exact Cursor.pos_of_readSignificant_punctuation (resume_of_peek ha hp).1 ht
    | cons v vs => exact ih rfl (by simpa [List.getLast?_cons_cons] using hl)

theorem Drains.rest_ne_nil (h : p.Drains (t :: ts) r) (ha : p.lexer.ahead = none) :
    p.lexer.cursor.rest ≠ [] := by
  intro hn
  obtain ⟨p', hp, -⟩ := h.peek
  have hr := (resume_of_peek ha hp).1
  have hl := p.lexer.cursor.length_readSignificant
  rw [hr, hn] at hl
  simp at hl

/-- Tokens that end with punctuation are taken the same before further text. -/
theorem Drains.append (ext : List Char) (h : p.Drains ts r) (ha : p.lexer.ahead = none)
    (hl : ∀ t ∈ ts.getLast?, ∃ x, t.lexeme = .punctuation x) :
    (p.append ext).Drains ts (r.append ext) := by
  induction h with
  | nil => exact .nil
  | @cons p p' r t ts hp hd ih =>
    cases ts with
    | nil =>
      cases hd
      exact .cons (peek_append ext ha hp (Or.inr (hl t rfl))) .nil
    | cons u us =>
      -- Another token follows this one, so it was not cut short by the end of the text.
      have hne := hd.rest_ne_nil rfl
      refine .cons (peek_append ext ha hp (Or.inl hne)) (ih rfl fun v hv => hl v ?_)
      rwa [List.getLast?_cons_cons]

end Drained

def Like (q : Parser) (l : Lexer) : Prop :=
  Parse.peek q = Parse.peek ⟨l, q.needsSemicolon⟩

theorem Like.withSemicolon {q : Parser} {l : Lexer} (h : q.Like l) (b : Bool) :
    (q.withSemicolon b).Like l := by
  have hl := Parse.peek_withSemicolon ⟨l, q.needsSemicolon⟩ b
  unfold Like at h ⊢
  rw [Parse.peek_withSemicolon, h, ← hl]
  rfl

theorem Like.peek {q q' : Parser} {l : Lexer} {t : Option Token} (h : q.Like l)
    (hp : Parse.peek q = .ok t q') : q'.Like l := by
  unfold Like at h ⊢
  rw [Parse.peek_of_shows (Parse.shows_of_peek hp), Parse.semicolon_of_peek hp, ← h, hp]

/-- The parser on the left reads tokens to its end, the last of them `mark`; the one on the right has
the same tokens before it and then the lexer `l`. -/
def Before (mark : Char) (l : Lexer) (p q : Parser) : Prop :=
  p.needsSemicolon = q.needsSemicolon ∧ ∃ ts t r, p.Reads ts ∧ q.Drains ts r ∧ r.lexer = l ∧
    ts.getLast? = some t ∧ t.lexeme = .punctuation mark

def Beyond (l : Lexer) (p q : Parser) : Prop :=
  p.Ended ∧ q.Like l

section Marked
variable {mark : Char} {l : Lexer} {p q : Parser}

/-- In front of a boundary both parsers see the same token. -/
theorem Before.peek (h : Before mark l p q) :
    ∃ t p' q', Parse.peek p = .ok (some t) p' ∧ Parse.peek q = .ok (some t) q' ∧
      Before mark l p' q' := by
  obtain ⟨hb, ts, t, r, hp, hq, hr, hl, ht⟩ := h
  cases ts with
  | nil => cases hl
  | cons u us =>
    obtain ⟨p', hp', hpr⟩ := hp.peek
    obtain ⟨q', hq', hqr⟩ := hq.peek
    refine ⟨u, p', q', hp', hq', ?_, u :: us, t, r, hpr, hqr, hr, hl, ht⟩
    rw [Parse.semicolon_of_peek hp', Parse.semicolon_of_peek hq', hb]

/-- Taking the token leaves both in front of the boundary, or it was the mark and both are beyond. -/
theorem Before.taken {t t' : Token} (h : Before mark l p q) (hp : p.Shows (some t))
    (hq : q.Shows (some t')) :
    Before mark l p.taken q.taken ∨ (t.lexeme = .punctuation mark ∧ Beyond l p.taken q.taken) := by
  obtain ⟨hb, ts, u, r, hpr, hqd, hr, hl, hu⟩ := h
  obtain ⟨ts', rfl, hpr'⟩ := hpr.taken hp
  obtain ⟨-, hqd'⟩ := hqd.taken hq
  cases ts' with
  | nil =>
    cases hl
    cases hqd'
    refine Or.inr ⟨hu, hpr'.ended, ?_⟩
    unfold Like
    rw [← hr]
  | cons v vs =>
    refine Or.inl ⟨hb, v :: vs, u, r, hpr', hqd', hr, ?_, hu⟩
    rwa [List.getLast?_cons_cons] at hl

def upTo (mark : Char) (l : Lexer) (hm : mark = ';' ∨ mark = '}')
    (hs : mark = '}' → ∃ t q, Parse.peek ⟨l, true⟩ = .ok t q ∧ ∀ u ∈ t, u.Separate) :
    Simulation where
  left := id
  right := id
  strict := False
  faults _ _ := True
  abreast := Before mark l
  closed p q := mark = '}' ∧ p.needsSemicolon = q.needsSemicolon ∧ Beyond l p q
  past := Beyond l
  stopped _ _ := True
  semicolon_eq h := h.1
  abreast_withSemicolon b h := by
    obtain ⟨-, ts, t, r, hp, hq, hr, hl⟩ := h
    exact ⟨rfl, ts, t, r.withSemicolon b, hp.withSemicolon b, hq.withSemicolon b, hr, hl⟩
  abreast_peek h := by
    obtain ⟨t, p', q', hp, hq, hb⟩ := h.peek
    exact Or.inl ⟨_, p', _, q', hp, hq, rfl, hb⟩
  abreast_taken {p q t t'} h hp hq _ := by
    refine (h.taken hp hq).imp id fun hb => ?_
    rcases hm with rfl | rfl
    · exact Or.inr hb
    · exact Or.inl ⟨hb.1, rfl, h.1, hb.2⟩
  stopped_of_abreast _ := trivial
  stopped_taken _ _ _ := trivial
  faults_refused _ _ _ := trivial
  faults_nesting := trivial
  closed_semicolon_eq h := h.2.1
  closed_withSemicolon b h := ⟨h.1, rfl, h.2.2.1.withSemicolon b, h.2.2.2.withSemicolon b⟩
  closed_peek {p q} h := by
    obtain ⟨hmark, hb, ⟨p', hp⟩, hlike⟩ := h
    obtain ⟨t, q', hq, ht⟩ := hs hmark
    have hq' : Parse.peek q = .ok t (q'.withSemicolon q.needsSemicolon) := by
      have hl := Parse.peek_withSemicolon ⟨l, true⟩ q.needsSemicolon
      rw [hq] at hl
      exact hlike.trans hl
    have hended : p'.Ended := Parse.ended_of_shows (Parse.shows_of_peek hp)
    refine ⟨p', t, _, hp, hq', ⟨hmark, ?_, hended, hlike.peek hq'⟩, ht⟩
    rw [Parse.semicolon_of_peek hp, hb]
    rfl
  past_of_closed h := h.2.2
  ended_of_past h := h.1
  not_strict_of_past _ h := h

end Marked

inductive Steps (nesting : Nat) : Parser → List Node → Parser → Prop
  | nil {p} : Steps nesting p [] p
  | cons {p p' r a as} : Parse.next nesting p = .ok (some a) p' → Steps nesting p' as r →
    Steps nesting p (a :: as) r

/-- Calls that each find a statement give these, and then what the parser behind them gives. -/
theorem Steps.calls {nesting : Nat} {p r : Parser} {as : List Node} (h : Steps nesting p as r)
    (count : Nat) :
    p.calls nesting (as.length + count) =
      as.map (fun a => .ok (some a)) ++ r.calls nesting count := by
  induction h with
  | nil => simp
  | @cons p p' r a as hn _ ih =>
    have hc : (a :: as).length + count = as.length + count + 1 := by
      simp only [List.length_cons]
      omega
    rw [hc, Parser.calls, hn]
    simp [ih]

/-- Parsing on behind statements found puts them in front. -/
theorem Steps.statements {nesting : Nat} {p r : Parser} {as : List Node} (h : Steps nesting p as r)
    (fuel : Nat) :
    Parse.statements nesting (as.length + fuel) p =
      match Parse.statements nesting fuel r with
      | .ok bs r' => .ok (as ++ bs) r'
      | .error e r' => .error e r' := by
  induction h with
  | @nil p =>
    simp only [List.length_nil, Nat.zero_add, List.nil_append]
    cases Parse.statements nesting fuel p <;> rfl
  | @cons p p' r a as hn _ ih =>
    have hc : (a :: as).length + fuel = as.length + fuel + 1 := by
      simp only [List.length_cons]
      omega
    have hs : Parse.statements nesting (as.length + fuel + 1) p = _ := bind_of_ok hn
    rw [hc, hs]
    cases hr : Parse.statements nesting fuel r with
    | ok bs r' =>
      rw [hr] at ih
      exact bind_of_ok ih
    | error e r' =>
      rw [hr] at ih
      exact bind_of_error ih

section Marked
variable {mark : Char} {l : Lexer} (hm : mark = ';' ∨ mark = '}')
  (hs : mark = '}' → ∃ t q, Parse.peek ⟨l, true⟩ = .ok t q ∧ ∀ u ∈ t, u.Separate)
include hm hs

/-- A call that gives a statement of a text gives it also where more stands behind that text. -/
theorem Before.next {nesting : Nat} {p q p' : Parser} {node : Option Node} (h : Before mark l p q)
    (hp : Parse.next nesting p = .ok node p') :
    ∃ a q', node = some a ∧ Parse.next nesting q = .ok (some a) q' ∧ p'.size < p.size ∧
      (Before mark l p' q' ∨ Beyond l p' q') := by
  have hr := Simulation.runs_next (S := upTo mark l hm hs) nesting h
  unfold Simulation.Runs at hr
  rw [hp] at hr
  obtain ⟨-, b, q', hq, -, hst⟩ := hr
  cases hst with
  | none hb hn =>
    obtain ⟨t, p₁, q₁, hp₁, -⟩ := Before.peek hb
    rw [Parse.peek_of_shows hn] at hp₁
    cases hp₁
  | @some a b _ _ hab hnext hlt _ =>
    have he : a = b := by
      have hid : a.mapLines id = b.mapLines id := hab
      rwa [Node.mapLines_id, Node.mapLines_id] at hid
    subst he
    exact ⟨a, q', rfl, hq, hlt, hnext⟩

/-- All statements of a text are given also where more stands behind it, and then the parser is before
the rest. -/
theorem Before.steps {nesting fuel : Nat} {p q p' : Parser} {as : List Node}
    (h : Before mark l p q) (hp : Parse.statements nesting fuel p = .ok as p') :
    ∃ q', Steps nesting q as q' ∧ q'.Like l ∧ q'.needsSemicolon = true ∧ as.length ≤ p.size := by
  induction fuel generalizing p q as with
  | zero => cases hp
  | succ fuel ih =>
    obtain ⟨node, p₁, hn, hrest⟩ := ok_of_bind hp
    obtain ⟨a, q₁, rfl, hq, hlt, hnext⟩ := h.next hm hs hn
    obtain ⟨bs, p₂, hbs, hret⟩ := ok_of_bind hrest
    cases hret
    rcases hnext with hb | hb
    · obtain ⟨q', hst, hlike, hsc, hl⟩ := ih hb hbs
      refine ⟨q', .cons hq hst, hlike, hsc, ?_⟩
      simp only [List.length_cons]
      omega
    · have hnil : bs = [] := by
        cases fuel with
        | zero => cases hbs
        | succ fuel =>
          obtain ⟨node, p₃, hn', hrest'⟩ := ok_of_bind hbs
          cases node with
          | none =>
            cases hrest'
            rfl
          | some b =>
            have hsub := Simulation.primary_subRule (upTo mark l hm hs) nesting
            exact absurd hn' (Simulation.statement_of_ended hsub hb.1)
      subst hnil
      obtain ⟨_, -, hstated⟩ := (Parse.traced_next nesting q).of_ok hq
      refine ⟨q₁, .cons hq .nil, hb.2, hstated.semicolon rfl, ?_⟩
      simp only [List.length_cons, List.length_nil]
      omega

end Marked

def startingAt (text : String) (pos : Position) (file : String) : Parser :=
  ⟨⟨⟨text.toList, pos, file⟩, none⟩, true⟩

/-- A parser that starts further down reads what one from the top does, with the lines moved. -/
theorem moved_startingAt (text file : String) (before : List Char) :
    (ofText text file).Moved (before.count '\n') (startingAt text (Position.start.after before) file) := by
  refine ⟨⟨rfl, ?_⟩, rfl, rfl⟩
  exact (Position.line_after _ _).symm

/-- Where `q` may follow `p`, with `joint` between them: directly behind the semicolon that ends `p` and
is its last token, or on a new line behind a brace, if `q` goes on neither with an operator nor with
`else`. -/
inductive Boundary (file p q : String) : String → Prop
  | semicolon {init : List Char} {ts : List Token} : p.toList = init ++ [';'] →
    (ofText p file).significant = .ok ts →
    ts.getLast? = some ⟨.punctuation ';', Position.start.after init⟩ → Boundary file p q ""
  | brace {ts : List Token} {pos : Position} {t : Option Token} {q' : Parser} :
    (ofText p file).significant = .ok ts → ts.getLast? = some ⟨.punctuation '}', pos⟩ →
    Parse.peek (ofText q file) = .ok t q' → (∀ u ∈ t, u.Separate) → Boundary file p q "\n"

/-- Both sides of a boundary: `p` is read to its end, and then looking ahead shows what it shows in `q`
alone. -/
structure Parted (file p joint q : String) (mark : Char) (l : Lexer) : Prop where
  mark_cases : mark = ';' ∨ mark = '}'
  separate : mark = '}' → ∃ t r, Parse.peek ⟨l, true⟩ = .ok t r ∧ ∀ u ∈ t, u.Separate
  before : Before mark l (ofText p file) (ofText (p ++ joint ++ q) file)
  like : Parse.peek ⟨l, true⟩ =
    Parse.peek (startingAt q (Position.start.after (p ++ joint).toList) file)

theorem ofText_append (p ext file : String) :
    ofText (p ++ ext) file = (ofText p file).append ext.toList := by
  simp [ofText, Lexer.ofText, Cursor.ofText, append, Cursor.append, String.toList_append]

/-- Where a text ends with punctuation up to space and comments, the parser stops right behind it, and
does so too before further text. -/
theorem exists_behind_last {file p : String} {ts : List Token} {t : Token} {x : Char}
    (hts : (ofText p file).significant = .ok ts) (hl : ts.getLast? = some t)
    (ht : t.lexeme = .punctuation x) :
    ∃ passed rest, p.toList = passed ++ rest ∧ Position.start.after passed = t.pos.step x ∧
      (Parser.mk ⟨⟨rest, Position.start.after passed, file⟩, none⟩ true).Ended ∧
      ∀ ext : String, Before x ⟨⟨rest ++ ext.toList, Position.start.after passed, file⟩, none⟩
        (ofText p file) (ofText (p ++ ext) file) := by
  obtain ⟨r, hd, he⟩ := significant_eq_ok_iff.mp hts
  have hlast : ∀ u ∈ ts.getLast?, ∃ x, u.lexeme = .punctuation x := by
    intro u hu
    rw [hl] at hu
    cases hu
    exact ⟨x, ht⟩
  have hne : ts ≠ [] := by
    rintro rfl
    cases hl
  have hstep := hd.pos_last rfl hl ht
  obtain ⟨hahead, hneeds, hreach⟩ := hd.reaches rfl
  obtain ⟨passed, hrest, hpos, hfile⟩ := hreach hne
  obtain ⟨⟨⟨rest, pos, file'⟩, ahead⟩, needs⟩ := r
  simp only at hahead hneeds hpos hfile hstep
  subst hahead hneeds hpos hfile
  refine ⟨passed, rest, hrest, hstep, he, fun ext => ?_⟩
  rw [ofText_append]
  exact ⟨rfl, ts, t, _, ⟨_, hd, he⟩, hd.append ext.toList rfl hlast, rfl, hl, ht⟩

/-- A text whose last token is a semicolon parts what follows from it. -/
theorem parted_of_semicolon {file p q : String} {init : List Char} {ts : List Token}
    (hp : p.toList = init ++ [';']) (hts : (ofText p file).significant = .ok ts)
    (hl : ts.getLast? = some ⟨.punctuation ';', Position.start.after init⟩) :
    ∃ l, Parted file p "" q ';' l := by
  obtain ⟨passed, rest, hrest, hpos, -, hb⟩ := exists_behind_last hts hl rfl
  have hend : Position.start.after passed = Position.start.after p.toList := by
    rw [hpos, hp, Position.after_append]
    rfl
  have hnil : rest = [] := by
    rw [hrest, Position.after_append] at hend
    exact Position.eq_nil_of_after_eq_self hend.symm
  subst hnil
  rw [hend] at hb
  refine ⟨⟨⟨q.toList, Position.start.after p.toList, file⟩, none⟩, Or.inl rfl, ?_, ?_, ?_⟩
  · intro h
    cases h
  · rw [String.append_empty]
    exact hb q
  · rw [String.append_empty]
    rfl

theorem separate_of_seen_eq {t t' : Option Token} {f g : Nat → Nat}
    (h : t.map (Token.seen f) = t'.map (Token.seen g)) (ht : ∀ u ∈ t, u.Separate) :
    ∀ u ∈ t', u.Separate := by
  rcases Token.seen_cases h with ⟨rfl, rfl⟩ | ⟨l, pos, pos', rfl, rfl, -⟩
  · exact ht
  · intro u hu
    cases hu
    exact ht ⟨l, pos⟩ rfl

theorem parted_of_brace {file p q : String} {ts : List Token} {pos : Position} {t : Option Token}
    {q' : Parser} (hts : (ofText p file).significant = .ok ts)
    (hl : ts.getLast? = some ⟨.punctuation '}', pos⟩)
    (hq : Parse.peek (ofText q file) = .ok t q') (ht : ∀ u ∈ t, u.Separate) :
    ∃ l, Parted file p "\n" q '}' l := by
  obtain ⟨passed, rest, hrest, -, ⟨r, hend⟩, hb⟩ := exists_behind_last hts hl rfl
  have hnone := (resume_of_peek rfl hend).1
  have hjoint : (p ++ "\n").toList = p.toList ++ ['\n'] := by simp
  -- What is left of `p` is not significant, so looking ahead finds what `q` begins with.
  have hlike : Parse.peek ⟨⟨⟨rest ++ '\n' :: q.toList, Position.start.after passed, file⟩, none⟩, true⟩ =
      Parse.peek (startingAt q (Position.start.after (p ++ "\n").toList) file) := by
    have hline := Cursor.readSignificant_append_line q.toList hnone
    rw [hjoint, hrest, List.append_assoc, Position.after_append]
    rw [Parse.peek_eq, Parse.peek_eq]
    exact congrArg (resume _) hline
  refine ⟨_, Or.inr rfl, fun _ => ?_, ?_, hlike⟩
  · have hm := (moved_startingAt q file (p ++ "\n").toList).peek
    rw [hq, ← hlike] at hm
    generalize Parse.peek _ = s at hm
    cases hm with
    | token hseen _ => exact ⟨_, _, rfl, separate_of_seen_eq hseen ht⟩
  · have hext : ("\n" ++ q).toList = '\n' :: q.toList := by simp
    have hbq := hb ("\n" ++ q)
    rwa [hext, ← String.append_assoc] at hbq

/-- Looking ahead decides what the next statement is. -/
theorem next_congr {k : Nat} {p q : Parser} (h : Parse.peek p = Parse.peek q) :
    Parse.next (k + 1) p = Parse.next (k + 1) q := by
  have ho : Parse.operand (Parse.primary k) p = Parse.operand (Parse.primary k) q :=
    bind_congr_left h
  have he : Parse.primary (k + 1) p = Parse.primary (k + 1) q := bind_congr_left ho
  exact bind_congr_left he

theorem calls_congr {k : Nat} {p q : Parser} (h : Parse.peek p = Parse.peek q) (count : Nat) :
    p.calls (k + 1) count = q.calls (k + 1) count := by
  cases count with
  | zero => rfl
  | succ count => rw [calls, calls, next_congr h]

theorem statements_congr {k : Nat} {p q : Parser} (h : Parse.peek p = Parse.peek q) (fuel : Nat) :
    Parse.statements (k + 1) (fuel + 1) p = Parse.statements (k + 1) (fuel + 1) q :=
  bind_congr_left (next_congr h)

theorem Boundary.parted {file p q joint : String} (h : Boundary file p q joint) :
    ∃ mark l, Parted file p joint q mark l := by
  cases h with
  | semicolon hp hts hl =>
    obtain ⟨l, hparted⟩ := parted_of_semicolon hp hts hl
    exact ⟨';', l, hparted⟩
  | brace hts hl hq ht =>
    obtain ⟨l, hparted⟩ := parted_of_brace hts hl hq ht
    exact ⟨'}', l, hparted⟩

/-- The statements of `p` are given where `p` is followed by more, and then the parser is where one of
`q` begins. -/
theorem Parted.steps {nesting : Nat} {file p joint q : String} {mark : Char} {l : Lexer}
    {as : List Node} (h : Parted file p joint q mark l) (hp : parse nesting p file = .ok as) :
    ∃ r, Steps nesting (ofText (p ++ joint ++ q) file) as r ∧ as.length ≤ p.length ∧
      Parse.peek r = Parse.peek (startingAt q (Position.start.after (p ++ joint).toList) file) := by
  rw [parse_eq] at hp
  split at hp
  · next nodes p' hst =>
    cases hp
    obtain ⟨r, hsteps, hlike, hneeds, hlen⟩ := h.before.steps h.mark_cases h.separate hst
    rw [size_ofText] at hlen
    refine ⟨r, hsteps, hlen, ?_⟩
    unfold Like at hlike
    rw [hlike, hneeds, h.like]
  · cases hp

/-- Behind statements that were given, the rest of a text has the statements of the same text elsewhere. -/
theorem Steps.parse {k n : Nat} {file whole q : String} {as : List Node} {r rest : Parser}
    (h : Steps (k + 1) (ofText whole file) as r) (hr : Parse.peek r = Parse.peek rest)
    (hm : (ofText q file).Moved n rest) (hl : as.length + q.length ≤ whole.length) :
    match Parser.parse (k + 1) q file with
    | .ok bs => Parser.parse (k + 1) whole file = .ok (as ++ bs.map (Node.mapLines (· + n)))
    | .error e => ∃ e', Parser.parse (k + 1) whole file = .error e' ∧ e.Alike e' := by
  obtain ⟨fuel, hfuel⟩ : ∃ fuel, (ofText whole file).size + 1 = as.length + (fuel + 1) := by
    refine ⟨whole.length - as.length, ?_⟩
    rw [size_ofText]
    omega
  have hsize : rest.size < fuel + 1 := by
    have hrest : rest.size = (ofText q file).size := by
      simp only [size, Lexer.size, ← hm.cursor.rest]
      have ha := hm.ahead
      cases hra : rest.lexer.ahead with
      | none => rfl
      | some t =>
        rw [hra] at ha
        cases ha
    rw [hrest, size_ofText]
    rw [size_ofText] at hfuel
    omega
  have hmatch := statements_of_moved (k + 1) hm (Nat.lt_succ_self _) hsize
  rw [parse_eq _ q, parse_eq _ whole, hfuel, h.statements, statements_congr hr]
  cases hs : Parse.statements (k + 1) ((ofText q file).size + 1) (ofText q file) with
  | ok bs q' =>
    rw [hs] at hmatch
    obtain ⟨r', hr'⟩ := hmatch
    simp only [hr']
  | error e q' =>
    rw [hs] at hmatch
    obtain ⟨e', r', hr', he⟩ := hmatch
    exact ⟨e', by simp only [hr'], he⟩

/-- Behind a boundary the parser starts afresh. The first calls for the next statement give those of the
text before it; all further calls answer as a parser does that begins there, which are the answers
for the text behind it alone, with the lines moved by those before it, or the same faults. So the
whole text has the statements of both texts, or the fault of the second one. -/
theorem calls_behind_boundary {nesting : Nat} {file p q joint : String} {as : List Node}
    (hp : parse nesting p file = .ok as) (hb : Boundary file p q joint) :
    let whole := p ++ joint ++ q
    let lines := (p ++ joint).toList.count '\n'
    let rest := startingAt q (Position.start.after (p ++ joint).toList) file
    (∀ count, (ofText whole file).calls nesting (as.length + count) =
        as.map (fun a => .ok (some a)) ++ rest.calls nesting count ∧
      List.Forall₂ (AnsweredAlike lines) ((ofText q file).calls nesting count)
        (rest.calls nesting count)) ∧
    match parse nesting q file with
    | .ok bs => parse nesting whole file = .ok (as ++ bs.map (Node.mapLines (· + lines)))
    | .error e => ∃ e', parse nesting whole file = .error e' ∧ e.Alike e' := by
  intro whole lines rest
  obtain ⟨mark, l, hparted⟩ := hb.parted
  obtain ⟨r, hsteps, hlen, hpeek⟩ := hparted.steps hp
  have hmoved : (ofText q file).Moved lines rest := moved_startingAt q file (p ++ joint).toList
  cases nesting with
  | zero => cases hp
  | succ k =>
    refine ⟨fun count => ⟨?_, calls_of_moved (k + 1) count hmoved⟩, ?_⟩
    · rw [hsteps.calls count, calls_congr hpeek]
    · refine hsteps.parse hpeek hmoved ?_
      rw [String.length_append, String.length_append]
      omega

/-- Behind a semicolon even text that cannot be read is met only by the next call; behind a brace the
next line is a statement of its own. -/
theorem calls_behind_boundary_of_unreadable_and_loop :
    (ofText ("x;" ++ "" ++ "$") "f").calls 2 2 = [.ok (some (.reference 1 "x")),
      .error (.atPosition (.unreadable '$') ⟨1, 2⟩ "f")] ∧
    parse 2 ("while (x) { }" ++ "\n" ++ "y;") "f" =
      .ok [.loop 1 (.reference 1 "x") [], .reference 2 "y"] := by
  constructor
  · have hp : parse 2 "x;" "f" = .ok [.reference 1 "x"] := by cbv
    have hs : (ofText "x;" "f").significant =
        .ok [⟨.identifier "x", ⟨1, 0⟩⟩, ⟨.punctuation ';', ⟨1, 1⟩⟩] := by cbv
    have hx : "x;".toList = ['x'] ++ [';'] := by cbv
    have hc := ((calls_behind_boundary hp (.semicolon (q := "$") hx hs rfl)).1 1).1
    have hr : (startingAt "$" (Position.start.after ("x;" ++ "").toList) "f").calls 2 1 =
        [.error (.atPosition (.unreadable '$') ⟨1, 2⟩ "f")] := by cbv
    rw [hr] at hc
    exact hc
  · have hp : parse 2 "while (x) { }" "f" = .ok [.loop 1 (.reference 1 "x") []] := by cbv
    have hs : (ofText "while (x) { }" "f").significant = .ok [⟨.identifier "while", ⟨1, 0⟩⟩,
        ⟨.punctuation '(', ⟨1, 6⟩⟩, ⟨.identifier "x", ⟨1, 7⟩⟩, ⟨.punctuation ')', ⟨1, 8⟩⟩,
        ⟨.punctuation '{', ⟨1, 10⟩⟩, ⟨.punctuation '}', ⟨1, 12⟩⟩] := by cbv
    have hy : Parse.peek (ofText "y;" "f") = .ok (some ⟨.identifier "y", ⟨1, 0⟩⟩)
        ⟨⟨⟨[';'], ⟨1, 1⟩, "f"⟩, some (some ⟨.identifier "y", ⟨1, 0⟩⟩)⟩, true⟩ := by cbv
    have hsep : ∀ u ∈ some (Token.mk (.identifier "y") ⟨1, 0⟩), u.Separate := by
      intro u hu
      cases hu
      exact ⟨rfl, by decide⟩
    have hc := (calls_behind_boundary hp (.brace hs rfl hy hsep)).2
    have hq : parse 2 "y;" "f" = .ok [.reference 1 "y"] := by cbv
    rw [hq] at hc
    have hn : ("while (x) { }" ++ "\n").toList.count '\n' = 1 := by cbv
    rw [hn] at hc
    exact hc

end ScriptLang.Parser
