import ScriptLang.Proofs.Lexer.Rebuilding
import ScriptLang.Proofs.Parser.Streams

/-! Steps that succeed. A parser faces the lexemes that are left and knows whether a semicolon is
needed; what each step does to both is told once, and rules are followed by putting steps together. -/
namespace ScriptLang

def spaced (ls : List Lexeme) : String :=
  " ".intercalate (ls.map Lexeme.source)

structure Parser.Faces (p : Parser) (ls : List Lexeme) (needed : Bool) : Prop where
  reads : ∃ ts, p.Reads ts ∧ ts.map Token.lexeme = ls
  semicolon : p.needsSemicolon = needed

namespace Parser
variable {p p' : Parser} {l : Lexeme} {ls : List Lexeme} {b : Bool}

/-- A parser has at least as much text left as lexemes in front of it. -/
theorem Faces.length_le (h : p.Faces ls b) : ls.length ≤ p.size := by
  obtain ⟨ts, ⟨r, hd, -⟩, rfl⟩ := h.reads
  have hl := hd.length_le
  rw [List.length_map]
  omega

theorem Faces.withSemicolon (h : p.Faces ls b) (needed : Bool) :
    (p.withSemicolon needed).Faces ls needed := by
  obtain ⟨ts, hr, hl⟩ := h.reads
  exact ⟨⟨ts, hr.withSemicolon needed, hl⟩, rfl⟩

/-- A parser in front of lexemes sees the first of them. -/
theorem Faces.peek (h : p.Faces ls b) :
    ∃ t p', Parse.peek p = .ok t p' ∧ t.map Token.lexeme = ls.head? ∧ p'.Faces ls b := by
  obtain ⟨ts, hr, rfl⟩ := h.reads
  obtain ⟨p', hp, hr'⟩ := hr.peek
  exact ⟨_, p', hp, by simp, ⟨ts, hr', rfl⟩, (Parse.semicolon_of_peek hp).trans h.semicolon⟩

theorem Faces.taken {t : Token} (h : p.Faces (l :: ls) b) (hs : p.Shows (some t)) :
    p.taken.Faces ls b := by
  obtain ⟨ts, hr, hl⟩ := h.reads
  obtain ⟨ts', rfl, hr'⟩ := hr.taken hs
  exact ⟨⟨ts', hr', (List.cons.inj hl).2⟩, h.semicolon⟩

end Parser

namespace Parser

section
variable (pos : Position) (file : String) (needed : Bool)

theorem ended_of_allSpace {cs : List Char} (h : AllSpace cs) :
    Ended ⟨⟨⟨cs, pos, file⟩, none⟩, needed⟩ := by
  have hs := Cursor.readSignificant_of_end (Cursor.read_allSpace pos file h)
  refine ⟨⟨⟨⟨[], pos.after cs, file⟩, some none⟩, needed⟩, ?_⟩
  rw [Parse.peek_eq]
  simp only [hs, resume]

/-- The pieces of a text are read one by one, if none of them opens a comment. -/
theorem reads_of_splits {cs last : List Char} {pieces : List Piece} (h : Splits cs pieces last)
    (hlast : AllSpace last) (hc : ∀ l ∈ pieces.map Piece.lexeme, l.isComment = false) :
    ∃ ts, Reads ⟨⟨⟨cs, pos, file⟩, none⟩, needed⟩ ts ∧
      ts.map Token.lexeme = pieces.map Piece.lexeme := by
  induction h generalizing pos with
  | nil rest => exact ⟨[], reads_nil (ended_of_allSpace pos file needed hlast), rfl⟩
  | @cons space written cs rest lexeme pieces hsp hl _ ih =>
    obtain ⟨hfirst, hrest⟩ := List.forall_mem_cons.mp hc
    have hread := Cursor.read_of_longest pos file hsp hl
    have hs := Cursor.readSignificant_of_token hread hfirst
    have hp : Parse.peek ⟨⟨⟨space ++ (written ++ cs), pos, file⟩, none⟩, needed⟩ =
        .ok (some ⟨lexeme, pos.after space⟩) ⟨⟨⟨cs, (pos.after space).after written, file⟩,
          some (some ⟨lexeme, pos.after space⟩)⟩, needed⟩ := by
      rw [Parse.peek_eq]
      simp only [hs, resume]
    obtain ⟨ts, hts, hlex⟩ := ih ((pos.after space).after written) hlast hrest
    exact ⟨⟨lexeme, pos.after space⟩ :: ts, reads_cons hp hts, by simp [hlex]⟩

end

/-- A parser of a text faces the lexemes of its pieces. -/
theorem faces_of_isSplit {text : String} {pieces : List Piece} {last : List Char}
    {ls : List Lexeme} (h : IsSplit text.toList pieces last) (hl : pieces.map Piece.lexeme = ls)
    (hc : ∀ l ∈ ls, l.isComment = false) (file : String) : (ofText text file).Faces ls true := by
  subst hl
  exact ⟨reads_of_splits .start file true h.1 h.2 hc, rfl⟩

/-- A parser of spaced lexemes faces them. -/
theorem faces_spaced {ls : List Lexeme} (h : ∀ l ∈ ls, l.Plain ∧ l.isComment = false)
    (file : String) : (ofText (spaced ls) file).Faces ls true := by
  let tokens := ls.map fun l => Token.mk l .start
  have htokens : tokens.map Token.lexeme = ls := by simp [tokens, Function.comp_def]
  have htext : rebuilt " " tokens = spaced ls := by
    simp [rebuilt, spaced, tokens, Function.comp_def]
  have hplain : ∀ t ∈ tokens, t.lexeme.Plain := by
    intro t ht
    have hl : t.lexeme ∈ tokens.map Token.lexeme := List.mem_map_of_mem ht
    rw [htokens] at hl
    exact (h _ hl).1
  have hspace : AllSpace " ".toList := by simp [AllSpace, isSpace]
  obtain ⟨pieces, hs, hl⟩ := isSplit_rebuilt (by decide) hspace hplain
  rw [htext] at hs
  exact faces_of_isSplit hs (hl.trans htokens) (fun l hl => (h l hl).2) file

end Parser

namespace Parse
variable {α β : Type} {p : Parser}

def Gives (m : Parse α) (p : Parser) (Q : α → Parser → Prop) : Prop :=
  ∃ a p', m p = .ok a p' ∧ Q a p'

variable {m : Parse α} {f : α → Parse β} {Q : α → Parser → Prop} {R : β → Parser → Prop}

theorem Gives.pure {a : α} (h : Q a p) : Gives (Pure.pure a) p Q :=
  ⟨a, p, rfl, h⟩

/-- A step that succeeds hands on to the next. -/
theorem Gives.bind (hm : Gives m p Q) (hf : ∀ a p', Q a p' → Gives (f a) p' R) :
    Gives (m >>= f) p R := by
  obtain ⟨a, p', hmp, hQ⟩ := hm
  obtain ⟨b, p'', hfp, hR⟩ := hf a p' hQ
  exact ⟨b, p'', (bind_of_ok hmp).trans hfp, hR⟩

theorem Gives.mono {Q' : α → Parser → Prop} (hm : Gives m p Q) (hQ : ∀ a p', Q a p' → Q' a p') :
    Gives m p Q' := by
  obtain ⟨a, p', hmp, h⟩ := hm
  exact ⟨a, p', hmp, hQ a p' h⟩

theorem Gives.map {g : α → β} (hm : Gives m p Q) (hg : ∀ a p', Q a p' → R (g a) p') :
    Gives (g <$> m) p R := by
  have hmap : g <$> m = m >>= fun a => Pure.pure (g a) := (bind_pure_comp g m).symm
  rw [hmap]
  exact hm.bind fun a p' h => Gives.pure (hg a p' h)

theorem Gives.get {f : Parser → Parse β} (h : Gives (f p) p R) : Gives (MonadState.get >>= f) p R :=
  h

/-- The size of a parser is fuel enough to try its steps with. -/
theorem Gives.bounded {step : Nat → Parse α} (h : Gives (step (p.size + 1)) p Q) :
    Gives (Parse.bounded step) p Q :=
  h

variable {l : Lexeme} {ls : List Lexeme} {b : Bool}

theorem gives_peek (h : p.Faces ls b) :
    Gives peek p fun t p' => t.map Token.lexeme = ls.head? ∧ p'.Faces ls b := by
  obtain ⟨t, p', hp, ht, h'⟩ := h.peek
  exact ⟨t, p', hp, ht, h'⟩

theorem gives_peek_cons (h : p.Faces (l :: ls) b) :
    Gives peek p fun t p' => (∃ pos, t = some ⟨l, pos⟩) ∧ p'.Faces (l :: ls) b := by
  refine (gives_peek h).mono fun t p' ht => ⟨?_, ht.2⟩
  obtain ⟨⟨l', pos⟩, rfl, hl⟩ := Option.map_eq_some_iff.mp ht.1
  cases hl
  exact ⟨pos, rfl⟩

theorem gives_advance (h : p.Faces (l :: ls) b) :
    Gives advance p fun t p' => (∃ pos, t = some ⟨l, pos⟩) ∧ p'.Faces ls b := by
  obtain ⟨t, p', hp, ⟨pos, rfl⟩, h'⟩ := gives_peek_cons h
  exact ⟨_, _, advance_of_peek hp, ⟨pos, rfl⟩, h'.taken (shows_of_peek hp)⟩

theorem gives_test (h : p.Faces ls b) (l : Lexeme) :
    Gives (do return (← peek).any (·.lexeme == l)) p fun r p' =>
      r = decide (ls.head? = some l) ∧ p'.Faces ls b := by
  refine (gives_peek h).bind fun t p' ht => Gives.pure ⟨?_, ht.2⟩
  rw [← ht.1]
  cases t with
  | none => rfl
  | some t =>
    simp only [Option.any_some, Option.map_some, Option.some.injEq]
    rfl

theorem gives_atMark {c : Char} (h : p.Faces (.punctuation c :: ls) b) :
    Gives (atMark c) p fun r p' => r = true ∧ p'.Faces (.punctuation c :: ls) b :=
  (gives_test h _).mono fun _ _ hr => ⟨hr.1.trans (decide_eq_true rfl), hr.2⟩

theorem gives_atMark_of_ne {c : Char} (h : p.Faces ls b) (hn : ls.head? ≠ some (.punctuation c)) :
    Gives (atMark c) p fun r p' => r = false ∧ p'.Faces ls b :=
  (gives_test h _).mono fun _ _ hr => ⟨hr.1.trans (decide_eq_false hn), hr.2⟩

theorem gives_atName {name : String} (h : p.Faces (.identifier name :: ls) b) :
    Gives (atName name) p fun r p' => r = true ∧ p'.Faces (.identifier name :: ls) b :=
  (gives_test h _).mono fun _ _ hr => ⟨hr.1.trans (decide_eq_true rfl), hr.2⟩

theorem gives_atName_of_ne {name : String} (h : p.Faces ls b)
    (hn : ls.head? ≠ some (.identifier name)) :
    Gives (atName name) p fun r p' => r = false ∧ p'.Faces ls b :=
  (gives_test h _).mono fun _ _ hr => ⟨hr.1.trans (decide_eq_false hn), hr.2⟩

theorem gives_skip {c : Char} (h : p.Faces (.punctuation c :: ls) b) :
    Gives (skip c) p fun _ p' => p'.Faces ls b := by
  refine (gives_atMark h).bind fun r p₁ hr => ?_
  obtain ⟨rfl, h₁⟩ := hr
  exact (gives_advance h₁).bind fun t p₂ ht => Gives.pure ht.2

theorem gives_setSemicolon (h : p.Faces ls b) (needed : Bool) :
    Gives (setSemicolon needed) p fun _ p' => p'.Faces ls needed :=
  ⟨(), _, rfl, h.withSemicolon needed⟩

theorem gives_operatorAhead_of_ne (h : p.Faces ls b) (hn : ∀ l ∈ ls.head?, l.operator? = none) :
    Gives operatorAhead p fun op p' => op = none ∧ p'.Faces ls b := by
  refine (gives_peek h).bind fun t p' ht => ?_
  rw [← ht.1] at hn
  cases t with
  | none => exact Gives.pure ⟨rfl, ht.2⟩
  | some t =>
    obtain ⟨l, pos⟩ := t
    cases l with
    | operator s => cases hn _ rfl
    | _ => exact Gives.pure ⟨rfl, ht.2⟩

/-- An operator that is faced is seen with its power. -/
theorem gives_operatorAhead {o : Operator} (h : p.Faces (.operator o.spelling :: ls) b) :
    Gives operatorAhead p fun op p' =>
      (∃ line, op = some ⟨o.spelling, o.power, line⟩) ∧ p'.Faces (.operator o.spelling :: ls) b := by
  refine (gives_peek_cons h).bind fun t p' ht => ?_
  obtain ⟨⟨pos, rfl⟩, h'⟩ := ht
  refine Gives.pure ⟨⟨pos.line, ?_⟩, h'⟩
  simp [Operator.power?, Operator.ofSpelling?_spelling]

end Parse
end ScriptLang
