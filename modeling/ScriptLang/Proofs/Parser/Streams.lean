import ScriptLang.Proofs.Parser.Tokens

/-! The stream of significant tokens that a parser takes one after another. Draining a parser reads
the stream in full; `Drains` follows it token by token and tells what is left behind each of them. -/
namespace ScriptLang.Parser

def significantFrom : Nat → Parser → Except Fault (List Token)
  | 0, _ => .error .unfinished
  | fuel + 1, p =>
    match Parse.advance p with
    | .error fault _ => .error fault
    | .ok none _ => .ok []
    | .ok (some t) p => (t :: ·) <$> significantFrom fuel p

def significant (p : Parser) : Except Fault (List Token) :=
  significantFrom (p.size + 1) p

/-- Taking the tokens `ts` leads from one parser to another. -/
inductive Drains : Parser → List Token → Parser → Prop
  | nil {p} : Drains p [] p
  | cons {p p' r t ts} : Parse.peek p = .ok (some t) p' → Drains p'.taken ts r →
    Drains p (t :: ts) r

def Reads (p : Parser) (ts : List Token) : Prop :=
  ∃ r, p.Drains ts r ∧ r.Ended

variable {p p' r : Parser} {t : Token} {ts : List Token}

theorem reads_nil (h : p.Ended) : p.Reads [] :=
  ⟨p, .nil, h⟩

theorem Reads.ended (h : p.Reads []) : p.Ended := by
  obtain ⟨r, hd, he⟩ := h
  cases hd
  exact he

theorem reads_cons (h : Parse.peek p = .ok (some t) p') (hr : p'.taken.Reads ts) :
    p.Reads (t :: ts) := by
  obtain ⟨r, hd, he⟩ := hr
  exact ⟨r, .cons h hd, he⟩

/-- A parser that reads a token and others shows it and reads the others behind it. -/
theorem Reads.uncons (h : p.Reads (t :: ts)) :
    ∃ p', Parse.peek p = .ok (some t) p' ∧ p'.taken.Reads ts := by
  obtain ⟨r, hd, he⟩ := h
  cases hd with
  | cons hp hd => exact ⟨_, hp, r, hd, he⟩

/-- Looking ahead leaves the tokens to be taken. -/
theorem Drains.peek (h : p.Drains (t :: ts) r) :
    ∃ p', Parse.peek p = .ok (some t) p' ∧ p'.Drains (t :: ts) r := by
  cases h with
  | @cons _ p' _ _ _ hp hd => exact ⟨p', hp, .cons (Parse.peek_of_shows (Parse.shows_of_peek hp)) hd⟩

/-- Looking ahead shows the first of the tokens to be read, and takes none. -/
theorem Reads.peek (h : p.Reads ts) :
    ∃ p', Parse.peek p = .ok ts.head? p' ∧ p'.Reads ts := by
  obtain ⟨r, hd, he⟩ := h
  cases ts with
  | nil =>
    cases hd
    obtain ⟨p', hp⟩ := he
    exact ⟨p', hp, reads_nil ⟨p', Parse.peek_of_shows (Parse.shows_of_peek hp)⟩⟩
  | cons t ts =>
    obtain ⟨p', hp, hd'⟩ := hd.peek
    exact ⟨p', hp, r, hd', he⟩

/-- A token that is shown is the first of those left. -/
theorem Drains.taken {u : Token} (h : p.Drains (u :: ts) r) (hs : p.Shows (some t)) :
    u = t ∧ p.taken.Drains ts r := by
  cases h with
  | cons hp hd =>
    rw [Parse.peek_of_shows hs] at hp
    cases hp
    exact ⟨rfl, hd⟩

theorem Reads.taken (h : p.Reads ts) (hs : p.Shows (some t)) :
    ∃ ts', ts = t :: ts' ∧ p.taken.Reads ts' := by
  obtain ⟨r, hd, he⟩ := h
  cases ts with
  | nil =>
    cases hd
    obtain ⟨p', hp⟩ := he
    rw [Parse.peek_of_shows hs] at hp
    cases hp
  | cons u ts =>
    obtain ⟨rfl, hd'⟩ := hd.taken hs
    exact ⟨ts, rfl, r, hd', he⟩

theorem Ended.withSemicolon (h : p.Ended) (b : Bool) : (p.withSemicolon b).Ended := by
  obtain ⟨p', hp⟩ := h
  refine ⟨p'.withSemicolon b, ?_⟩
  rw [Parse.peek_withSemicolon, hp]

theorem Drains.withSemicolon (h : p.Drains ts r) (b : Bool) :
    (p.withSemicolon b).Drains ts (r.withSemicolon b) := by
  induction h with
  | nil => exact .nil
  | @cons p p' r t ts hp _ ih =>
    have hb : Parse.peek (p.withSemicolon b) = .ok (some t) (p'.withSemicolon b) := by
      rw [Parse.peek_withSemicolon, hp]
    exact .cons hb ih

theorem Reads.withSemicolon (h : p.Reads ts) (b : Bool) : (p.withSemicolon b).Reads ts := by
  obtain ⟨r, hd, he⟩ := h
  exact ⟨r.withSemicolon b, hd.withSemicolon b, he.withSemicolon b⟩

/-- Every token drained takes up at least one character. -/
theorem Drains.length_le (h : p.Drains ts r) : ts.length + r.size ≤ p.size := by
  induction h with
  | nil => simp
  | @cons p p' r t ts hp _ ih =>
    have hle := Parse.size_peek_le hp
    have hlt := (Parse.shows_of_peek hp).size_taken_lt
    simp only [List.length_cons]
    omega

/-- The tokens listed are those that the parser reads. -/
theorem reads_of_significantFrom {fuel : Nat} (h : significantFrom fuel p = .ok ts) :
    p.Reads ts := by
  induction fuel generalizing p ts with
  | zero => cases h
  | succ fuel ih =>
    unfold significantFrom at h
    cases hp : Parse.peek p with
    | error e p' =>
      rw [Parse.advance_of_peek_error hp] at h
      cases h
    | ok t p' =>
      rw [Parse.advance_of_peek hp] at h
      cases t with
      | none =>
        cases h
        exact reads_nil ⟨p', hp⟩
      | some t =>
        simp only at h
        cases hf : significantFrom fuel p'.taken with
        | error e =>
          rw [hf] at h
          cases h
        | ok us =>
          rw [hf] at h
          cases h
          exact reads_cons hp (ih hf)

theorem significantFrom_of_reads {fuel : Nat} (h : p.Reads ts) (hf : ts.length < fuel) :
    significantFrom fuel p = .ok ts := by
  induction fuel generalizing p ts with
  | zero => omega
  | succ fuel ih =>
    unfold significantFrom
    cases ts with
    | nil =>
      obtain ⟨p', hp⟩ := h.ended
      rw [Parse.advance_of_peek hp]
    | cons t ts =>
      obtain ⟨p', hp, hr⟩ := h.uncons
      rw [Parse.advance_of_peek hp]
      simp only
      rw [ih hr (by simpa using hf)]
      rfl

/-- Draining a parser gives its stream, and never runs out. -/
theorem significant_eq_ok_iff : p.significant = .ok ts ↔ p.Reads ts := by
  refine ⟨reads_of_significantFrom, fun h => significantFrom_of_reads h ?_⟩
  obtain ⟨r, hd, -⟩ := h
  have hl := hd.length_le
  omega

end ScriptLang.Parser
