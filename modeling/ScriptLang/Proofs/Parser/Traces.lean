import ScriptLang.Proofs.Parser.Streams

/-! What parsing does to a parser. Steps look ahead, take tokens, go past the end and tell whether a semicolon
is needed, and nothing else. Where one fails, looking ahead has failed, or a diagnostic is placed where the
parser has come to. -/
namespace ScriptLang
namespace Parser

/-- Looking ahead, taking the tokens `ts`, going past the end of the text and telling whether a semicolon is
needed lead from one parser to another. -/
inductive Passes : Parser → List Token → Parser → Prop
  | refl {p} : Passes p [] p
  | peek {p p' q t ts} : Parse.peek p = .ok t p' → Passes p' ts q → Passes p ts q
  | take {p q t ts} : p.Shows (some t) → Passes p.taken ts q → Passes p (t :: ts) q
  | past {p q ts} : p.Shows none → Passes p.taken ts q → Passes p ts q
  | tell {p q ts} (needed : Bool) : Passes (p.withSemicolon needed) ts q → Passes p ts q

/-- After the tokens `ts` were taken from `p` on, a fault is found, and `q` is the parser that is left. -/
inductive Stops (p : Parser) (ts : List Token) : Fault → Parser → Prop
  | unread {r q e} : p.Passes ts r → Parse.peek r = .error e q → Stops p ts e q
  | refused {q} (cause : Cause) : p.Passes ts q → Stops p ts (.atPosition cause q.place q.file) q
  | exhausted {q e} : p.Passes ts q → e = .nesting ∨ e = .unfinished → Stops p ts e q

inductive Took : Parser → List Token → Parser → Prop
  | refl {p} : Took p [] p
  | peek {p p' q t ts} : Parse.peek p = .ok t p' → Took p' ts q → Took p ts q
  | take {p q t ts} : p.Shows (some t) → Took p.taken ts q → Took p (t :: ts) q
  | tell {p q ts} (needed : Bool) : Took (p.withSemicolon needed) ts q → Took p ts q

variable {p q r : Parser} {t : Token} {ts us : List Token} {e : Fault}

theorem Passes.trans (h : p.Passes ts q) (hq : q.Passes us r) : p.Passes (ts ++ us) r := by
  induction h with
  | refl => exact hq
  | peek hp _ ih => exact .peek hp (ih hq)
  | take hs _ ih => exact .take hs (ih hq)
  | past hs _ ih => exact .past hs (ih hq)
  | tell needed _ ih => exact .tell needed (ih hq)

/-- A parser that stops behind tokens it has passed stops behind all of them. -/
theorem Passes.stops (h : p.Passes ts q) (hq : q.Stops us e r) : p.Stops (ts ++ us) e r := by
  cases hq with
  | unread hr he => exact .unread (h.trans hr) he
  | refused cause hr => exact .refused cause (h.trans hr)
  | exhausted hr he => exact .exhausted (h.trans hr) he

/-- What takes tokens goes past no end. -/
theorem Took.passes (h : p.Took ts q) : p.Passes ts q := by
  induction h with
  | refl => exact .refl
  | peek hp _ ih => exact .peek hp ih
  | take hs _ ih => exact .take hs ih
  | tell needed _ ih => exact .tell needed ih

/-- What one step takes and what the next takes is taken by both. -/
theorem Took.trans (h : p.Took ts q) (hq : q.Took us r) : p.Took (ts ++ us) r := by
  induction h with
  | refl => exact hq
  | peek hp _ ih => exact .peek hp (ih hq)
  | take hs _ ih => exact .take hs (ih hq)
  | tell needed _ ih => exact .tell needed (ih hq)

/-- Every token that is taken makes the parser smaller. -/
theorem Took.length_le (h : p.Took ts q) : ts.length + q.size ≤ p.size := by
  induction h with
  | refl => simp
  | peek hp _ ih => exact Nat.le_trans ih (Parse.size_peek_le hp)
  | take hs _ ih =>
    have hlt := hs.size_taken_lt
    rw [List.length_cons]
    omega
  | tell needed _ ih => exact ih

/-- The tokens that were taken are the first of those that were left. -/
theorem Took.reads (h : p.Took ts q) (hp : p.Reads us) : ∃ vs, us = ts ++ vs ∧ q.Reads vs := by
  induction h generalizing us with
  | refl => exact ⟨us, rfl, hp⟩
  | peek hpeek _ ih =>
    obtain ⟨p', hp', hr⟩ := hp.peek
    cases hpeek.symm.trans hp'
    exact ih hr
  | take hs _ ih =>
    obtain ⟨us', rfl, hr⟩ := hp.taken hs
    obtain ⟨vs, rfl, hq⟩ := ih hr
    exact ⟨vs, rfl, hq⟩
  | tell needed _ ih => exact ih (hp.withSemicolon needed)

/-- A parser that comes to its end without taking a token was there before. -/
theorem Took.ended (h : p.Took [] q) (hq : q.Ended) : p.Ended := by
  generalize hts : ([] : List Token) = ts at h
  induction h with
  | refl => exact hq
  | @peek p p' q t ts hp _ ih =>
    obtain ⟨p'', hp''⟩ := ih hq hts
    cases (Parse.peek_of_shows (Parse.shows_of_peek hp)).symm.trans hp''
    exact ⟨_, hp⟩
  | take _ _ _ => cases hts
  | @tell p q ts needed _ ih => exact (ih hq hts).withSemicolon p.needsSemicolon

end Parser

namespace Parse
open ScriptLang.Parser
variable {α β : Type}

/-- From `p` the step takes tokens of which `Q` holds, with its result and the parser that is left, or it
stops behind some tokens. -/
def Traced (m : Parse α) (p : Parser) (Q : α → List Token → Parser → Prop) : Prop :=
  match m p with
  | .ok a q => ∃ ts, p.Took ts q ∧ Q a ts q
  | .error e q => ∃ ts, p.Stops ts e q

section
variable {m : Parse α} {f : α → Parse β} {p q : Parser} {Q : α → List Token → Parser → Prop}
  {R : β → List Token → Parser → Prop}

/-- A step that succeeds has taken some tokens, of which the postcondition holds. -/
theorem Traced.of_ok {a : α} (h : Traced m p Q) (ha : m p = .ok a q) : ∃ ts, p.Took ts q ∧ Q a ts q := by
  unfold Traced at h
  rwa [ha] at h

/-- A step that fails stops behind some tokens. -/
theorem Traced.of_error {e : Fault} (h : Traced m p Q) (he : m p = .error e q) : ∃ ts, p.Stops ts e q := by
  unfold Traced at h
  rwa [he] at h

theorem Traced.mono {Q' : α → List Token → Parser → Prop} (h : Traced m p Q)
    (hQ : ∀ a ts q, Q a ts q → Q' a ts q) : Traced m p Q' := by
  unfold Traced at h ⊢
  split
  · next a q hm =>
    rw [hm] at h
    obtain ⟨ts, htook, ha⟩ := h
    exact ⟨ts, htook, hQ a ts q ha⟩
  · next e q hm =>
    rw [hm] at h
    exact h

theorem traced_pure {a : α} (h : Q a [] p) : Traced (pure a) p Q :=
  ⟨[], .refl, h⟩

theorem traced_refuse (cause : Cause) : Traced (refuse cause) p Q :=
  ⟨[], .refused cause .refl⟩

theorem traced_refuse_bind (cause : Cause) : Traced (refuse cause >>= f) p R :=
  ⟨[], .refused cause .refl⟩

theorem traced_unfinished : Traced (throw .unfinished) p Q :=
  ⟨[], .exhausted .refl (Or.inr rfl)⟩

theorem traced_nesting : Traced (throw .nesting) p Q :=
  ⟨[], .exhausted .refl (Or.inl rfl)⟩

/-- One step after another takes what both take, one behind the other. -/
theorem Traced.bind (hm : Traced m p Q)
    (hf : ∀ a ts q, Q a ts q → Traced (f a) q fun b us r => R b (ts ++ us) r) :
    Traced (m >>= f) p R := by
  unfold Traced
  cases ha : m p with
  | error e q =>
    rw [bind_of_error ha]
    exact hm.of_error ha
  | ok a q =>
    obtain ⟨ts, htook, hQ⟩ := hm.of_ok ha
    rw [bind_of_ok ha]
    have hfa := hf a ts q hQ
    cases hb : f a q with
    | ok b r =>
      obtain ⟨us, htook', hR⟩ := hfa.of_ok hb
      exact ⟨ts ++ us, htook.trans htook', hR⟩
    | error e r =>
      obtain ⟨us, hstops⟩ := hfa.of_error hb
      exact ⟨ts ++ us, htook.passes.stops hstops⟩

/-- A step in front that takes nothing leaves the tokens to the steps behind it. -/
theorem Traced.bind_nil {P : α → Parser → Prop} (hm : Traced m p fun a ts q => ts = [] ∧ P a q)
    (hf : ∀ a q, P a q → Traced (f a) q R) : Traced (m >>= f) p R := by
  refine hm.bind ?_
  rintro a _ q ⟨rfl, hP⟩
  exact hf a q hP

theorem Traced.map {g : α → β} (hm : Traced m p fun a => R (g a)) : Traced (g <$> m) p R := by
  rw [← bind_pure_comp]
  refine hm.bind fun a ts q hR => traced_pure ?_
  rwa [List.append_nil]

theorem Traced.get {f : Parser → Parse β} (h : Traced (f p) p R) : Traced (MonadState.get >>= f) p R :=
  h

/-- Fuel does not show in the tokens taken. -/
theorem Traced.bounded {step : Nat → Parse α} (h : Traced (step (p.size + 1)) p Q) :
    Traced (Parse.bounded step) p Q :=
  h

end

section
variable {f : Option Token → Parse β} {p : Parser} {R : β → List Token → Parser → Prop}

/-- Looking ahead takes no token. -/
theorem traced_peek : Traced peek p fun t ts q =>
    ts = [] ∧ q.Shows t ∧ q.needsSemicolon = p.needsSemicolon := by
  unfold Traced
  cases hp : peek p with
  | ok t q => exact ⟨[], .peek hp .refl, rfl, shows_of_peek hp, semicolon_of_peek hp⟩
  | error e q => exact ⟨[], .unread .refl hp⟩

/-- A token that is shown is taken next. -/
theorem traced_advance_of_shows {t : Token} (hs : p.Shows (some t))
    (hf : Traced (f (some t)) p.taken fun b us => R b (t :: us)) : Traced (advance >>= f) p R := by
  have hadvance : Traced advance p fun u ts q => u = some t ∧ ts = [t] ∧ q = p.taken := by
    unfold Traced
    rw [advance_of_shows hs]
    exact ⟨[t], .take hs .refl, rfl, rfl, rfl⟩
  refine hadvance.bind ?_
  rintro _ _ _ ⟨rfl, rfl, rfl⟩
  exact hf

/-- Where a token has to come next, going past the end is refused. -/
theorem traced_advance (hnone : ∃ cause, ∀ q, f none q = .error (.atPosition cause q.place q.file) q)
    (hsome : ∀ t q, q.needsSemicolon = p.needsSemicolon →
      Traced (f (some t)) q fun b us => R b (t :: us)) : Traced (advance >>= f) p R := by
  unfold Traced
  cases hp : peek p with
  | error e q =>
    rw [bind_of_error (advance_of_peek_error hp)]
    exact ⟨[], .unread .refl hp⟩
  | ok t q =>
    have hs := shows_of_peek hp
    cases t with
    | none =>
      obtain ⟨cause, hrefused⟩ := hnone
      rw [bind_of_ok (advance_of_peek hp), hrefused]
      exact ⟨[], .refused cause (.peek hp (.past hs .refl))⟩
    | some t =>
      have hrest := hsome t q.taken (q.taken_needsSemicolon.trans (semicolon_of_peek hp))
      rw [bind_of_ok (advance_of_peek hp)]
      cases hf : f (some t) q.taken with
      | ok b r =>
        obtain ⟨us, htook, hR⟩ := hrest.of_ok hf
        exact ⟨t :: us, .peek hp (.take hs htook), hR⟩
      | error e r =>
        obtain ⟨us, hstops⟩ := hrest.of_error hf
        have hpasses : p.Passes [t] q.taken := .peek hp (.take hs .refl)
        exact ⟨t :: us, hpasses.stops hstops⟩

/-- Where a question about the next token is answered with yes, the token is shown. -/
theorem traced_test (l : Lexeme) : Traced (do return (← peek).any (·.lexeme == l)) p fun b ts q =>
    ts = [] ∧ (b = true → ∃ pos, q.Shows (some ⟨l, pos⟩)) ∧ q.needsSemicolon = p.needsSemicolon := by
  refine traced_peek.bind_nil fun t q hq => traced_pure ⟨rfl, fun ht => ?_, hq.2⟩
  cases t with
  | none => cases ht
  | some t =>
    obtain ⟨l', pos⟩ := t
    obtain rfl : l' = l := by simpa using ht
    exact ⟨pos, hq.1⟩

theorem traced_atMark (c : Char) : Traced (atMark c) p fun b ts q =>
    ts = [] ∧ (b = true → ∃ pos, q.Shows (some ⟨.punctuation c, pos⟩)) ∧
      q.needsSemicolon = p.needsSemicolon :=
  traced_test _

theorem traced_atName (name : String) : Traced (atName name) p fun b ts q =>
    ts = [] ∧ (b = true → ∃ pos, q.Shows (some ⟨.identifier name, pos⟩)) ∧
      q.needsSemicolon = p.needsSemicolon :=
  traced_test _

theorem traced_skip (c : Char) : Traced (skip c) p fun _ ts q =>
    ∃ pos, ts = [⟨.punctuation c, pos⟩] ∧ q.needsSemicolon = p.needsSemicolon := by
  refine (traced_atMark c).bind_nil fun b q hq => ?_
  cases b with
  | true =>
    obtain ⟨pos, hs⟩ := hq.1 rfl
    exact traced_advance_of_shows hs (traced_pure ⟨pos, rfl, hq.2⟩)
  | false => exact traced_peek.bind_nil fun _ _ _ => traced_refuse _

theorem traced_setSemicolon (needed : Bool) : Traced (setSemicolon needed) p fun _ ts q =>
    ts = [] ∧ q.needsSemicolon = needed :=
  ⟨[], .tell needed .refl, rfl, rfl⟩

/-- The operator that comes next is shown, and it is one of the language. -/
theorem traced_operatorAhead : Traced operatorAhead p fun op ts q =>
    ts = [] ∧ q.needsSemicolon = p.needsSemicolon ∧ ∀ ahead ∈ op,
      (∃ o : Operator, ahead.spelling = o.spelling) ∧
        ∃ mark, q.Shows (some ⟨.operator ahead.spelling, mark⟩) ∧ ahead.line = mark.line := by
  refine traced_peek.bind_nil fun t q hq => ?_
  split
  · next s pos =>
    refine traced_pure ⟨rfl, hq.2, fun ahead hahead => ?_⟩
    obtain ⟨power, hpower, rfl⟩ := Option.map_eq_some_iff.mp hahead
    obtain ⟨o, ho, -⟩ := Option.map_eq_some_iff.mp hpower
    exact ⟨⟨o, (Operator.ofSpelling?_eq_some_iff s o).mp ho⟩, pos, hq.1, rfl⟩
  · exact traced_pure ⟨rfl, hq.2, nofun⟩

end
end Parse
end ScriptLang
