import ScriptLang.Proofs.Parser.Tokens
import ScriptLang.Proofs.Tree.Lines

/-! Two runs of the grammar side by side. A simulation says how the states of two parsers correspond and
what looking ahead and taking a token does to them; every rule of the grammar then takes both
parsers to results that agree up to the lines seen through two functions. The run on the left may
come to its end early, as long as it goes wrong there or stands right behind a block or a statement. -/
namespace ScriptLang

def Token.seen (f : Nat → Nat) (t : Token) : Lexeme × Nat :=
  (t.lexeme, f t.pos.line)

/-- Tokens that are seen alike are of one lexeme, on lines that are seen alike. -/
theorem Token.seen_cases {f g : Nat → Nat} {t t' : Option Token}
    (h : t.map (Token.seen f) = t'.map (Token.seen g)) :
    (t = none ∧ t' = none) ∨
      ∃ l pos pos', t = some ⟨l, pos⟩ ∧ t' = some ⟨l, pos'⟩ ∧ f pos.line = g pos'.line := by
  cases t with
  | none => cases t' with
    | none => exact Or.inl ⟨rfl, rfl⟩
    | some t' => cases h
  | some t => cases t' with
    | none => cases h
    | some t' =>
      obtain ⟨l, pos⟩ := t
      obtain ⟨l', pos'⟩ := t'
      simp only [Option.map_some, Option.some.injEq, Token.seen, Prod.mk.injEq] at h
      obtain ⟨rfl, hline⟩ := h
      exact Or.inr ⟨l, pos, pos', rfl, rfl, hline⟩

theorem Token.any_eq_of_seen_eq {f g : Nat → Nat} {t t' : Option Token}
    (h : t.map (Token.seen f) = t'.map (Token.seen g)) (test : Lexeme → Bool) :
    t.any (fun t => test t.lexeme) = t'.any (fun t => test t.lexeme) := by
  rcases Token.seen_cases h with ⟨rfl, rfl⟩ | ⟨l, pos, pos', rfl, rfl, -⟩
  · rfl
  · rfl

def Token.Separate (t : Token) : Prop :=
  t.lexeme.operator? = none ∧ t.lexeme ≠ .identifier "else"

/-- How the run on the left may come to its end before the one on the right. -/
structure Ending where
  /-- Whether the run on the right has to fail where the one on the left does. -/
  strict : Prop
  /-- The parser on the left is at its end behind a block, the one on the right before a separate
  token. -/
  closed : Parser → Parser → Prop
  /-- The parser on the left is at its end. -/
  past : Parser → Parser → Prop
  closed_semicolon_eq : ∀ {p q}, closed p q → p.needsSemicolon = q.needsSemicolon
  closed_withSemicolon : ∀ {p q} (b), closed p q → closed (p.withSemicolon b) (q.withSemicolon b)
  closed_peek : ∀ {p q}, closed p q → ∃ p' t' q', Parse.peek p = .ok none p' ∧
    Parse.peek q = .ok t' q' ∧ closed p' q' ∧ ∀ t ∈ t', t.Separate
  past_of_closed : ∀ {p q}, closed p q → past p q
  ended_of_past : ∀ {p q}, past p q → p.Ended
  not_strict_of_past : ∀ {p q}, past p q → ¬strict

def Ending.together : Ending where
  strict := True
  closed _ _ := False
  past _ _ := False
  closed_semicolon_eq h := h.elim
  closed_withSemicolon _ h := h
  closed_peek h := h.elim
  past_of_closed h := h
  ended_of_past h := h.elim
  not_strict_of_past h := h.elim

structure Simulation extends Ending where
  /-- How lines of the run on the left are seen. -/
  left : Nat → Nat
  /-- How lines of the run on the right are seen. -/
  right : Nat → Nat
  faults : Fault → Fault → Prop
  /-- Both parsers have the same before them. -/
  abreast : Parser → Parser → Prop
  /-- Both parsers stopped with a fault. -/
  stopped : Parser → Parser → Prop
  semicolon_eq : ∀ {p q}, abreast p q → p.needsSemicolon = q.needsSemicolon
  abreast_withSemicolon : ∀ {p q} (b), abreast p q → abreast (p.withSemicolon b) (q.withSemicolon b)
  abreast_peek : ∀ {p q}, abreast p q →
    (∃ t p' t' q', Parse.peek p = .ok t p' ∧ Parse.peek q = .ok t' q' ∧
      t.map (Token.seen left) = t'.map (Token.seen right) ∧ abreast p' q') ∨
    ∃ e p', Parse.peek p = .error e p' ∧ (strict → e ≠ .nesting ∧
      ∃ e' q', Parse.peek q = .error e' q' ∧ faults e e' ∧ stopped p' q')
  abreast_taken : ∀ {p q t t'}, abreast p q → p.Shows (some t) → q.Shows (some t') →
    t.seen left = t'.seen right →
    abreast p.taken q.taken ∨ (t.lexeme = .punctuation '}' ∧ closed p.taken q.taken) ∨
      (t.lexeme = .punctuation ';' ∧ past p.taken q.taken)
  stopped_of_abreast : ∀ {p q}, abreast p q → stopped p q
  stopped_taken : ∀ {p q}, abreast p q → p.Shows none → q.Shows none → stopped p.taken q.taken
  faults_refused : ∀ {p q} (cause : Cause), stopped p q → cause.family = .grammatical →
    faults (.atPosition cause p.place p.file) (.atPosition cause q.place q.file)
  faults_nesting : faults .nesting .nesting

namespace Simulation
variable (S : Simulation) {α β γ δ : Type} {k : Nat} {p q : Parser}

/-- From `p` and `q` the steps `m` and `m'` come to results that `Q` relates, or fail alike. They never
make a parser larger, and give up for nesting only where `k` is within the size of both. -/
def Runs (k : Nat) (p q : Parser) (m : Parse α) (m' : Parse β)
    (Q : α → β → Parser → Parser → Prop) : Prop :=
  match m p with
  | .ok a p' => p'.size ≤ p.size ∧ ∃ b q', m' q = .ok b q' ∧ q'.size ≤ q.size ∧ Q a b p' q'
  | .error e p' => S.strict → (e = .nesting → k ≤ p.size ∧ k ≤ q.size) ∧
    ∃ e' q', m' q = .error e' q' ∧ S.faults e e' ∧ S.stopped p' q'

variable {S} {m : Parse α} {m' : Parse β} {Q : α → β → Parser → Parser → Prop}
  {f : α → Parse γ} {f' : β → Parse δ} {R : γ → δ → Parser → Parser → Prop}

theorem Runs.pure {a : α} {b : β} (h : Q a b p q) :
    S.Runs k p q (Pure.pure a : Parse α) (Pure.pure b : Parse β) Q :=
  ⟨Nat.le_refl _, b, q, rfl, Nat.le_refl _, h⟩

theorem Runs.mono {Q' : α → β → Parser → Parser → Prop} (h : S.Runs k p q m m' Q)
    (hQ : ∀ a b p' q', Q a b p' q' → Q' a b p' q') : S.Runs k p q m m' Q' := by
  unfold Runs at h ⊢
  split
  · next a p' hm =>
    rw [hm] at h
    obtain ⟨hp, b, q', hb, hq, h⟩ := h
    exact ⟨hp, b, q', hb, hq, hQ a b p' q' h⟩
  · next e p' hm =>
    rw [hm] at h
    exact h

/-- A run that goes wrong on the left is matched by any other, unless the simulation is strict. -/
theorem Runs.of_left_error {e : Fault} {p' : Parser} (hs : ¬S.strict) (h : m p = .error e p') :
    S.Runs k p q m m' Q := by
  unfold Runs
  rw [h]
  exact fun hs' => absurd hs' hs

theorem Runs.refuse (cause : Cause) (hc : cause.family = .grammatical) (h : S.strict → S.stopped p q) :
    S.Runs k p q (Parse.refuse cause : Parse α) (Parse.refuse cause : Parse β) Q := by
  refine fun hs => ⟨fun he => ?_, _, q, rfl, S.faults_refused cause (h hs) hc, h hs⟩
  cases he

/-- One run after another. The levels of nesting of both may differ by what the first one took. -/
theorem Runs.bind_levels {j : Nat} (hm : S.Runs j p q m m' Q)
    (hf : ∀ a b p' q', p'.size ≤ p.size → q'.size ≤ q.size → Q a b p' q' →
      (k ≤ p'.size → k ≤ q'.size → j ≤ p.size ∧ j ≤ q.size) ∧ S.Runs k p' q' (f a) (f' b) R) :
    S.Runs j p q (m >>= f) (m' >>= f') R := by
  have hb (m : Parse α) (f : α → Parse γ) (p : Parser) : (m >>= f) p = EStateM.bind m f p := rfl
  have hb' (m : Parse β) (f : β → Parse δ) (p : Parser) : (m >>= f) p = EStateM.bind m f p := rfl
  unfold Runs at hm ⊢
  rw [hb, hb']
  unfold EStateM.bind
  cases hmp : m p with
  | ok a p' =>
    rw [hmp] at hm
    obtain ⟨hp, b, q', hmq, hq, hQ⟩ := hm
    obtain ⟨hl, hr⟩ := hf a b p' q' hp hq hQ
    unfold Runs at hr
    simp only [hmq]
    split
    · next c p'' hfp =>
      rw [hfp] at hr
      obtain ⟨hp', d, q'', hfq, hq', hR⟩ := hr
      exact ⟨by omega, d, q'', hfq, by omega, hR⟩
    · next e p'' hfp =>
      rw [hfp] at hr
      intro hs
      obtain ⟨hn, hfail⟩ := hr hs
      exact ⟨fun he => hl (hn he).1 (hn he).2, hfail⟩
  | error e p' =>
    rw [hmp] at hm
    intro hs
    obtain ⟨hn, e', q', hmq, hfail⟩ := hm hs
    exact ⟨hn, e', q', by rw [hmq], hfail⟩

/-- Runs in step stay so in a further step, whatever both have come to. -/
theorem Runs.bind (hm : S.Runs k p q m m' Q)
    (hf : ∀ a b p' q', p'.size ≤ p.size → q'.size ≤ q.size → Q a b p' q' →
      S.Runs k p' q' (f a) (f' b) R) : S.Runs k p q (m >>= f) (m' >>= f') R := by
  refine Runs.bind_levels hm fun a b p' q' hp hq hQ => ⟨fun h h' => ?_, hf a b p' q' hp hq hQ⟩
  omega

/-- Behind a token that was taken there is room for one more level of nesting. -/
theorem Runs.bind_taken (hm : S.Runs (k + 1) p q m m' Q)
    (hf : ∀ a b p' q', p'.size ≤ p.size → q'.size ≤ q.size → Q a b p' q' →
      p'.size < p.size ∧ q'.size < q.size ∧ S.Runs k p' q' (f a) (f' b) R) :
    S.Runs (k + 1) p q (m >>= f) (m' >>= f') R := by
  refine Runs.bind_levels (k := k) hm fun a b p' q' hp hq hQ => ?_
  obtain ⟨hp', hq', hr⟩ := hf a b p' q' hp hq hQ
  exact ⟨fun h h' => by omega, hr⟩

/-- Nothing comes after a refusal. -/
theorem Runs.refuse_bind (cause : Cause) (hc : cause.family = .grammatical)
    (h : S.strict → S.stopped p q) :
    S.Runs k p q ((Parse.refuse cause : Parse α) >>= f) ((Parse.refuse cause : Parse β) >>= f') R := by
  have hr : S.Runs k p q (Parse.refuse cause : Parse α) (Parse.refuse cause : Parse β)
      (fun _ _ _ _ => False) := Runs.refuse cause hc h
  exact Runs.bind hr fun _ _ _ _ _ _ hfalse => hfalse.elim

theorem Runs.map {g : α → γ} {g' : β → δ} (hm : S.Runs k p q m m' Q)
    (hg : ∀ a b p' q', p'.size ≤ p.size → q'.size ≤ q.size → Q a b p' q' → R (g a) (g' b) p' q') :
    S.Runs k p q (g <$> m) (g' <$> m') R := by
  have hmap : g <$> m = m >>= fun a => Pure.pure (g a) := (bind_pure_comp g m).symm
  have hmap' : g' <$> m' = m' >>= fun b => Pure.pure (g' b) := (bind_pure_comp g' m').symm
  rw [hmap, hmap']
  exact Runs.bind hm fun a b p' q' hp hq hQ => Runs.pure (hg a b p' q' hp hq hQ)

/-- Fuel counted by what is left to each of the two parsers lets them run as they do with it. -/
theorem Runs.bounded {step : Nat → Parse α} {step' : Nat → Parse β}
    (h : S.Runs k p q (step (p.size + 1)) (step' (q.size + 1)) Q) :
    S.Runs k p q (Parse.bounded step) (Parse.bounded step') Q :=
  h

theorem Runs.get {f : Parser → Parse γ} {f' : Parser → Parse δ} (h : S.Runs k p q (f p) (f' q) R) :
    S.Runs k p q (MonadState.get >>= f) (MonadState.get >>= f') R :=
  h

structure Peeked (S : Simulation) (t t' : Option Token) (p q : Parser) : Prop where
  abreast : S.abreast p q
  left : p.Shows t
  right : q.Shows t'
  seen : t.map (Token.seen S.left) = t'.map (Token.seen S.right)

def After (S : Simulation) (l : Lexeme) (p q : Parser) : Prop :=
  S.abreast p q ∨ (l = .punctuation '}' ∧ S.closed p q) ∨ (l = .punctuation ';' ∧ S.past p q)

def Live (S : Simulation) (p q : Parser) : Prop :=
  S.abreast p q ∨ S.closed p q

theorem After.abreast {l : Lexeme} (h : S.After l p q) (hb : l ≠ .punctuation '}')
    (hs : l ≠ .punctuation ';') : S.abreast p q := by
  rcases h with h | ⟨hl, -⟩ | ⟨hl, -⟩
  · exact h
  · exact absurd hl hb
  · exact absurd hl hs

/-- Behind the brace of a block the parser on the left may be at its end, but not past it. -/
theorem After.live (h : S.After (.punctuation '}') p q) : S.Live p q := by
  rcases h with h | ⟨-, h⟩ | ⟨hl, -⟩
  · exact Or.inl h
  · exact Or.inr h
  · cases hl

/-- Where the right run has to fail as the left one does, both have stopped in step. -/
theorem After.stopped {l : Lexeme} (h : S.After l p q) (hs : S.strict) : S.stopped p q := by
  rcases h with h | ⟨-, h⟩ | ⟨-, h⟩
  · exact S.stopped_of_abreast h
  · exact absurd hs (S.not_strict_of_past (S.past_of_closed h))
  · exact absurd hs (S.not_strict_of_past h)

/-- Two parsers that go on in step ask for a semicolon alike. -/
theorem Live.semicolon_eq (h : S.Live p q) : p.needsSemicolon = q.needsSemicolon := by
  rcases h with h | h
  · exact S.semicolon_eq h
  · exact S.closed_semicolon_eq h

theorem Live.withSemicolon (h : S.Live p q) (b : Bool) :
    S.Live (p.withSemicolon b) (q.withSemicolon b) := by
  rcases h with h | h
  · exact Or.inl (S.abreast_withSemicolon b h)
  · exact Or.inr (S.closed_withSemicolon b h)

/-- Parsers abreast see the same token. -/
theorem runs_peek (h : S.abreast p q) : S.Runs k p q Parse.peek Parse.peek S.Peeked := by
  unfold Runs
  rcases S.abreast_peek h with ⟨t, p', t', q', hp, hq, ht, ha⟩ | ⟨e, p', hp, he⟩
  · rw [hp]
    exact ⟨Parse.size_peek_le hp, t', q', hq, Parse.size_peek_le hq,
      ha, Parse.shows_of_peek hp, Parse.shows_of_peek hq, ht⟩
  · rw [hp]
    intro hs
    obtain ⟨hn, e', q', hq, hf⟩ := he hs
    exact ⟨fun hn' => absurd hn' hn, e', q', hq, hf⟩

def Tested (S : Simulation) (l : Lexeme) (b b' : Bool) (p q : Parser) : Prop :=
  b = b' ∧ ∃ t t', S.Peeked t t' p q ∧ b = t.any (·.lexeme == l)

theorem runs_test (h : S.abreast p q) (l : Lexeme) :
    S.Runs k p q (do return (← Parse.peek).any (·.lexeme == l))
      (do return (← Parse.peek).any (·.lexeme == l)) (S.Tested l) := by
  refine Runs.bind (runs_peek h) fun t t' p' q' _ _ hs => Runs.pure ?_
  exact ⟨Token.any_eq_of_seen_eq hs.seen (· == l), t, t', hs, rfl⟩

theorem runs_atMark (h : S.abreast p q) (c : Char) :
    S.Runs k p q (Parse.atMark c) (Parse.atMark c) (S.Tested (.punctuation c)) :=
  runs_test h _

theorem runs_atName (h : S.abreast p q) (name : String) :
    S.Runs k p q (Parse.atName name) (Parse.atName name) (S.Tested (.identifier name)) :=
  runs_test h _

theorem Tested.abreast {l : Lexeme} {b b' : Bool} (h : S.Tested l b b' p q) : S.abreast p q := by
  obtain ⟨-, t, t', hp, -⟩ := h
  exact hp.abreast

/-- A test that was passed shows the token on both sides. -/
theorem Tested.shows {l : Lexeme} {b' : Bool} (h : S.Tested l true b' p q) :
    ∃ t t', S.Peeked (some t) (some t') p q ∧ t.lexeme = l := by
  obtain ⟨-, t, t', hp, hb⟩ := h
  cases t with
  | none => cases hb
  | some t =>
    have hl : t.lexeme = l := by simpa using hb.symm
    cases t' with
    | none => cases hp.seen
    | some t' => exact ⟨t, t', hp, hl⟩

inductive Took (S : Simulation) (p q : Parser) : Option Token → Option Token → Parser → Parser → Prop
  | none {p' q'} : S.stopped p' q' → Took S p q none none p' q'
  | some {t t' p' q'} : t.seen S.left = t'.seen S.right → S.After t.lexeme p' q' →
    p'.size < p.size → q'.size < q.size → Took S p q (some t) (some t') p' q'

theorem runs_advance_of_peeked {t t' : Option Token} (h : S.Peeked t t' p q) :
    S.Runs k p q Parse.advance Parse.advance
      (fun a b p' q' => a = t ∧ b = t' ∧ S.Took p q a b p' q') := by
  unfold Runs
  rw [Parse.advance_of_shows h.left]
  refine ⟨p.size_taken_le, t', q.taken, Parse.advance_of_shows h.right, q.size_taken_le, rfl, rfl, ?_⟩
  rcases Token.seen_cases h.seen with ⟨rfl, rfl⟩ | ⟨l, pos, pos', rfl, rfl, -⟩
  · exact .none (S.stopped_taken h.abreast h.left h.right)
  · have ht : Token.seen S.left ⟨l, pos⟩ = Token.seen S.right ⟨l, pos'⟩ := Option.some.inj h.seen
    exact .some ht (S.abreast_taken h.abreast h.left h.right ht) h.left.size_taken_lt
      h.right.size_taken_lt

/-- Taking a token that ends neither a block nor a statement keeps both parsers abreast. -/
theorem runs_take {t t' : Token} (h : S.Peeked (some t) (some t') p q)
    (hb : t.lexeme ≠ .punctuation '}') (hs : t.lexeme ≠ .punctuation ';') :
    S.Runs k p q Parse.advance Parse.advance (fun a b p' q' => a = some t ∧ b = some t' ∧
      S.abreast p' q' ∧ p'.size < p.size ∧ q'.size < q.size) := by
  refine (runs_advance_of_peeked h).mono fun a b p' q' htook => ?_
  obtain ⟨rfl, rfl, htook⟩ := htook
  cases htook with
  | some _ hafter hp hq => exact ⟨rfl, rfl, hafter.abreast hb hs, hp, hq⟩

/-- Parsers abreast take the same token, or stop alike. -/
theorem runs_advance (h : S.abreast p q) :
    S.Runs k p q Parse.advance Parse.advance (S.Took p q) := by
  unfold Runs
  rcases S.abreast_peek h with ⟨t, p', t', q', hp, hq, ht, ha⟩ | ⟨e, p', hp, he⟩
  · have hpk : S.Peeked t t' p' q' := ⟨ha, Parse.shows_of_peek hp, Parse.shows_of_peek hq, ht⟩
    have hr := runs_advance_of_peeked (k := k) hpk
    have hsp := Parse.size_peek_le hp
    have hsq := Parse.size_peek_le hq
    unfold Runs at hr
    rw [Parse.advance_of_shows hpk.left] at hr
    obtain ⟨hp', b, q'', hb, hq', -, -, htook⟩ := hr
    rw [Parse.advance_of_peek hp]
    rw [Parse.advance_of_shows hpk.right] at hb
    cases hb
    refine ⟨by omega, t', q'.taken, Parse.advance_of_peek hq, by omega, ?_⟩
    cases htook with
    | none hstop => exact .none hstop
    | some hseen hafter hlp hlq => exact .some hseen hafter (by omega) (by omega)
  · rw [Parse.advance_of_peek_error hp]
    intro hs
    obtain ⟨hn, e', q', hq, hf⟩ := he hs
    exact ⟨fun hn' => absurd hn' hn, e', q', Parse.advance_of_peek_error hq, hf⟩

theorem runs_setSemicolon (h : S.Live p q) (b : Bool) :
    S.Runs k p q (Parse.setSemicolon b) (Parse.setSemicolon b)
      (fun _ _ p' q' => p' = p.withSemicolon b ∧ q' = q.withSemicolon b ∧ S.Live p' q') :=
  ⟨Nat.le_refl _, (), _, rfl, Nat.le_refl _, rfl, rfl, h.withSemicolon b⟩

theorem found_eq {t t' : Option Token} (h : t.map (Token.seen S.left) = t'.map (Token.seen S.right)) :
    Parse.found t = Parse.found t' := by
  rcases Token.seen_cases h with ⟨rfl, rfl⟩ | ⟨l, pos, pos', rfl, rfl, -⟩
  · rfl
  · rfl

theorem runs_missing (h : S.abreast p q) (mark : String) :
    S.Runs k p q (Parse.missing mark : Parse α) (Parse.missing mark : Parse β) Q := by
  refine Runs.bind (runs_peek h) fun t t' p' q' _ _ hs => ?_
  rw [found_eq hs.seen]
  exact Runs.refuse _ rfl fun _ => S.stopped_of_abreast hs.abreast

theorem runs_skip (h : S.abreast p q) (c : Char) :
    S.Runs k p q (Parse.skip c) (Parse.skip c) (fun _ _ p' q' =>
      S.After (.punctuation c) p' q' ∧ p'.size < p.size ∧ q'.size < q.size) := by
  refine Runs.bind (runs_atMark h c) fun b b' p₁ q₁ hp hq hb => ?_
  obtain rfl := hb.1
  cases b with
  | false => exact runs_missing hb.abreast c.toString
  | true =>
    obtain ⟨t, t', hpk, hl⟩ := hb.shows
    refine Runs.bind (runs_advance_of_peeked hpk) fun a a' p₂ q₂ _ _ ha => Runs.pure ?_
    obtain ⟨rfl, rfl, htook⟩ := ha
    cases htook with
    | some _ hafter hlp hlq =>
      rw [hl] at hafter
      exact ⟨hafter, by omega, by omega⟩

/-- A mark that ends neither a block nor a statement keeps both parsers abreast. -/
theorem runs_skip_inner (h : S.abreast p q) (c : Char) (hb : c ≠ '}') (hs : c ≠ ';') :
    S.Runs k p q (Parse.skip c) (Parse.skip c) (fun _ _ p' q' =>
      S.abreast p' q' ∧ p'.size < p.size ∧ q'.size < q.size) := by
  refine (runs_skip h c).mono fun _ _ p' q' ha => ⟨ha.1.abreast ?_ ?_, ha.2⟩
  · simpa using hb
  · simpa using hs

/-- At its end the parser on the left has no mark to skip. -/
theorem runs_skip_of_closed (h : S.closed p q) (c : Char) :
    S.Runs k p q (Parse.skip c) m' (fun _ _ _ _ => False) := by
  have ho := S.past_of_closed h
  obtain ⟨e, p', he⟩ := Parse.skip_of_ended (S.ended_of_past ho) c
  exact Runs.of_left_error (S.not_strict_of_past ho) he

theorem runs_skip_of_live (h : S.Live p q) (c : Char) (hb : c ≠ '}') (hs : c ≠ ';') :
    S.Runs k p q (Parse.skip c) (Parse.skip c) (fun _ _ p' q' =>
      S.abreast p' q' ∧ p'.size < p.size ∧ q'.size < q.size) := by
  rcases h with ha | hc
  · exact runs_skip_inner ha c hb hs
  · exact (runs_skip_of_closed hc c).mono fun _ _ _ _ hf => hf.elim

end Simulation
end ScriptLang
