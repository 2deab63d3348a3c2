import Mathlib
import ScriptLang.Proofs.Parser.Rules
import ScriptLang.Proofs.Parser.Streams

/-! What a text is parsed to hangs on its significant tokens only: space, comments and the places of
the tokens never decide what the grammar does. -/
namespace ScriptLang.Parser

def SameLexemes (p q : Parser) : Prop :=
  p.needsSemicolon = q.needsSemicolon ∧
    ∃ ts us, p.Reads ts ∧ q.Reads us ∧ ts.map Token.lexeme = us.map Token.lexeme

/-- Refusals of the grammar that differ in their places at most, or too little room on both sides. -/
def RefusedAlike (e f : Fault) : Prop :=
  (e = .nesting ∧ f = .nesting) ∨
    ∃ d d', e = .diagnostic d ∧ f = .diagnostic d' ∧ d.cause = d'.cause ∧ d.family = .grammatical

/-- Parsers in front of the same lexemes see the same one. -/
theorem SameLexemes.peek {p q : Parser} (h : SameLexemes p q) :
    ∃ t p' t' q', Parse.peek p = .ok t p' ∧ Parse.peek q = .ok t' q' ∧
      t.map Token.lexeme = t'.map Token.lexeme ∧ SameLexemes p' q' := by
  obtain ⟨hb, ts, us, hp, hq, hl⟩ := h
  obtain ⟨p', hp', hpr⟩ := hp.peek
  obtain ⟨q', hq', hqr⟩ := hq.peek
  refine ⟨_, p', _, q', hp', hq', ?_, ?_, ts, us, hpr, hqr, hl⟩
  · have hh := congrArg List.head? hl
    simpa using hh
  · rw [Parse.semicolon_of_peek hp', Parse.semicolon_of_peek hq', hb]

theorem SameLexemes.taken {p q : Parser} {t t' : Token} (h : SameLexemes p q)
    (hp : p.Shows (some t)) (hq : q.Shows (some t')) : SameLexemes p.taken q.taken := by
  obtain ⟨hb, ts, us, hpr, hqr, hl⟩ := h
  obtain ⟨ts', rfl, hpr'⟩ := hpr.taken hp
  obtain ⟨us', rfl, hqr'⟩ := hqr.taken hq
  exact ⟨hb, ts', us', hpr', hqr', (List.cons.inj hl).2⟩

def layouts : Simulation where
  toEnding := .together
  left _ := 0
  right _ := 0
  faults := RefusedAlike
  abreast := SameLexemes
  stopped _ _ := True
  semicolon_eq h := h.1
  abreast_withSemicolon b h := by
    obtain ⟨-, ts, us, hp, hq, hl⟩ := h
    exact ⟨rfl, ts, us, hp.withSemicolon b, hq.withSemicolon b, hl⟩
  abreast_peek h := by
    obtain ⟨t, p', t', q', hp, hq, hl, hs⟩ := h.peek
    refine Or.inl ⟨t, p', t', q', hp, hq, ?_, hs⟩
    have hm := congrArg (Option.map fun l => (l, 0)) hl
    rwa [Option.map_map, Option.map_map] at hm
  abreast_taken h hp hq _ := Or.inl (h.taken hp hq)
  stopped_of_abreast _ := trivial
  stopped_taken _ _ _ := trivial
  faults_refused _ _ hc := Or.inr ⟨_, _, rfl, rfl, rfl, hc⟩
  faults_nesting := Or.inl ⟨rfl, rfl⟩

/-- Texts with the same significant lexemes are parsed to the same trees up to lines, or refused by the
grammar with the same message. Only where there is no room for as many nested expressions as either
text has characters may both be given up for that. -/
theorem parse_of_same_lexemes (nesting : Nat) {text text' file file' : String} {ts us : List Token}
    (h : (ofText text file).significant = .ok ts) (h' : (ofText text' file').significant = .ok us)
    (hl : ts.map Token.lexeme = us.map Token.lexeme) :
    (∃ as bs, parse nesting text file = .ok as ∧ parse nesting text' file' = .ok bs ∧
      Node.sameList as bs = true) ∨
    (∃ d d', parse nesting text file = .error (.diagnostic d) ∧
      parse nesting text' file' = .error (.diagnostic d') ∧
      d.family = .grammatical ∧ d'.family = .grammatical ∧ d.bare = d'.bare) ∨
    (nesting ≤ text.length ∧ nesting ≤ text'.length ∧
      parse nesting text file = .error .nesting ∧ parse nesting text' file' = .error .nesting) := by
  let p := ofText text file
  let q := ofText text' file'
  have hs : layouts.abreast p q :=
    ⟨rfl, ts, us, significant_eq_ok_iff.mp h, significant_eq_ok_iff.mp h', hl⟩
  have hr := Simulation.runs_statements (S := layouts) trivial nesting hs
    (Nat.lt_succ_self p.size) (Nat.lt_succ_self q.size)
  unfold Simulation.Runs at hr
  rw [parse_eq, parse_eq]
  cases hp : Parse.statements nesting (p.size + 1) p with
  | ok as p' =>
    rw [hp] at hr
    obtain ⟨-, bs, q', hq, -, hlist, -⟩ := hr
    refine Or.inl ⟨as, bs, rfl, by rw [hq], ?_⟩
    exact Node.sameList_of_mapLines_eq as bs (by simpa using hlist)
  | error e p' =>
    rw [hp] at hr
    obtain ⟨hn, e', q', hq, hf, -⟩ := hr trivial
    rcases hf with ⟨rfl, rfl⟩ | ⟨d, d', rfl, rfl, hc, hg⟩
    · obtain ⟨hkp, hkq⟩ := hn rfl
      rw [size_ofText] at hkp hkq
      exact Or.inr (Or.inr ⟨hkp, hkq, rfl, by rw [hq]⟩)
    · refine Or.inr (Or.inl ⟨d, d', rfl, by rw [hq], hg, ?_, ?_⟩)
      · simpa [Diagnostic.family, ← hc] using hg
      · simp [Diagnostic.bare, hc]

/-- A call with a comment inside it is the call. -/
theorem parse_of_same_lexemes_of_call :
    ∃ nodes, parse 4 "f (x // one\n) ;" "b" = .ok nodes ∧
      Node.sameList [.call 1 "f" [.reference 1 "x"]] nodes = true := by
  have ha : parse 4 "f(x);" "a" = .ok [.call 1 "f" [.reference 1 "x"]] := by cbv
  have hl : (ofText "f(x);" "a").significant = .ok [⟨.identifier "f", ⟨1, 0⟩⟩,
      ⟨.punctuation '(', ⟨1, 1⟩⟩, ⟨.identifier "x", ⟨1, 2⟩⟩, ⟨.punctuation ')', ⟨1, 3⟩⟩,
      ⟨.punctuation ';', ⟨1, 4⟩⟩] := by cbv
  have hr : (ofText "f (x // one\n) ;" "b").significant = .ok [⟨.identifier "f", ⟨1, 0⟩⟩,
      ⟨.punctuation '(', ⟨1, 2⟩⟩, ⟨.identifier "x", ⟨1, 3⟩⟩, ⟨.punctuation ')', ⟨2, 0⟩⟩,
      ⟨.punctuation ';', ⟨2, 2⟩⟩] := by cbv
  rcases parse_of_same_lexemes 4 hl hr rfl with ⟨as, bs, hp, hq, hs⟩ | ⟨d, d', hp, -⟩ | ⟨-, -, hp, -⟩
  · rw [ha] at hp
    cases hp
    exact ⟨bs, hq, hs⟩
  · rw [ha] at hp
    cases hp
  · rw [ha] at hp
    cases hp

end ScriptLang.Parser
