import Mathlib
import ScriptLang.Proofs.Parser.Phrases

/-! Which statements end with a semicolon. The last closing mark among the tokens of a statement decides: a
brace waives the semicolon, and a parenthesis asks for it again. -/
namespace ScriptLang

/-- Among the tokens is a closing brace behind which no parenthesis is closed. -/
def Waived (ts : List Token) : Prop :=
  ∃ us pos vs, ts = us ++ ⟨.punctuation '}', pos⟩ :: vs ∧ ∀ v ∈ vs, v.lexeme ≠ .punctuation ')'

/-- A semicolon is waived by a brace that no closing parenthesis follows. -/
theorem waived_cons {t : Token} {ts : List Token} :
    Waived (t :: ts) ↔ Waived ts ∨
      (t.lexeme = .punctuation '}' ∧ ∀ v ∈ ts, v.lexeme ≠ .punctuation ')') := by
  constructor
  · rintro ⟨us, pos, vs, hts, hvs⟩
    cases us with
    | nil =>
      obtain ⟨rfl, rfl⟩ := List.cons.inj hts
      exact Or.inr ⟨rfl, hvs⟩
    | cons u us =>
      obtain ⟨rfl, rfl⟩ := List.cons.inj hts
      exact Or.inl ⟨us, pos, vs, rfl, hvs⟩
  · rintro (⟨us, pos, vs, rfl, hvs⟩ | ⟨ht, hts⟩)
    · exact ⟨t :: us, pos, vs, rfl, hvs⟩
    · obtain ⟨l, pos⟩ := t
      cases ht
      exact ⟨[], pos, ts, rfl, hts⟩

/-- The last closing mark decides, and where there is none all stays as before. -/
theorem foldl_needsAfter_eq_false_iff {needed : Bool} {ts : List Token} :
    ts.foldl Token.needsAfter needed = false ↔
      Waived ts ∨ (needed = false ∧ ∀ t ∈ ts, t.lexeme ≠ .punctuation ')') := by
  induction ts generalizing needed with
  | nil => simp [Waived]
  | cons t ts ih =>
    rw [List.foldl_cons, ih, waived_cons]
    unfold Token.needsAfter
    by_cases hpar : t.lexeme = .punctuation ')'
    · simp [hpar]
    · by_cases hbrace : t.lexeme = .punctuation '}'
      · simp only [hbrace, if_true, true_and, List.forall_mem_cons]
        tauto
      · simp [hpar, hbrace]

namespace Parser

variable {p q : Parser}

/-- A statement takes a semicolon unless it has a closing brace behind which no parenthesis is closed,
and the next one needs its semicolon again. -/
theorem semicolon_of_next {nesting : Nat} {node : Node} (hp : p.needsSemicolon = true)
    (h : Parse.next nesting p = .ok (some node) q) :
    ∃ ts r, Parse.primary nesting p = .ok (some node) r ∧ p.Took ts r ∧ q.needsSemicolon = true ∧
      ((∃ pos, r.Took [⟨.punctuation ';', pos⟩] q) ↔ ¬Waived ts) ∧
      (Waived ts → q = r.withSemicolon true) := by
  obtain ⟨_, -, hstated⟩ := (Parse.traced_next nesting p).of_ok h
  have hq := hstated.semicolon rfl
  obtain ⟨a, r, hprimary, h⟩ := ok_of_bind h
  cases a with
  | none => cases h
  | some a =>
    obtain ⟨ts, htook, hexpressed⟩ := (Parse.traced_primary nesting p).of_ok hprimary
    -- The flag was true at first, so only the tokens of the statement can have cleared it.
    have hwaived : r.needsSemicolon = false ↔ Waived ts := by
      rw [(hexpressed.phrase a rfl).semicolon, hp, foldl_needsAfter_eq_false_iff]
      simp
    obtain ⟨r', r'', hget, h⟩ := ok_of_bind h
    cases hget
    split at h
    · next hr =>
      obtain ⟨_, q', hskip, h⟩ := ok_of_bind h
      cases h
      have hneeded : ¬Waived ts := by
        rw [← hwaived, hr]
        simp
      obtain ⟨_, hsemicolon, pos, rfl, -⟩ := (Parse.traced_skip ';').of_ok hskip
      refine ⟨ts, r, hprimary, htook, hq, ?_, fun hw => absurd hw hneeded⟩
      exact ⟨fun _ => hneeded, fun _ => ⟨pos, hsemicolon⟩⟩
    · next hr =>
      cases h
      have hw : Waived ts := hwaived.mp (by simpa using hr)
      refine ⟨ts, r, hprimary, htook, hq, ?_, fun _ => rfl⟩
      refine ⟨fun ⟨pos, htook⟩ => ?_, fun hn => absurd hw hn⟩
      have hlength : 1 + r.size ≤ r.size := htook.length_le
      omega

def functionPlusOne : Node :=
  .binary 1 "+" (some (.function 1 ⟨1, "f", [], "any"⟩ [])) (some (.literal 1 (.integer 1)))

def behindFunctionPlusOne : Parser :=
  ⟨⟨⟨[], ⟨1, 16⟩, "f"⟩, some (some ⟨.punctuation ';', ⟨1, 15⟩⟩)⟩, false⟩

theorem parse_functionPlusOne :
    Parse.primary 3 (ofText "let f() { } + 1;" "f") =
        .ok (some functionPlusOne) behindFunctionPlusOne ∧
      Parse.next 3 (ofText "let f() { } + 1;" "f") =
        .ok (some functionPlusOne) (behindFunctionPlusOne.withSemicolon true) := by
  constructor
  · cbv
  · cbv

/-- A function that is an operand closes its brace, and nothing is closed behind it. So its statement
takes no semicolon, and the one that stands there is left to the next statement. -/
theorem semicolon_of_next_of_function_operand :
    ∃ ts, (ofText "let f() { } + 1;" "f").Took ts behindFunctionPlusOne ∧ Waived ts ∧
      Parse.next 3 (ofText "let f() { } + 1;" "f") =
        .ok (some functionPlusOne) (behindFunctionPlusOne.withSemicolon true) := by
  obtain ⟨hprimary, hnext⟩ := parse_functionPlusOne
  obtain ⟨ts, r, hr, htook, -, hiff, -⟩ := semicolon_of_next rfl hnext
  cases hprimary.symm.trans hr
  refine ⟨ts, htook, ?_, hnext⟩
  by_contra hneeded
  obtain ⟨pos, hlast⟩ := hiff.mpr hneeded
  have hlength : 1 + behindFunctionPlusOne.size ≤ behindFunctionPlusOne.size := hlast.length_le
  omega

/-- A statement whose last token is no closing brace may be left without its semicolon. -/
theorem not_semicolon_of_last_token :
    ¬∀ (nesting : Nat) (p q r : Parser) (node : Node) (ts : List Token) (t : Token),
      p.needsSemicolon = true → Parse.next nesting p = .ok (some node) q →
      Parse.primary nesting p = .ok (some node) r → p.Took (ts ++ [t]) r →
      ((∃ pos, r.Took [⟨.punctuation ';', pos⟩] q) ↔ t.lexeme ≠ .punctuation '}') := by
  intro hlastToken
  obtain ⟨hprimary, hnext⟩ := parse_functionPlusOne
  let ts : List Token := [⟨.identifier "let", ⟨1, 0⟩⟩, ⟨.identifier "f", ⟨1, 4⟩⟩,
    ⟨.punctuation '(', ⟨1, 5⟩⟩, ⟨.punctuation ')', ⟨1, 6⟩⟩, ⟨.punctuation '{', ⟨1, 8⟩⟩,
    ⟨.punctuation '}', ⟨1, 10⟩⟩, ⟨.operator "+", ⟨1, 12⟩⟩]
  have hall : (ofText "let f() { } + 1;" "f").significant =
      .ok (ts ++ [⟨.integer 1, ⟨1, 14⟩⟩] ++ [⟨.punctuation ';', ⟨1, 15⟩⟩]) := by cbv
  have hlast : behindFunctionPlusOne.significant = .ok [⟨.punctuation ';', ⟨1, 15⟩⟩] := by cbv
  obtain ⟨us, hus, -⟩ := (Parse.traced_primary 3 _).of_ok hprimary
  obtain ⟨vs, hall', hvs⟩ := hus.reads (significant_eq_ok_iff.mp hall)
  cases hlast.symm.trans (significant_eq_ok_iff.mpr hvs)
  have htook : (ofText "let f() { } + 1;" "f").Took (ts ++ [⟨.integer 1, ⟨1, 14⟩⟩])
      behindFunctionPlusOne := by
    rw [List.append_cancel_right hall']
    exact hus
  obtain ⟨pos, hsemicolon⟩ := (hlastToken 3 _ _ _ _ ts _ rfl hnext hprimary htook).mpr (by simp)
  have hlength : 1 + behindFunctionPlusOne.size ≤ behindFunctionPlusOne.size := hsemicolon.length_le
  omega

end Parser
end ScriptLang
