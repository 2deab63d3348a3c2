import ScriptLang.Proofs.Lexer.Splitting
import ScriptLang.Proofs.Number.Numeral

/-! The source text of a float is that float again, but for the infinity that a literal beyond all numbers
is read as. -/
namespace ScriptLang

/-- A float that is read comes from the digits before and behind its point. -/
theorem Longest.exists_ofPointed {x : Binary64} {written rest : List Char} (h : Longest (.float x) written rest) :
    ∃ whole fraction, x = .ofPointed whole fraction := by
  generalize hl : Lexeme.float x = l at h
  cases h with
  | @float whole fraction _ _ _ _ _ =>
    cases hl
    exact ⟨whole, fraction, rfl⟩
  | _ => cases hl

/-- A float that is read is the infinity, or a number with its mantissa and exponent in their bounds. -/
theorem Longest.float_cases {x : Binary64} {written rest : List Char} (h : Longest (.float x) written rest) :
    x = .infinite false ∨ ∃ m q, Binary64.Canonical m q ∧ x = .finite false m q := by
  obtain ⟨whole, fraction, rfl⟩ := h.exists_ofPointed
  obtain ⟨num, den, hden, -, hround⟩ := Binary64.ofPointed_eq_round whole fraction
  rw [hround]
  exact Binary64.round_cases false num hden

/-- The source of a number is one float literal with its value. -/
theorem longest_floatSource {m : Nat} {q : Int} (hc : Binary64.Canonical m q) {rest : List Char}
    (he : Ends Char.isDigit rest) :
    Longest (.float (.finite false m q)) (floatSource (.finite false m q)).toList rest := by
  obtain ⟨whole, fraction, hwrite, hne, hw, hf, hvalue⟩ := (Binary64.shortest m q).isPointed_write
  have hsource : (floatSource (.finite false m q)).toList = whole ++ '.' :: fraction := by
    have hpoint : (String.ofList (whole ++ '.' :: fraction)).toList.contains '.' = true := by simp
    have hfinite : Binary64.write .plain (.finite false m q) = String.ofList (whole ++ '.' :: fraction) := by
      rw [← hwrite]
      rfl
    rw [floatSource, hfinite, withPoint, if_pos hpoint, String.toList_ofList]
  rw [hsource, ← Binary64.ofPointed_of_shortest hc hvalue]
  exact .float hne hw hf he

namespace Lexer

/-- The source of an infinity is a name, a point and a zero. -/
theorem tokenize_source_infinite (file : String) :
    tokenize (Lexeme.float (.infinite false)).source file =
      .ok [⟨.identifier "inf", ⟨1, 0⟩⟩, ⟨.punctuation '.', ⟨1, 3⟩⟩, ⟨.integer 0, ⟨1, 4⟩⟩] := by
  cbv

/-- Every float that is read from a text has a source that is tokenized to it and nothing else, unless it is
the infinity. -/
theorem tokenize_source_of_float {c d : Cursor} {t : Token} {x : Binary64}
    (h : Cursor.read c = .ok (some t) d) (hx : t.lexeme = .float x) (file : String) :
    tokenize t.lexeme.source file =
      if x = .infinite false then
        .ok [⟨.identifier "inf", ⟨1, 0⟩⟩, ⟨.punctuation '.', ⟨1, 3⟩⟩, ⟨.integer 0, ⟨1, 4⟩⟩]
      else .ok [⟨.float x, ⟨1, 0⟩⟩] := by
  obtain ⟨space, written, -, hl, -⟩ := Cursor.longest_of_read h
  rw [hx] at hl ⊢
  rcases hl.float_cases with rfl | ⟨m, q, hc, rfl⟩
  · rw [if_pos rfl]
    exact tokenize_source_infinite file
  · have hfinite : Binary64.finite false m q ≠ .infinite false := Binary64.noConfusion
    rw [if_neg hfinite]
    have hsplit := Splits.cons allSpace_nil (longest_floatSource hc (ends_nil _)) (.nil [])
    rw [List.nil_append, List.append_nil] at hsplit
    exact tokenize_of_isSplit ⟨hsplit, allSpace_nil⟩

/-- A tenth, which no binary number is, is written as the shortest decimal. -/
theorem tokenize_source_of_tenth :
    tokenize (Lexeme.float (.finite false 7205759403792794 (-56))).source "g" =
      .ok [⟨.float (.finite false 7205759403792794 (-56)), ⟨1, 0⟩⟩] := by
  have hread : Cursor.read ⟨"0.1".toList, ⟨1, 0⟩, "f"⟩ =
      .ok (some ⟨.float (.finite false 7205759403792794 (-56)), ⟨1, 0⟩⟩) ⟨[], ⟨1, 3⟩, "f"⟩ := by cbv
  have htokens := tokenize_source_of_float hread rfl "g"
  rwa [if_neg (by decide)] at htokens

/-- A literal beyond all numbers is no float again. -/
theorem not_tokenize_source_of_float :
    ¬∀ (c d : Cursor) (t : Token) (x : Binary64), Cursor.read c = .ok (some t) d → t.lexeme = .float x →
      ∀ file, ∃ pos, tokenize t.lexeme.source file = .ok [⟨.float x, pos⟩] := by
  intro hback
  have hinf : Binary64.ofPointed ('1' :: List.replicate 400 '0') ['0'] = .infinite false := by
    decide +kernel
  have hzeros := Binary64.isDigit_of_mem_zeros 400
  generalize List.replicate 400 '0' = zeros at hinf hzeros
  have hl : Longest (.float (.ofPointed ('1' :: zeros) ['0'])) ('1' :: zeros ++ ['.', '0']) [] :=
    .float (List.cons_ne_nil '1' zeros) (List.forall_mem_cons.mpr ⟨rfl, hzeros⟩)
      (List.forall_mem_singleton.mpr rfl) (ends_nil _)
  have hread := Cursor.read_of_longest .start "f" allSpace_nil hl
  obtain ⟨pos, htokens⟩ := hback _ _ _ _ hread rfl "f"
  rw [hinf, tokenize_source_infinite] at htokens
  cases htokens

end Lexer
end ScriptLang
