import ScriptLang.Proofs.Lexer.Source
import ScriptLang.Proofs.Lexer.Splitting

/-! Source text that is put together from tokens. Whatever text the tokens were read from, their sources
with space between them are read as the same lexemes again. -/
namespace ScriptLang

def rebuilt (sep : String) (tokens : List Token) : String :=
  sep.intercalate (tokens.map (·.lexeme.source))

def rebuiltTail (sep : String) (tokens : List Token) : List Char :=
  tokens.flatMap fun t => sep.toList ++ t.lexeme.source.toList

/-- The rebuilt text is the source of the first token and then that of the others behind separators. -/
theorem toList_rebuilt (sep : String) (t : Token) (tokens : List Token) :
    (rebuilt sep (t :: tokens)).toList = t.lexeme.source.toList ++ rebuiltTail sep tokens := by
  induction tokens generalizing t with
  | nil => simp [rebuilt, rebuiltTail]
  | cons u tokens ih =>
    have hc : rebuilt sep (t :: u :: tokens) = t.lexeme.source ++ sep ++ rebuilt sep (u :: tokens) := by
      simp [rebuilt]
    rw [hc, String.toList_append, String.toList_append, ih]
    simp [rebuiltTail]

theorem blank_rebuiltTail {sep : String} (hne : sep ≠ "") (hsp : AllSpace sep.toList)
    (tokens : List Token) : Blank (rebuiltTail sep tokens) := by
  intro x hx
  cases tokens with
  | nil => cases hx
  | cons t tokens =>
    have hl : sep.toList ≠ [] := by
      intro hnil
      exact hne (String.toList_eq_nil_iff.mp hnil)
    obtain ⟨y, ys, hy⟩ := List.exists_cons_of_ne_nil hl
    have hxy : y = x := by simpa [rebuiltTail, hy] using hx
    apply hsp x
    simp [hy, hxy]

/-- The lexemes of a text are those that sources are written for, but for floats. -/
theorem Longest.plain {l : Lexeme} {cs rest : List Char} (h : Longest l cs rest)
    (hf : l.label ≠ "FLOAT") : l.Plain := by
  cases h with
  | text _ _ => exact .text _
  | openText _ => exact .text _
  | openEscape _ => exact .text _
  | @identifier c cs _ hc ht _ =>
    have hn : IsName (String.ofList (c :: cs)) :=
      ⟨c, cs, String.toList_ofList, hc, List.all_eq_true.mpr ht⟩
    exact .identifier hn
  | punctuation _ hc => exact .punctuation hc
  | operator hne hall _ =>
    apply Lexeme.Plain.operator
    · rwa [String.toList_ofList]
    · rw [String.toList_ofList]
      exact List.all_eq_true.mpr hall
  | integer _ _ _ hr _ => exact .integer hr
  | float _ _ _ _ => exact absurd rfl hf

/-- Every piece of a split is the longest lexeme at its place. -/
theorem Splits.longest_of_mem {cs rest : List Char} {pieces : List Piece} (h : Splits cs pieces rest)
    {p : Piece} (hp : p ∈ pieces) : ∃ behind, Longest p.lexeme p.written behind := by
  induction h with
  | nil => cases hp
  | cons _ hl _ ih =>
    rcases List.mem_cons.mp hp with rfl | hp
    · exact ⟨_, hl⟩
    · exact ih hp

/-- Behind the first token, every separator and the source after it are a piece of the text. -/
theorem splits_rebuiltTail {sep : String} (hne : sep ≠ "") (hsp : AllSpace sep.toList)
    {tokens : List Token} (h : ∀ t ∈ tokens, t.lexeme.Plain) :
    Splits (rebuiltTail sep tokens)
      (tokens.map fun t => ⟨sep.toList, t.lexeme.source.toList, t.lexeme⟩) [] := by
  induction tokens with
  | nil => exact .nil []
  | cons t tokens ih =>
    have hl := longest_source (h t List.mem_cons_self) ((blank_rebuiltTail hne hsp tokens).ends _)
    have ht := ih fun u hu => h u (List.mem_cons_of_mem t hu)
    have hc := Splits.cons hsp hl ht
    simpa [rebuiltTail] using hc

/-- The rebuilt text splits into the tokens that it was built from. -/
theorem isSplit_rebuilt {sep : String} (hne : sep ≠ "") (hsp : AllSpace sep.toList)
    {tokens : List Token} (h : ∀ t ∈ tokens, t.lexeme.Plain) :
    ∃ pieces, IsSplit (rebuilt sep tokens).toList pieces [] ∧
      pieces.map Piece.lexeme = tokens.map Token.lexeme := by
  cases tokens with
  | nil =>
    have he : (rebuilt sep []).toList = [] := by simp [rebuilt]
    rw [he]
    exact ⟨[], ⟨.nil [], allSpace_nil⟩, rfl⟩
  | cons t tokens =>
    have hl := longest_source (h t List.mem_cons_self) ((blank_rebuiltTail hne hsp tokens).ends _)
    have ht := splits_rebuiltTail hne hsp fun u hu => h u (List.mem_cons_of_mem t hu)
    rw [toList_rebuilt]
    refine ⟨_, ⟨.cons allSpace_nil hl ht, allSpace_nil⟩, ?_⟩
    simp [Function.comp_def]

namespace Lexer

/-- The sources of the tokens of a text, with any space between them, are tokenized to the same lexemes,
unless there is a float among them. -/
theorem tokenize_rebuilt {text file sep : String} {tokens : List Token} (file' : String)
    (h : tokenize text file = .ok tokens) (hf : ∀ t ∈ tokens, t.lexeme.label ≠ "FLOAT")
    (hne : sep ≠ "") (hsp : AllSpace sep.toList) :
    ∃ tokens', tokenize (rebuilt sep tokens) file' = .ok tokens' ∧
      tokens'.map Token.lexeme = tokens.map Token.lexeme := by
  obtain ⟨pieces, last, ⟨hs, -⟩, rfl⟩ := exists_isSplit_of_tokenize h
  have hplain : ∀ t ∈ tokensBehind [] pieces, t.lexeme.Plain := by
    intro t ht
    have hmem : t.lexeme ∈ pieces.map Piece.lexeme := by
      rw [← map_lexeme_tokensBehind []]
      exact List.mem_map_of_mem ht
    obtain ⟨p, hp, hpl⟩ := List.mem_map.mp hmem
    obtain ⟨behind, hl⟩ := hs.longest_of_mem hp
    rw [hpl] at hl
    exact hl.plain (hf t ht)
  obtain ⟨pieces', hs', hlex⟩ := isSplit_rebuilt hne hsp hplain
  refine ⟨_, tokenize_of_isSplit hs', ?_⟩
  rw [map_lexeme_tokensBehind, hlex]

/-- A text that is not closed, with a line feed, a quote and a backslash at its end, is written out as one
that is. -/
theorem tokenize_rebuilt_of_openText :
    ∃ tokens, tokenize (rebuilt "\t\n" [⟨.operator "//", ⟨1, 0⟩⟩, ⟨.integer 7, ⟨1, 2⟩⟩,
        ⟨.text "\n\"", ⟨1, 5⟩⟩]) "b" = .ok tokens ∧
      tokens.map Token.lexeme = [.operator "//", .integer 7, .text "\n\""] := by
  have h : tokenize "//007\"\n\\\"\\" "a" = .ok [⟨.operator "//", ⟨1, 0⟩⟩, ⟨.integer 7, ⟨1, 2⟩⟩,
      ⟨.text "\n\"", ⟨1, 5⟩⟩] := by cbv
  apply tokenize_rebuilt "b" h
  · decide
  · decide
  · intro x hx
    have hx' : x = '\t' ∨ x = '\n' := by simpa using hx
    rcases hx' with rfl | rfl <;> rfl

end Lexer
end ScriptLang
