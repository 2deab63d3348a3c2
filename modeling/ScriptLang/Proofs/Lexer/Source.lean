import ScriptLang.Proofs.Lexer.Longest

/-! The source text of a lexeme is that lexeme again, before whatever does not go on with it: escapes in
texts are undone, and digits add up to their number. -/
namespace ScriptLang

def IsName (s : String) : Prop :=
  ∃ c cs, s.toList = c :: cs ∧ isNameStart c = true ∧ cs.all isNameChar = true

inductive Lexeme.Plain : Lexeme → Prop
  | text (s : String) : Plain (.text s)
  | identifier {s : String} : IsName s → Plain (.identifier s)
  | punctuation {c : Char} : isPunctuation c = true → Plain (.punctuation c)
  | operator {s : String} : s.toList ≠ [] → s.toList.all isOperatorChar = true → Plain (.operator s)
  | integer {n : Nat} : Range.contains n = true → Plain (.integer n)

/-- An escape is a backslash and a character that stands for the one escaped; all other characters stand
for themselves. -/
theorem escapeInText_cases (c : Char) :
    (∃ d, escapeInText c = ['\\', d] ∧ unescape d = c) ∨
      (escapeInText c = [c] ∧ c ≠ '"' ∧ c ≠ '\\') := by
  unfold escapeInText
  split
  · next h => rcases h with rfl | rfl <;> exact Or.inl ⟨_, rfl, by decide⟩
  · next h =>
    obtain ⟨hq, hb⟩ := not_or.mp h
    split
    · next hn => exact Or.inl ⟨_, rfl, hn ▸ rfl⟩
    · split
      · next ht => exact Or.inl ⟨_, rfl, ht ▸ rfl⟩
      · split
        · next hr => exact Or.inl ⟨_, rfl, hr ▸ rfl⟩
        · split
          · next h0 => exact Or.inl ⟨_, rfl, h0 ▸ rfl⟩
          · split
            · next hv => exact Or.inl ⟨_, rfl, hv ▸ rfl⟩
            · exact Or.inr ⟨rfl, hq, hb⟩

/-- Escaped characters stand between quotes for what they were before. -/
theorem inside_escaped (cs : List Char) : Inside (cs.flatMap escapeInText) cs := by
  induction cs with
  | nil => exact .nil
  | cons c cs ih =>
    rw [List.flatMap_cons]
    rcases escapeInText_cases c with ⟨d, he, rfl⟩ | ⟨he, hq, hb⟩
    · rw [he]
      exact .escape d ih
    · rw [he]
      exact .plain hq hb ih

theorem ofDigits_toDigits (n : Nat) : Binary64.ofDigits (Nat.toDigits 10 n) = n := by
  have h := Nat.ofDigitChars_ten_toDigits (n := n)
  rw [Nat.ofDigitChars_eq_foldl] at h
  simpa [Binary64.ofDigits, Nat.mul_comm] using h

/-- An integer of the language has so few digits that all of them are converted. -/
theorem length_toDigits_le {n : Nat} (h : Range.contains n = true) :
    (Nat.toDigits 10 n).length ≤ Text.digitLimit := by
  have hn : n < 10 ^ 10 := by
    have hg : (n : Int) ≤ Range.greatest := by simpa [Range.contains] using (Bool.and_eq_true_iff.mp h).2
    unfold Range.greatest at hg
    omega
  have hl : (Nat.toDigits 10 n).length ≤ 10 :=
    (Nat.length_toDigits_le_iff (by decide) (by decide)).mpr hn
  unfold Text.digitLimit
  omega

def Lexeme.goesOn : Lexeme → Char → Bool
  | .identifier _ => isNameChar
  | .operator _ => isOperatorChar
  | .integer _ => isNumeralChar
  | .float _ => Char.isDigit
  | .text _ | .punctuation _ => fun _ => false

/-- White space ends every lexeme. -/
theorem Blank.ends {rest : List Char} (h : Blank rest) (l : Lexeme) : Ends l.goesOn rest := by
  intro x hx
  have hsp := h x hx
  cases l with
  | text _ | punctuation _ => rfl
  | identifier _ => exact not_isNameChar_of_isSpace x hsp
  | operator _ => exact not_isOperatorChar_of_isSpace x hsp
  | float _ => exact not_isDigit_of_isSpace x hsp
  | integer _ => rcases isSpace_cases hsp with rfl | rfl | rfl | rfl <;> rfl

/-- A source is the longest lexeme where it stands before something that does not go on with it. -/
theorem longest_source {l : Lexeme} {rest : List Char} (h : l.Plain) (he : Ends l.goesOn rest) :
    Longest l l.source.toList rest := by
  cases h with
  | text s =>
    have hl := Longest.text rest (inside_escaped s.toList)
    rw [String.ofList_toList] at hl
    simpa [Lexeme.source, textSource] using hl
  | @identifier s hs =>
    obtain ⟨c, cs, hs, hc, hcs⟩ := hs
    have hl := Longest.identifier hc (List.all_eq_true.mp hcs) he
    rw [← hs, String.ofList_toList] at hl
    exact hl
  | @punctuation c hc =>
    have hs : (Lexeme.punctuation c).source.toList = [c] := by
      simp [Lexeme.source, Lexeme.shown, Lexeme.value, Value.bare, Value.display]
    rw [hs]
    exact .punctuation rest hc
  | operator hne hs =>
    have hl := Longest.operator hne (List.all_eq_true.mp hs) he
    rw [String.ofList_toList] at hl
    exact hl
  | @integer n hn =>
    have hs : (Lexeme.integer n).source.toList = Nat.toDigits 10 n := Nat.toList_repr
    have hall : ∀ x ∈ Nat.toDigits 10 n, x.isDigit = true := fun x hx =>
      Nat.isDigit_of_mem_toDigits (by decide) (by decide) hx
    have hvalue := ofDigits_toDigits n
    have hl : Longest (.integer (Binary64.ofDigits (Nat.toDigits 10 n))) (Nat.toDigits 10 n) rest :=
      .integer Nat.toDigits_ne_nil hall (length_toDigits_le hn) (by rwa [hvalue]) he
    rw [hs]
    rwa [hvalue] at hl

end ScriptLang
