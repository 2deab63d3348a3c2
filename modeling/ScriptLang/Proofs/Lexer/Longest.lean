import ScriptLang.Proofs.Lexer.Locality

/-! The lexemes of the language, told by what they are made of and where they end. Scanning finds
exactly the lexeme that stands at the front of a text, and no other split of the text has one there. -/
namespace ScriptLang

def Ends (p : Char → Bool) (rest : List Char) : Prop :=
  ∀ x ∈ rest.head?, p x = false

/-- The characters between the quotes of a text, and those of the text they stand for. A backslash takes
the character behind it along, so no quote in here is the closing one. -/
inductive Inside : List Char → List Char → Prop
  | nil : Inside [] []
  | plain {c : Char} {cs value : List Char} : c ≠ '"' → c ≠ '\\' → Inside cs value →
    Inside (c :: cs) (c :: value)
  | escape {cs value : List Char} (c : Char) : Inside cs value →
    Inside ('\\' :: c :: cs) (unescape c :: value)

def isNumeralChar (c : Char) : Bool :=
  c.isDigit || c == '.'

/-- The lexeme `l` is written `cs` at the front of `cs ++ rest`, and `rest` does not go on with it. -/
inductive Longest : Lexeme → List Char → List Char → Prop
  | text {cs value : List Char} (rest : List Char) : Inside cs value →
    Longest (.text (String.ofList value)) ('"' :: (cs ++ ['"'])) rest
  /-- A text without a closing quote goes to the end. -/
  | openText {cs value : List Char} : Inside cs value →
    Longest (.text (String.ofList value)) ('"' :: cs) []
  /-- A backslash at the very end has nothing to take along. -/
  | openEscape {cs value : List Char} : Inside cs value →
    Longest (.text (String.ofList value)) ('"' :: (cs ++ ['\\'])) []
  | identifier {c : Char} {cs rest : List Char} : isNameStart c = true →
    (∀ x ∈ cs, isNameChar x = true) → Ends isNameChar rest →
    Longest (.identifier (String.ofList (c :: cs))) (c :: cs) rest
  | punctuation {c : Char} (rest : List Char) : isPunctuation c = true →
    Longest (.punctuation c) [c] rest
  | operator {cs rest : List Char} : cs ≠ [] → (∀ x ∈ cs, isOperatorChar x = true) →
    Ends isOperatorChar rest → Longest (.operator (String.ofList cs)) cs rest
  | integer {cs rest : List Char} : cs ≠ [] → (∀ x ∈ cs, x.isDigit = true) →
    cs.length ≤ Text.digitLimit → Range.contains (Binary64.ofDigits cs) = true →
    Ends isNumeralChar rest → Longest (.integer (Binary64.ofDigits cs)) cs rest
  | float {whole fraction rest : List Char} : whole ≠ [] → (∀ x ∈ whole, x.isDigit = true) →
    (∀ x ∈ fraction, x.isDigit = true) → Ends Char.isDigit rest →
    Longest (.float (Binary64.ofPointed whole fraction)) (whole ++ '.' :: fraction) rest

theorem ends_nil (p : Char → Bool) : Ends p [] := by
  intro x hx
  cases hx

theorem Ends.of_append {p : Char → Bool} {rest ext : List Char} (h : Ends p (rest ++ ext)) :
    Ends p rest := by
  cases rest with
  | nil => exact ends_nil p
  | cons y ys => exact h

theorem takeWhile_eq_self {p : Char → Bool} {cs : List Char} (h : ∀ x ∈ cs, p x = true) :
    cs.takeWhile p = cs ∧ cs.dropWhile p = [] := by
  have ht : (cs ++ []).takeWhile p = cs ++ [] := List.takeWhile_append_of_pos h
  have hd : (cs ++ []).dropWhile p = [] := List.dropWhile_append_of_pos h
  rw [List.append_nil] at ht hd
  exact ⟨ht, hd⟩

/-- A run of characters that ends where it should is found by going along it. -/
theorem span_of_ends {p : Char → Bool} {cs rest : List Char} (h : ∀ x ∈ cs, p x = true)
    (he : Ends p rest) : (cs ++ rest).takeWhile p = cs ∧ (cs ++ rest).dropWhile p = rest := by
  have hs : Stops p cs rest := Or.inr he
  obtain ⟨ht, hd⟩ := hs.span
  obtain ⟨hself, hnil⟩ := takeWhile_eq_self h
  rw [hself] at ht
  rw [hnil, List.nil_append] at hd
  exact ⟨ht, hd⟩

theorem ends_dropWhile (p : Char → Bool) (cs : List Char) : Ends p (cs.dropWhile p) := by
  intro x hx
  have hn := List.head?_dropWhile_not p cs
  rw [Option.mem_def.mp hx] at hn
  simpa using hn

/-! What the first character of a lexeme rules out. -/

def isPlainMark (c : Char) : Bool :=
  c != '"' && !isNameStart c && !isSpace c

/-- A plain mark opens no text literal, starts no name and is no white space. -/
theorem isPlainMark_iff (c : Char) :
    isPlainMark c = true ↔ c ≠ '"' ∧ isNameStart c = false ∧ isSpace c = false := by
  simp [isPlainMark, and_assoc]

/-- What holds of every character of a class is looked up in its list. -/
theorem of_contains {cs : List Char} {c : Char} {q : Char → Bool} (h : cs.contains c = true)
    (hall : cs.all q = true) : q c = true :=
  List.all_eq_true.mp hall c (by simpa using h)

theorem contains_of_isDigit {c : Char} (h : c.isDigit = true) :
    ['0', '1', '2', '3', '4', '5', '6', '7', '8', '9'].contains c = true := by
  have hn : c.toNat ∈ List.range' 48 10 := by
    obtain ⟨hl, hu⟩ := Char.isDigit_iff_toNat.mp h
    exact List.mem_range'_1.mpr ⟨hl, Nat.lt_succ_of_le hu⟩
  rw [← Char.ofNat_toNat c]
  generalize c.toNat = n at hn
  revert n
  decide

theorem ne_quote_of_isNameStart {c : Char} (h : isNameStart c = true) : c ≠ '"' := by
  rintro rfl
  revert h
  decide

theorem isNameChar_of_isNameStart {c : Char} (h : isNameStart c = true) : isNameChar c = true := by
  simp [isNameChar, h]

theorem mark_of_isPunctuation {c : Char} (h : isPunctuation c = true) :
    c ≠ '"' ∧ isNameStart c = false ∧ isSpace c = false :=
  (isPlainMark_iff c).mp (of_contains h (by decide))

theorem mark_of_isOperatorChar {c : Char} (h : isOperatorChar c = true) :
    (c ≠ '"' ∧ isNameStart c = false ∧ isSpace c = false) ∧ isPunctuation c = false := by
  have hp : (!isPunctuation c) = true :=
    of_contains (q := fun x => !isPunctuation x) h (by decide)
  exact ⟨(isPlainMark_iff c).mp (of_contains h (by decide)), by simpa using hp⟩

theorem mark_of_isDigit {c : Char} (h : c.isDigit = true) :
    (c ≠ '"' ∧ isNameStart c = false ∧ isSpace c = false) ∧
      isPunctuation c = false ∧ isOperatorChar c = false := by
  have hm := contains_of_isDigit h
  have hp : (!isPunctuation c && !isOperatorChar c) = true :=
    of_contains (q := fun x => !isPunctuation x && !isOperatorChar x) hm (by decide)
  refine ⟨(isPlainMark_iff c).mp (of_contains hm (by decide)), ?_⟩
  simpa using hp

/-! Which scan the first character leads to. -/

theorem scan_of_quote (cs : List Char) :
    scan '"' cs = ⟨.ok (.text (String.ofList (scanText false cs).1)), '"' :: (scanText false cs).2.1,
      (scanText false cs).2.2⟩ := by
  simp [scan]

/-- At the first character of a name the whole name is read. -/
theorem scan_of_isNameStart {c : Char} (cs : List Char) (h : isNameStart c = true) :
    scan c cs = scanRun isNameChar .identifier (c :: cs) := by
  simp [scan, h, ne_quote_of_isNameStart h]

theorem scan_of_isPunctuation {c : Char} (cs : List Char) (h : isPunctuation c = true) :
    scan c cs = ⟨.ok (.punctuation c), [c], cs⟩ := by
  have hm := mark_of_isPunctuation h
  simp [scan, hm, h]

theorem scan_of_isOperatorChar {c : Char} (cs : List Char) (h : isOperatorChar c = true) :
    scan c cs = scanRun isOperatorChar .operator (c :: cs) := by
  obtain ⟨hm, hp⟩ := mark_of_isOperatorChar h
  simp [scan, hm, hp, h]

theorem scan_of_isDigit {c : Char} (cs : List Char) (h : c.isDigit = true) :
    scan c cs = scanNumber (c :: cs) := by
  obtain ⟨hm, hp, ho⟩ := mark_of_isDigit h
  simp [scan, hm, hp, ho, h]

def isUnreadable (c : Char) : Bool :=
  c != '"' && !isNameStart c && !isPunctuation c && !isOperatorChar c && !c.isDigit && !isSpace c

/-- Every character that is no space begins a lexeme of one class, or none. -/
theorem first_cases {c : Char} (h : isSpace c = false) :
    c = '"' ∨ isNameStart c = true ∨ isPunctuation c = true ∨ isOperatorChar c = true ∨
      c.isDigit = true ∨ isUnreadable c = true := by
  by_cases hq : c = '"'
  · exact Or.inl hq
  · cases hn : isNameStart c <;> cases hp : isPunctuation c <;> cases ho : isOperatorChar c <;>
      cases hd : c.isDigit <;> simp [isUnreadable, hq, hn, hp, ho, hd, h]

/-- At a character that starts no token nothing is taken. -/
theorem scan_of_isUnreadable {c : Char} (cs : List Char) (h : isUnreadable c = true) :
    scan c cs = ⟨.error (.unreadable c), [], c :: cs⟩ := by
  simp only [isUnreadable, Bool.and_eq_true, bne_iff_ne, Bool.not_eq_true'] at h
  obtain ⟨⟨⟨⟨⟨hq, hn⟩, hp⟩, ho⟩, hd⟩, -⟩ := h
  simp [scan, hq, hn, hp, ho, hd]

/-! Texts: what stands between the quotes. -/

/-- A text literal ends at the first quote that is not escaped. -/
theorem scanText_of_closed {cs value : List Char} (h : Inside cs value) (rest : List Char) :
    scanText false (cs ++ '"' :: rest) = (value, cs ++ ['"'], rest) := by
  induction h with
  | nil => simp [scanText]
  | plain hq hb _ ih => simp [scanText, hq, hb, ih]
  | escape c _ ih => simp [scanText, ih]

/-- A text literal that is not closed goes on to the end of the text. -/
theorem scanText_of_open {cs value : List Char} (h : Inside cs value) :
    scanText false cs = (value, cs, []) := by
  induction h with
  | nil => simp [scanText]
  | plain hq hb _ ih => simp [scanText, hq, hb, ih]
  | escape c _ ih => simp [scanText, ih]

/-- A backslash at the end of the text stands for nothing. -/
theorem scanText_of_openEscape {cs value : List Char} (h : Inside cs value) :
    scanText false (cs ++ ['\\']) = (value, cs ++ ['\\'], []) := by
  induction h with
  | nil => simp [scanText]
  | plain hq hb _ ih => simp [scanText, hq, hb, ih]
  | escape c _ ih => simp [scanText, ih]

/-- Going through a text stops behind the closing quote, or goes to the end. -/
theorem scanText_cases (cs : List Char) :
    ∃ body value, Inside body value ∧ (scanText false cs).1 = value ∧
      ((scanText false cs).2.1 = body ++ ['"'] ∨
        (scanText false cs).2.2 = [] ∧
          ((scanText false cs).2.1 = body ∨ (scanText false cs).2.1 = body ++ ['\\'])) := by
  -- An escape takes two characters at once, so the induction is on the length.
  induction hn : cs.length using Nat.strongRecOn generalizing cs with
  | _ n ih =>
    cases cs with
    | nil => exact ⟨[], [], .nil, rfl, Or.inr ⟨rfl, Or.inl rfl⟩⟩
    | cons c cs =>
      by_cases hb : c = '\\'
      · subst hb
        cases cs with
        | nil => exact ⟨[], [], .nil, rfl, Or.inr ⟨rfl, Or.inr rfl⟩⟩
        | cons d ds =>
          have hlt : ds.length < n := by
            simp only [List.length_cons] at hn
            omega
          obtain ⟨body, value, hi, hv, ht⟩ := ih ds.length hlt ds rfl
          refine ⟨'\\' :: d :: body, unescape d :: value, .escape d hi, by simp [scanText, hv], ?_⟩
          simpa [scanText] using ht
      · by_cases hq : c = '"'
        · subst hq
          exact ⟨[], [], .nil, by simp [scanText], Or.inl (by simp [scanText])⟩
        · have hlt : cs.length < n := by
            simp only [List.length_cons] at hn
            omega
          obtain ⟨body, value, hi, hv, ht⟩ := ih cs.length hlt cs rfl
          refine ⟨c :: body, c :: value, .plain hq hb hi, by simp [scanText, hb, hq, hv], ?_⟩
          simpa [scanText, hb, hq] using ht

/-- What is read at a quote is the longest text literal that starts there. -/
theorem longest_of_scanText (cs : List Char) :
    Longest (.text (String.ofList (scanText false cs).1)) ('"' :: (scanText false cs).2.1)
      (scanText false cs).2.2 := by
  obtain ⟨body, value, hi, hv, ht | ⟨hr, ht | ht⟩⟩ := scanText_cases cs
  · rw [hv, ht]
    exact .text _ hi
  · rw [hv, ht, hr]
    exact .openText hi
  · rw [hv, ht, hr]
    exact .openEscape hi

/-! Numbers: digits, and what follows them. -/

/-- Digits with no point behind them are an integer. -/
theorem scanNumber_of_ends {cs rest : List Char} (h : ∀ x ∈ cs, x.isDigit = true)
    (he : Ends isNumeralChar rest) : scanNumber (cs ++ rest) = ⟨integerLexeme cs, cs, rest⟩ := by
  have hd : Ends Char.isDigit rest := by
    intro x hx
    have hn := he x hx
    simp only [isNumeralChar, Bool.or_eq_false_iff] at hn
    exact hn.1
  obtain ⟨ht, hr⟩ := span_of_ends h hd
  cases rest with
  | nil => simp only [scanNumber, ht, hr]
  | cons y ys =>
    have hy : y ≠ '.' := by
      rintro rfl
      have hn := he '.' rfl
      revert hn
      decide
    simp [scanNumber, ht, hr, hy]

/-- Digits around a point are a float. -/
theorem scanNumber_of_point {whole fraction rest : List Char} (hw : ∀ x ∈ whole, x.isDigit = true)
    (hf : ∀ x ∈ fraction, x.isDigit = true) (he : Ends Char.isDigit rest) :
    scanNumber (whole ++ '.' :: fraction ++ rest) =
      ⟨.ok (.float (Binary64.ofPointed whole fraction)), whole ++ '.' :: fraction, rest⟩ := by
  have hp : Ends Char.isDigit ('.' :: (fraction ++ rest)) := by
    intro x hx
    cases hx
    decide
  obtain ⟨ht, hr⟩ := span_of_ends hw hp
  obtain ⟨hft, hfr⟩ := span_of_ends hf he
  have hl : whole ++ '.' :: fraction ++ rest = whole ++ '.' :: (fraction ++ rest) := by simp
  rw [hl]
  simp only [scanNumber, ht, hr, hft, hfr]

/-- An integer that is read has a number of digits that the host converts, and is in range. -/
theorem integerLexeme_eq_ok {cs : List Char} {l : Lexeme} (h : integerLexeme cs = .ok l) :
    cs.length ≤ Text.digitLimit ∧ Range.contains (Binary64.ofDigits cs) = true ∧
      l = .integer (Binary64.ofDigits cs) := by
  unfold integerLexeme at h
  split at h
  · cases h
  · next hl =>
    simp only at h
    split at h
    · next hr =>
      cases h
      exact ⟨by omega, hr, rfl⟩
    · cases h

theorem integerLexeme_of_contains {cs : List Char} (hl : cs.length ≤ Text.digitLimit)
    (hr : Range.contains (Binary64.ofDigits cs) = true) :
    integerLexeme cs = .ok (.integer (Binary64.ofDigits cs)) := by
  have hn : ¬Text.digitLimit < cs.length := by omega
  simp [integerLexeme, hn, hr]

/-- A number is scanned to the end of its digits, with a fraction if a point follows. -/
theorem scanNumber_cases {c : Char} (cs : List Char) (h : c.isDigit = true) :
    ∃ whole, whole ≠ [] ∧ (∀ x ∈ whole, x.isDigit = true) ∧
      ((∃ rest, Ends isNumeralChar rest ∧ c :: cs = whole ++ rest ∧
          scanNumber (c :: cs) = ⟨integerLexeme whole, whole, rest⟩) ∨
        ∃ fraction rest, (∀ x ∈ fraction, x.isDigit = true) ∧ Ends Char.isDigit rest ∧
          scanNumber (c :: cs) = ⟨.ok (.float (Binary64.ofPointed whole fraction)),
            whole ++ '.' :: fraction, rest⟩) := by
  have hmem : ∀ x ∈ (c :: cs).takeWhile Char.isDigit, x.isDigit = true :=
    List.all_eq_true.mp List.all_takeWhile
  have hsplit : c :: cs = (c :: cs).takeWhile Char.isDigit ++ (c :: cs).dropWhile Char.isDigit :=
    List.takeWhile_append_dropWhile.symm
  have hends := ends_dropWhile Char.isDigit (c :: cs)
  refine ⟨(c :: cs).takeWhile Char.isDigit, by simp [h], hmem, ?_⟩
  by_cases hp : ∃ ds, (c :: cs).dropWhile Char.isDigit = '.' :: ds
  · obtain ⟨ds, hd⟩ := hp
    refine Or.inr ⟨ds.takeWhile Char.isDigit, ds.dropWhile Char.isDigit,
      List.all_eq_true.mp List.all_takeWhile, ends_dropWhile _ _, ?_⟩
    simp only [scanNumber, hd]
  · have he : Ends isNumeralChar ((c :: cs).dropWhile Char.isDigit) := by
      intro x hx
      have hne : x ≠ '.' := by
        rintro rfl
        exact hp (List.head?_eq_some_iff.mp hx)
      simp [isNumeralChar, hends x hx, hne]
    refine Or.inl ⟨(c :: cs).dropWhile Char.isDigit, he, hsplit, ?_⟩
    have hs := scanNumber_of_ends hmem he
    rwa [← hsplit] at hs

/-- What is scanned is the longest lexeme at the front. -/
theorem longest_of_scan {c : Char} {cs : List Char} {l : Lexeme} (hc : isSpace c = false)
    (h : (scan c cs).result = .ok l) : Longest l (scan c cs).taken (scan c cs).rest := by
  rcases first_cases hc with rfl | hn | hp | ho | hd | hu
  · rw [scan_of_quote] at h ⊢
    cases h
    exact longest_of_scanText cs
  · rw [scan_of_isNameStart cs hn] at h ⊢
    cases h
    have ht : (c :: cs).takeWhile isNameChar = c :: cs.takeWhile isNameChar :=
      List.takeWhile_cons_of_pos (isNameChar_of_isNameStart hn)
    simp only [scanRun, ht]
    exact .identifier hn (List.all_eq_true.mp List.all_takeWhile) (ends_dropWhile _ _)
  · rw [scan_of_isPunctuation cs hp] at h ⊢
    cases h
    exact .punctuation cs hp
  · rw [scan_of_isOperatorChar cs ho] at h ⊢
    cases h
    simp only [scanRun]
    exact .operator (by simp [ho]) (List.all_eq_true.mp List.all_takeWhile) (ends_dropWhile _ _)
  · rw [scan_of_isDigit cs hd] at h ⊢
    obtain ⟨whole, hne, hw, ⟨rest, he, -, hs⟩ | ⟨fraction, rest, hf, he, hs⟩⟩ := scanNumber_cases cs hd
    · rw [hs] at h ⊢
      obtain ⟨hl, hr, rfl⟩ := integerLexeme_eq_ok h
      exact .integer hne hw hl hr he
    · rw [hs] at h ⊢
      cases h
      exact .float hne hw hf he
  · rw [scan_of_isUnreadable cs hu] at h
    cases h

/-- A scan fails at a character that no lexeme begins with, or at the end of an integer. -/
theorem scan_error_cases {c : Char} {cs : List Char} {failure : ScanFailure}
    (hc : isSpace c = false) (h : (scan c cs).result = .error failure) :
    (isUnreadable c = true ∧ failure = .unreadable c) ∨
    ∃ tail rest, (∀ x ∈ c :: tail, x.isDigit = true) ∧ Ends isNumeralChar rest ∧ cs = tail ++ rest ∧
      integerLexeme (c :: tail) = .error failure ∧ scan c cs = ⟨.error failure, c :: tail, rest⟩ := by
  rcases first_cases hc with rfl | hn | hp | ho | hd | hu
  · rw [scan_of_quote] at h
    cases h
  · rw [scan_of_isNameStart cs hn] at h
    cases h
  · rw [scan_of_isPunctuation cs hp] at h
    cases h
  · rw [scan_of_isOperatorChar cs ho] at h
    cases h
  · rw [scan_of_isDigit cs hd] at h ⊢
    obtain ⟨whole, hne, hw, ⟨rest, he, hcs, hs⟩ | ⟨fraction, rest, -, -, hs⟩⟩ := scanNumber_cases cs hd
    · obtain ⟨d, tail, rfl⟩ := List.exists_cons_of_ne_nil hne
      obtain ⟨rfl, htail⟩ := List.cons.inj hcs
      rw [hs] at h ⊢
      have hi : integerLexeme (c :: tail) = .error failure := h
      exact Or.inr ⟨tail, rest, hw, he, htail, hi, by rw [hi]⟩
    · rw [hs] at h
      cases h
  · rw [scan_of_isUnreadable cs hu] at h
    cases h
    exact Or.inl ⟨hu, rfl⟩

/-- Every lexeme has a first character, which is no space, and it is scanned from there. -/
theorem scan_of_longest {l : Lexeme} {cs rest : List Char} (h : Longest l cs rest) :
    ∃ c tail, cs = c :: tail ∧ isSpace c = false ∧ scan c (tail ++ rest) = ⟨.ok l, cs, rest⟩ := by
  cases h with
  | @text body value rest hi =>
    refine ⟨'"', body ++ ['"'], rfl, by decide, ?_⟩
    have hs := scanText_of_closed hi rest
    rw [scan_of_quote]
    simp [hs]
  | @openText body value hi =>
    refine ⟨'"', body, rfl, by decide, ?_⟩
    rw [scan_of_quote]
    simp [scanText_of_open hi]
  | @openEscape body value hi =>
    refine ⟨'"', body ++ ['\\'], rfl, by decide, ?_⟩
    rw [scan_of_quote]
    simp [scanText_of_openEscape hi]
  | @identifier c tail rest hc ht he =>
    have hall : ∀ x ∈ c :: tail, isNameChar x = true :=
      List.forall_mem_cons.mpr ⟨isNameChar_of_isNameStart hc, ht⟩
    have hsp : isSpace c = false := by
      cases hx : isSpace c with
      | false => rfl
      | true => simpa [isNameChar, hc] using not_isNameChar_of_isSpace c hx
    refine ⟨c, tail, rfl, hsp, ?_⟩
    obtain ⟨hw, hr⟩ := span_of_ends hall he
    rw [scan_of_isNameStart _ hc, ← List.cons_append]
    simp only [scanRun, hw, hr]
  | @punctuation c rest hc =>
    exact ⟨c, [], rfl, (mark_of_isPunctuation hc).2.2, scan_of_isPunctuation _ hc⟩
  | operator hne hall he =>
    obtain ⟨c, tail, rfl⟩ := List.exists_cons_of_ne_nil hne
    have hc := hall c List.mem_cons_self
    refine ⟨c, tail, rfl, (mark_of_isOperatorChar hc).1.2.2, ?_⟩
    obtain ⟨hw, hr⟩ := span_of_ends hall he
    rw [scan_of_isOperatorChar _ hc, ← List.cons_append]
    simp only [scanRun, hw, hr]
  | integer hne hall hl hr he =>
    obtain ⟨c, tail, rfl⟩ := List.exists_cons_of_ne_nil hne
    have hc := hall c List.mem_cons_self
    refine ⟨c, tail, rfl, (mark_of_isDigit hc).1.2.2, ?_⟩
    rw [scan_of_isDigit _ hc, ← List.cons_append, scanNumber_of_ends hall he,
      integerLexeme_of_contains hl hr]
  | @float whole fraction rest hne hw hf he =>
    obtain ⟨c, tail, rfl⟩ := List.exists_cons_of_ne_nil hne
    have hc := hw c List.mem_cons_self
    refine ⟨c, tail ++ '.' :: fraction, rfl, (mark_of_isDigit hc).1.2.2, ?_⟩
    rw [scan_of_isDigit _ hc, ← List.cons_append]
    exact scanNumber_of_point hw hf he

/-- At the front of a text there is at most one longest lexeme. -/
theorem Longest.unique {l l' : Lexeme} {cs cs' rest rest' : List Char} (h : Longest l cs rest)
    (h' : Longest l' cs' rest') (heq : cs ++ rest = cs' ++ rest') :
    l = l' ∧ cs = cs' ∧ rest = rest' := by
  obtain ⟨c, tail, rfl, -, hs⟩ := scan_of_longest h
  obtain ⟨c', tail', rfl, -, hs'⟩ := scan_of_longest h'
  obtain ⟨rfl, ht⟩ := List.cons.inj heq
  have ht' : tail ++ rest = tail' ++ rest' := ht
  rw [ht', hs'] at hs
  cases hs
  exact ⟨rfl, rfl, rfl⟩

/-- A lexeme stays the longest one when only a part of the text behind it is kept. -/
theorem Longest.of_append {l : Lexeme} {cs rest ext : List Char} (h : Longest l cs (rest ++ ext)) :
    Longest l cs rest := by
  generalize hr : rest ++ ext = behind at h
  cases h with
  | text _ hi => exact .text _ hi
  | openText hi =>
    obtain ⟨rfl, -⟩ := List.append_eq_nil_iff.mp hr
    exact .openText hi
  | openEscape hi =>
    obtain ⟨rfl, -⟩ := List.append_eq_nil_iff.mp hr
    exact .openEscape hi
  | identifier hc ht he => exact .identifier hc ht (Ends.of_append (hr ▸ he))
  | punctuation _ hc => exact .punctuation _ hc
  | operator hne hall he => exact .operator hne hall (Ends.of_append (hr ▸ he))
  | integer hne hall hl hn he => exact .integer hne hall hl hn (Ends.of_append (hr ▸ he))
  | float hne hw hf he => exact .float hne hw hf (Ends.of_append (hr ▸ he))

end ScriptLang
