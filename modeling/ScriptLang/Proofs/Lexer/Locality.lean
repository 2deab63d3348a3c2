import ScriptLang.Proofs.Lexer.Reading

/-! What is read does not hang on the text behind it. A token that something is left behind, or that
blank text follows, is read the same whatever stands further on; and positions only move on. -/
namespace ScriptLang

/-- A run of characters in `p` at the front of `cs` does not go on into `ext`. -/
def Stops (p : Char → Bool) (cs ext : List Char) : Prop :=
  cs.dropWhile p ≠ [] ∨ ∀ x ∈ ext.head?, p x = false

/-- Where a run of characters ends within a text, it ends there in every longer one. -/
theorem Stops.span {p : Char → Bool} {cs ext : List Char} (h : Stops p cs ext) :
    (cs ++ ext).takeWhile p = cs.takeWhile p ∧ (cs ++ ext).dropWhile p = cs.dropWhile p ++ ext := by
  induction cs with
  | nil =>
    cases ext with
    | nil => exact ⟨rfl, rfl⟩
    | cons x ext =>
      have hx : p x = false := h.resolve_left (fun hn => hn rfl) x rfl
      simp [hx]
  | cons c cs ih =>
    by_cases hc : p c = true
    · have hs : Stops p cs ext := by
        unfold Stops at h ⊢
        rwa [List.dropWhile_cons_of_pos hc] at h
      obtain ⟨ht, hd⟩ := ih hs
      simp [hc, ht, hd]
    · simp [hc]

def Blank (ext : List Char) : Prop :=
  ∀ x ∈ ext.head?, isSpace x = true

/-- White space ends every run of characters other than white space. -/
theorem Blank.stops {p : Char → Bool} {ext : List Char} (h : Blank ext) (cs : List Char)
    (hp : ∀ x, isSpace x = true → p x = false) : Stops p cs ext :=
  Or.inr fun x hx => hp x (h x hx)

theorem isSpace_cases {x : Char} (h : isSpace x = true) :
    x = ' ' ∨ x = '\t' ∨ x = '\r' ∨ x = '\n' := by
  simpa [isSpace, or_assoc] using h

theorem not_isNameChar_of_isSpace (x : Char) (h : isSpace x = true) : isNameChar x = false := by
  rcases isSpace_cases h with rfl | rfl | rfl | rfl <;> decide

theorem not_isOperatorChar_of_isSpace (x : Char) (h : isSpace x = true) :
    isOperatorChar x = false := by
  rcases isSpace_cases h with rfl | rfl | rfl | rfl <;> decide

theorem not_isDigit_of_isSpace (x : Char) (h : isSpace x = true) : x.isDigit = false := by
  rcases isSpace_cases h with rfl | rfl | rfl | rfl <;> decide

def Scan.before (s : Scan) (ext : List Char) : Scan :=
  { s with rest := s.rest ++ ext }

/-- A text literal that closes is read alike whatever follows it. -/
theorem scanText_before {escaped : Bool} {cs : List Char} (ext : List Char)
    (h : (scanText escaped cs).2.2 ≠ []) :
    scanText escaped (cs ++ ext) =
      ((scanText escaped cs).1, (scanText escaped cs).2.1, (scanText escaped cs).2.2 ++ ext) := by
  induction cs generalizing escaped with
  | nil => cases escaped <;> exact absurd rfl h
  | cons c cs ih =>
    cases escaped with
    | true =>
      simp only [scanText] at h
      simp [scanText, ih h]
    | false =>
      by_cases hb : c = '\\'
      · simp only [scanText, hb] at h
        simp [scanText, hb, ih h]
      · by_cases hq : c = '"'
        · simp [scanText, hq]
        · simp only [scanText, hb, hq] at h
          simp [scanText, hb, hq, ih h]

theorem scanRun_before {p : Char → Bool} {make : String → Lexeme} {cs ext : List Char}
    (h : Stops p cs ext) : scanRun p make (cs ++ ext) = (scanRun p make cs).before ext := by
  obtain ⟨ht, hd⟩ := h.span
  simp [scanRun, Scan.before, ht, hd]

/-- A numeral is read alike whatever follows, if it ended before or white space follows. -/
theorem scanNumber_before {cs ext : List Char} (h : (scanNumber cs).rest ≠ [] ∨ Blank ext) :
    scanNumber (cs ++ ext) = (scanNumber cs).before ext := by
  have hspace := not_isDigit_of_isSpace
  cases hd : cs.dropWhile Char.isDigit with
  | nil =>
    -- The digits reach the end, so something blank follows: it is no point.
    have hb : Blank ext := h.resolve_left fun hn => hn (by simp [scanNumber, hd])
    obtain ⟨ht, hd'⟩ := (hb.stops cs hspace).span
    cases ext with
    | nil => simp [Scan.before]
    | cons y ys =>
      have hy : y ≠ '.' := by
        rintro rfl
        have hs := hb '.' rfl
        revert hs
        decide
      simp [scanNumber, Scan.before, ht, hd', hd, hy]
  | cons y ys =>
    have hs : Stops Char.isDigit cs ext := Or.inl (by simp [hd])
    obtain ⟨ht, hd'⟩ := hs.span
    by_cases hy : y = '.'
    · subst hy
      have hs' : Stops Char.isDigit ys ext := by
        rcases h with hr | hb
        · exact Or.inl (by simpa [scanNumber, hd] using hr)
        · exact hb.stops ys hspace
      obtain ⟨hyt, hyd⟩ := hs'.span
      simp [scanNumber, Scan.before, ht, hd', hd, hyt, hyd]
    · simp [scanNumber, Scan.before, ht, hd', hd, hy]

/-- A scan that leaves something, or that blank text follows outside of quotes, does not hang on what
stands behind it. -/
theorem scan_before {c : Char} {cs ext : List Char}
    (h : (scan c cs).rest ≠ [] ∨ c ≠ '"' ∧ Blank ext) :
    scan c (cs ++ ext) = (scan c cs).before ext := by
  unfold scan at h ⊢
  split
  · next hq =>
    rw [if_pos hq] at h
    rcases h with hr | hb
    · rw [scanText_before ext hr]
      rfl
    · exact absurd hq hb.1
  · next hq =>
    rw [if_neg hq] at h
    split
    · next hn =>
      rw [if_pos hn] at h
      have hs : Stops isNameChar (c :: cs) ext :=
        h.imp id fun hb x hx => not_isNameChar_of_isSpace x (hb.2 x hx)
      exact scanRun_before hs
    · next hn =>
      rw [if_neg hn] at h
      split
      · rfl
      · next hp =>
        rw [if_neg hp] at h
        split
        · next ho =>
          rw [if_pos ho] at h
          have hs : Stops isOperatorChar (c :: cs) ext :=
            h.imp id fun hb x hx => not_isOperatorChar_of_isSpace x (hb.2 x hx)
          exact scanRun_before hs
        · next ho =>
          rw [if_neg ho] at h
          split
          · next hd =>
            rw [if_pos hd] at h
            have hs : (scanNumber (c :: cs)).rest ≠ [] ∨ Blank ext := h.imp id And.right
            exact scanNumber_before hs
          · rfl

/-- Only a punctuation character is scanned as punctuation, and it is all that is taken. -/
theorem scan_of_punctuation {c x : Char} {cs : List Char}
    (h : (scan c cs).result = .ok (.punctuation x)) (ext : List Char) :
    scan c ext = ⟨.ok (.punctuation x), [x], ext⟩ := by
  unfold scan at h ⊢
  split at h
  · cases h
  · next hq =>
    split at h
    · cases h
    · next hn =>
      split at h
      · next hp =>
        cases h
        simp [hq, hn, hp]
      · split at h
        · cases h
        · split at h
          · unfold scanNumber integerLexeme at h
            grind
          · cases h

namespace Position

theorem line_after (p : Position) (cs : List Char) : (p.after cs).line = p.line + cs.count '\n' := by
  induction cs generalizing p with
  | nil => simp
  | cons c cs ih =>
    rw [after_cons, ih, step]
    by_cases hc : c = '\n'
    · simp [hc]
      omega
    · simp [hc]

/-- Text moves a position to a later line, or along its line. -/
theorem after_cases (p : Position) (cs : List Char) :
    p.line < (p.after cs).line ∨ (p.after cs).col = p.col + cs.length := by
  induction cs generalizing p with
  | nil => exact Or.inr rfl
  | cons c cs ih =>
    rw [after_cons]
    by_cases hc : c = '\n'
    · left
      rw [line_after, step, if_pos hc]
      simp only
      omega
    · have hs : p.step c = ⟨p.line, p.col + 1⟩ := by rw [step, if_neg hc]
      rw [hs]
      refine (ih ⟨p.line, p.col + 1⟩).imp id fun h => ?_
      rw [h, List.length_cons, Nat.add_right_comm, Nat.add_assoc]

theorem eq_nil_of_after_eq_self {p : Position} {cs : List Char} (h : p.after cs = p) : cs = [] := by
  rcases p.after_cases cs with hl | hc
  · rw [h] at hl
    omega
  · rw [h] at hc
    exact List.length_eq_zero_iff.mp (by omega)

end Position

namespace Cursor

def append (c : Cursor) (ext : List Char) : Cursor :=
  { c with rest := c.rest ++ ext }

def Reaches (c d : Cursor) : Prop :=
  ∃ passed, c.rest = passed ++ d.rest ∧ d.pos = c.pos.after passed ∧ d.file = c.file

theorem Reaches.trans {c d e : Cursor} (h : c.Reaches d) (h' : d.Reaches e) : c.Reaches e := by
  obtain ⟨as, hr, hp, hf⟩ := h
  obtain ⟨bs, hr', hp', hf'⟩ := h'
  refine ⟨as ++ bs, ?_, ?_, hf'.trans hf⟩
  · rw [hr, hr', List.append_assoc]
  · rw [hp', hp, Position.after_append]

theorem reaches_move {c : Cursor} {taken rest : List Char} (h : taken ++ rest = c.rest) :
    c.Reaches (c.move taken rest) :=
  ⟨taken, h.symm, rfl, rfl⟩

theorem reaches_skipWhile (c : Cursor) (p : Char → Bool) : c.Reaches (c.skipWhile p) :=
  reaches_move List.takeWhile_append_dropWhile

theorem reaches_of_read {c d : Cursor} {t : Option Token} (h : read c = .ok t d) : c.Reaches d := by
  rcases read_cases c with ⟨he, hr⟩ | ⟨x, xs, he, ⟨lexeme, hl, hr⟩ | ⟨failure, fault, hl, hr⟩⟩
  · rw [hr] at h
    cases h
    exact reaches_skipWhile c isSpace
  · rw [hr] at h
    cases h
    refine (reaches_skipWhile c isSpace).trans (reaches_move ?_)
    rw [rest_skipWhile, he]
    exact scan_append x xs
  · rw [hr] at h
    cases h

theorem reaches_of_readSignificant {c d : Cursor} {t : Option Token}
    (h : readSignificant c = .ok t d) : c.Reaches d := by
  fun_induction readSignificant c with
  | case1 c t c' hread hc ih =>
    exact (reaches_of_read hread).trans ((reaches_skipWhile c' _).trans (ih h))
  | case2 c t c' hread hc =>
    cases h
    exact reaches_of_read hread
  | case3 c c' hread =>
    cases h
    exact reaches_of_read hread
  | case4 c fault c' hread => cases h

/-- Skipping stops at the same place in a longer text. -/
theorem skipWhile_append {c : Cursor} {p : Char → Bool} {ext : List Char}
    (h : Stops p c.rest ext) : (c.append ext).skipWhile p = (c.skipWhile p).append ext := by
  obtain ⟨ht, hd⟩ := h.span
  simp [skipWhile, move, append, ht, hd]

/-- A token that something is left behind is read the same before further text; so is one that blank
text follows, unless it is a text. -/
theorem read_append {c d : Cursor} {t : Token} {ext : List Char} (h : read c = .ok (some t) d)
    (he : d.rest ≠ [] ∨ (∀ s, t.lexeme ≠ .text s) ∧ Blank ext) :
    read (c.append ext) = .ok (some t) (d.append ext) := by
  rcases read_cases c with ⟨hd, hr⟩ | ⟨x, xs, hd, ⟨lexeme, hl, hr⟩ | ⟨failure, fault, hl, hr⟩⟩
  · rw [hr] at h
    cases h
  · rw [hr] at h
    cases h
    have hq : (scan x xs).rest ≠ [] ∨ x ≠ '"' ∧ Blank ext := by
      refine he.imp id fun hb => ⟨?_, hb.2⟩
      rintro rfl
      exact hb.1 _ (Except.ok.inj hl).symm
    have hskip : (c.append ext).skipWhile isSpace = (c.skipWhile isSpace).append ext :=
      skipWhile_append (Or.inl (by rw [hd]; simp))
    have hs := scan_before hq
    unfold read
    simp only [hskip]
    simp only [append, rest_skipWhile, hd, List.cons_append, hs, Scan.before, hl]
    rfl
  · rw [hr] at h
    cases h

/-- Punctuation is read the same whatever stands behind it, and moves the cursor by its character. -/
theorem read_append_of_punctuation {c d : Cursor} {t : Token} {x : Char} (ext : List Char)
    (h : read c = .ok (some t) d) (ht : t.lexeme = .punctuation x) :
    read (c.append ext) = .ok (some t) (d.append ext) ∧ d.pos = t.pos.step x := by
  rcases read_cases c with ⟨hd, hr⟩ | ⟨y, ys, hd, ⟨lexeme, hl, hr⟩ | ⟨failure, fault, hl, hr⟩⟩
  · rw [hr] at h
    cases h
  · rw [hr] at h
    cases h
    simp only at ht
    subst ht
    have hskip : (c.append ext).skipWhile isSpace = (c.skipWhile isSpace).append ext :=
      skipWhile_append (Or.inl (by rw [hd]; simp))
    have hs := scan_of_punctuation hl
    refine ⟨?_, by simp [move, hs]⟩
    unfold read
    simp only [hskip]
    simp only [append, rest_skipWhile, hd, List.cons_append, hs, move]
  · rw [hr] at h
    cases h

/-- A significant token that something is left behind, or that is punctuation, is read the same before
further text. -/
theorem readSignificant_append {c d : Cursor} {t : Token} (ext : List Char)
    (h : readSignificant c = .ok (some t) d) (he : d.rest ≠ [] ∨ ∃ x, t.lexeme = .punctuation x) :
    readSignificant (c.append ext) = .ok (some t) (d.append ext) := by
  fun_induction readSignificant c with
  | case1 c u c' hread hc ih =>
    have hl := length_readSignificant (c'.skipWhile (· != '\n'))
    rw [h] at hl
    have hne : (c'.skipWhile (· != '\n')).rest ≠ [] := by
      intro hn
      rw [hn] at hl
      simp at hl
    have hne' : c'.rest ≠ [] := by
      intro hn
      simp [hn] at hne
    have hs : (c'.append ext).skipWhile (· != '\n') = (c'.skipWhile (· != '\n')).append ext :=
      skipWhile_append (Or.inl hne)
    rw [readSignificant_of_comment (read_append hread (Or.inl hne')) hc, hs]
    exact ih h
  | case2 c u c' hread hc =>
    cases h
    have hr : read (c.append ext) = .ok (some t) (d.append ext) := by
      rcases he with hne | ⟨x, hx⟩
      · exact read_append hread (Or.inl hne)
      · exact (read_append_of_punctuation ext hread hx).1
    exact readSignificant_of_token hr (by simpa using hc)
  | case3 c c' hread => cases h
  | case4 c fault c' hread => cases h

/-- A mark takes up one character. -/
theorem pos_of_readSignificant_punctuation {c d : Cursor} {t : Token} {x : Char}
    (h : readSignificant c = .ok (some t) d) (ht : t.lexeme = .punctuation x) :
    d.pos = t.pos.step x := by
  fun_induction readSignificant c with
  | case1 c u c' hread hc ih => exact ih h
  | case2 c u c' hread hc =>
    cases h
    exact (read_append_of_punctuation [] hread ht).2
  | case3 c c' hread => cases h
  | case4 c fault c' hread => cases h

theorem readSignificant_congr {c d : Cursor} (h : read c = read d) :
    readSignificant c = readSignificant d := by
  cases hr : read d with
  | error fault e => rw [readSignificant_of_error hr, readSignificant_of_error (h.trans hr)]
  | ok t e =>
    cases t with
    | none => rw [readSignificant_of_end hr, readSignificant_of_end (h.trans hr)]
    | some t =>
      cases hc : t.lexeme.isComment with
      | true => rw [readSignificant_of_comment hr hc, readSignificant_of_comment (h.trans hr) hc]
      | false => rw [readSignificant_of_token hr hc, readSignificant_of_token (h.trans hr) hc]

/-- Where nothing significant is left, a further line is read as if nothing stood before it. -/
theorem readSignificant_append_line {c d : Cursor} (cs : List Char)
    (h : readSignificant c = .ok none d) :
    readSignificant (c.append ('\n' :: cs)) =
      readSignificant ⟨cs, c.pos.after (c.rest ++ ['\n']), c.file⟩ := by
  fun_induction readSignificant c with
  | case1 c t c' hread hc ih =>
    have hlex : ∀ s, t.lexeme ≠ .text s := by
      intro s hs
      rw [hs] at hc
      cases hc
    have hb : Blank ('\n' :: cs) := by
      intro x hx
      cases hx
      rfl
    have hs : (c'.append ('\n' :: cs)).skipWhile (· != '\n') =
        (c'.skipWhile (· != '\n')).append ('\n' :: cs) :=
      skipWhile_append (Or.inr fun x hx => by
        cases hx
        rfl)
    rw [readSignificant_of_comment (read_append hread (Or.inr ⟨hlex, hb⟩)) hc, hs, ih h]
    obtain ⟨passed, hr, hp, hf⟩ :=
      (reaches_of_read hread).trans (reaches_skipWhile c' (· != '\n'))
    rw [hr, hf, hp]
    simp
  | case2 c t c' hread hc => cases h
  | case3 c c' hread =>
    refine readSignificant_congr ?_
    have hd : ∀ x ∈ c.rest, isSpace x = true := by
      rcases read_cases c with ⟨he, -⟩ | ⟨x, xs, -, ⟨lexeme, -, hr⟩ | ⟨failure, fault, -, hr⟩⟩
      · have ht : c.rest.takeWhile isSpace = c.rest := by
          simpa [he] using List.takeWhile_append_dropWhile (p := isSpace) (l := c.rest)
        rw [← ht]
        exact List.all_eq_true.mp List.all_takeWhile
      · rw [hr] at hread
        cases hread
      · rw [hr] at hread
        cases hread
    have hn : isSpace '\n' = true := rfl
    have hskip : (c.append ('\n' :: cs)).skipWhile isSpace =
        (Cursor.mk cs (c.pos.after (c.rest ++ ['\n'])) c.file).skipWhile isSpace := by
      simp [skipWhile, move, append, List.takeWhile_append_of_pos hd,
        List.dropWhile_append_of_pos hd, hn]
    unfold read
    simp only [hskip]
  | case4 c fault c' hread => cases h

end Cursor
end ScriptLang
