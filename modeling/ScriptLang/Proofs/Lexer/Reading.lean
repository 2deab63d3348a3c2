import ScriptLang.Lexer.Basic

/-! Reading tokens off a cursor. A token that is read makes the text left shorter, so comments can be
read past without a bound of their own. -/
namespace ScriptLang

theorem scan_taken_ne_nil {c : Char} {cs : List Char} {lexeme : Lexeme}
    (h : (scan c cs).result = .ok lexeme) : (scan c cs).taken ≠ [] := by
  revert h
  unfold scan
  split
  · simp
  · split
    · next hn => simp [scanRun, isNameChar, hn]
    · split
      · simp
      · split
        · next ho => simp [scanRun, ho]
        · split
          · next hd =>
            unfold scanNumber
            split <;> simp [hd]
          · intro h
            cases h

namespace Cursor

@[simp] theorem rest_move (c : Cursor) (taken rest : List Char) : (c.move taken rest).rest = rest := rfl

@[simp] theorem rest_skipWhile (c : Cursor) (p : Char → Bool) :
    (c.skipWhile p).rest = c.rest.dropWhile p := rfl

theorem length_skipWhile_le (c : Cursor) (p : Char → Bool) :
    (c.skipWhile p).rest.length ≤ c.rest.length := by
  simpa using (List.dropWhile_sublist (l := c.rest) p).length_le

/-- What reading comes to, told by the scan of what follows the space. -/
theorem read_cases (c : Cursor) :
    (c.rest.dropWhile isSpace = [] ∧ read c = .ok none (c.skipWhile isSpace)) ∨
    ∃ x xs, c.rest.dropWhile isSpace = x :: xs ∧
      let after := (c.skipWhile isSpace).move (scan x xs).taken (scan x xs).rest
      (∃ lexeme, (scan x xs).result = .ok lexeme ∧
        read c = .ok (some ⟨lexeme, (c.skipWhile isSpace).pos⟩) after) ∨
      (∃ failure fault, (scan x xs).result = .error failure ∧ read c = .error fault after) := by
  unfold read
  simp only [rest_skipWhile]
  cases h : c.rest.dropWhile isSpace with
  | nil => exact Or.inl ⟨rfl, rfl⟩
  | cons x xs =>
    refine Or.inr ⟨x, xs, rfl, ?_⟩
    cases hr : (scan x xs).result with
    | ok lexeme => exact Or.inl ⟨lexeme, rfl, by simp only [hr]⟩
    | error failure =>
      refine Or.inr ?_
      cases failure with
      | unreadable y => exact ⟨_, _, rfl, by simp only [hr]; rfl⟩
      | numeralTooLong => exact ⟨_, _, rfl, by simp only [hr]; rfl⟩
      | integerTooLarge => exact ⟨_, _, rfl, by simp only [hr]; rfl⟩

theorem read_none {c c' : Cursor} (h : read c = .ok none c') : c'.rest = [] := by
  rcases read_cases c with ⟨he, hr⟩ | ⟨x, xs, he, ⟨lexeme, hl, hr⟩ | ⟨failure, fault, hl, hr⟩⟩
  · rw [hr] at h
    cases h
    exact he
  · rw [hr] at h
    cases h
  · rw [hr] at h
    cases h

/-- Reading a token makes progress. -/
theorem length_read_lt {c c' : Cursor} {t : Token} (h : read c = .ok (some t) c') :
    c'.rest.length < c.rest.length := by
  rcases read_cases c with ⟨he, hr⟩ | ⟨x, xs, he, ⟨lexeme, hl, hr⟩ | ⟨failure, fault, hl, hr⟩⟩
  · rw [hr] at h
    cases h
  · rw [hr] at h
    cases h
    have ht := scan_taken_ne_nil hl
    have ha := congrArg List.length (scan_append x xs)
    have hd := length_skipWhile_le c isSpace
    have hp := List.length_pos_iff.mpr ht
    rw [rest_skipWhile, he] at hd
    rw [List.length_append] at ha
    simp only [rest_move]
    omega
  · rw [hr] at h
    cases h

theorem length_read_error_le {c c' : Cursor} {fault : Fault} (h : read c = .error fault c') :
    c'.rest.length ≤ c.rest.length := by
  rcases read_cases c with ⟨he, hr⟩ | ⟨x, xs, he, ⟨lexeme, hl, hr⟩ | ⟨failure, fault, hl, hr⟩⟩
  · rw [hr] at h
    cases h
  · rw [hr] at h
    cases h
  · rw [hr] at h
    cases h
    have ha := congrArg List.length (scan_append x xs)
    have hd := length_skipWhile_le c isSpace
    rw [rest_skipWhile, he] at hd
    rw [List.length_append] at ha
    simp only [rest_move]
    omega

def readSignificant (c : Cursor) : EStateM.Result Fault Cursor (Option Token) :=
  match _hread : read c with
  | .ok (some t) c' =>
    if t.lexeme.isComment then readSignificant (c'.skipWhile (· != '\n')) else .ok (some t) c'
  | .ok none c' => .ok none c'
  | .error fault c' => .error fault c'
termination_by c.rest.length
decreasing_by
  have hr := length_read_lt _hread
  have hs := length_skipWhile_le c' (· != '\n')
  omega

/-- Behind a comment sign reading goes on at the end of the line. -/
theorem readSignificant_of_comment {c d : Cursor} {t : Token} (h : read c = .ok (some t) d)
    (hc : t.lexeme.isComment = true) :
    readSignificant c = readSignificant (d.skipWhile (· != '\n')) := by
  rw [readSignificant]
  split <;> simp_all

theorem readSignificant_of_token {c d : Cursor} {t : Token} (h : read c = .ok (some t) d)
    (hc : t.lexeme.isComment = false) : readSignificant c = .ok (some t) d := by
  rw [readSignificant]
  split <;> simp_all

theorem readSignificant_of_end {c d : Cursor} (h : read c = .ok none d) :
    readSignificant c = .ok none d := by
  rw [readSignificant]
  split <;> simp_all

theorem readSignificant_of_error {c d : Cursor} {fault : Fault} (h : read c = .error fault d) :
    readSignificant c = .error fault d := by
  rw [readSignificant]
  split <;> simp_all

/-- Reading apart from comments makes progress, or there is nothing left. -/
theorem length_readSignificant (c : Cursor) :
    match readSignificant c with
    | .ok (some _) c' => c'.rest.length < c.rest.length
    | .ok none c' => c'.rest = []
    | .error _ c' => c'.rest.length ≤ c.rest.length := by
  fun_induction readSignificant c with
  | case1 c t c' hread hc ih =>
    have hr := length_read_lt hread
    have hs := length_skipWhile_le c' (· != '\n')
    split at ih
    · omega
    · exact ih
    · omega
  | case2 c t c' hread hc => exact length_read_lt hread
  | case3 c c' hread => exact read_none hread
  | case4 c fault c' hread => exact length_read_error_le hread

/-- What is read apart from comments is no comment sign. -/
theorem not_isComment_of_readSignificant {c c' : Cursor} {t : Option Token}
    (h : readSignificant c = .ok t c') : t.any (·.lexeme.isComment) = false := by
  fun_induction readSignificant c with
  | case1 c t c' hread hc ih => exact ih h
  | case2 c t c' hread hc =>
    cases h
    simpa using hc
  | case3 c c' hread =>
    cases h
    rfl
  | case4 c fault c' hread => cases h

end Cursor
end ScriptLang
