import ScriptLang.Proofs.Lexer.Splitting
import ScriptLang.Proofs.Parser.Streams

/-! Comments as a pass of their own. Putting spaces in the place of all comments leaves a text whose
plain tokens are the significant tokens of the text before: the same lexemes at the same places, and
the same fault at the end. -/
namespace ScriptLang

/-- What a character of a text stands in. Numbers and punctuation count as standing between tokens, for
no character of theirs can be mistaken for the beginning of a comment. -/
inductive Context
  | between
  | name
  | operator
  | text
  | escape
  | comment
deriving DecidableEq, Repr

def Context.opened (c : Char) : Context :=
  if c = '"' then .text
  else if isNameStart c then .name
  else if isOperatorChar c then .operator
  else .between

/-- Puts a space in the place of every character of a comment. A comment begins with two slashes where
an operator may begin, and ends before the next line feed. -/
def blankedFrom : Context → List Char → List Char
  | _, [] => []
  | .comment, c :: cs =>
    if c = '\n' then c :: blankedFrom .between cs else ' ' :: blankedFrom .comment cs
  | .escape, c :: cs => c :: blankedFrom .text cs
  | .text, c :: cs =>
    c :: blankedFrom (if c = '\\' then .escape else if c = '"' then .between else .text) cs
  | context, c :: cs =>
    if context = .name ∧ isNameChar c = true then c :: blankedFrom .name cs
    else if context ≠ .operator ∧ c = '/' ∧ cs.head? = some '/' then ' ' :: blankedFrom .comment cs
    else c :: blankedFrom (.opened c) cs

def blanked (text : String) : String :=
  String.ofList (blankedFrom .between text.toList)

/-- Blanking keeps the length of a text. -/
theorem length_blankedFrom (context : Context) (cs : List Char) :
    (blankedFrom context cs).length = cs.length := by
  fun_induction blankedFrom context cs <;> simp_all

/-- A character that opens nothing stays, and leads on between tokens. -/
theorem blankedFrom_cons_of_opened {c : Char} (cs : List Char) (h : Context.opened c = .between) :
    blankedFrom .between (c :: cs) = c :: blankedFrom .between cs := by
  have hne : c ≠ '/' := by
    rintro rfl
    revert h
    decide
  simp [blankedFrom, hne, h]

/-- Characters that stand for themselves stay as they are. -/
theorem blankedFrom_append_of_opened {cs : List Char} (rest : List Char)
    (h : ∀ x ∈ cs, Context.opened x = .between) :
    blankedFrom .between (cs ++ rest) = cs ++ blankedFrom .between rest := by
  induction cs with
  | nil => rfl
  | cons c cs ih =>
    obtain ⟨hc, hcs⟩ := List.forall_mem_cons.mp h
    rw [List.cons_append, blankedFrom_cons_of_opened _ hc, ih hcs, List.cons_append]

theorem opened_of_isSpace {c : Char} (h : isSpace c = true) : Context.opened c = .between := by
  rcases isSpace_cases h with rfl | rfl | rfl | rfl <;> decide

theorem blankedFrom_allSpace_append {space : List Char} (rest : List Char) (h : AllSpace space) :
    blankedFrom .between (space ++ rest) = space ++ blankedFrom .between rest :=
  blankedFrom_append_of_opened rest fun x hx => opened_of_isSpace (h x hx)

theorem opened_of_isDigit {c : Char} (h : c.isDigit = true) : Context.opened c = .between := by
  obtain ⟨hm, -, ho⟩ := mark_of_isDigit h
  simp [Context.opened, hm, ho]

theorem opened_of_isPunctuation {c : Char} (h : isPunctuation c = true) :
    Context.opened c = .between := by
  have ho : (!isOperatorChar c) = true :=
    of_contains (q := fun x => !isOperatorChar x) h (by decide)
  have hm := mark_of_isPunctuation h
  simp only [Bool.not_eq_true'] at ho
  simp [Context.opened, hm, ho]

theorem opened_of_isUnreadable {c : Char} (h : isUnreadable c = true) :
    Context.opened c = .between := by
  simp only [isUnreadable, Bool.and_eq_true, bne_iff_ne, Bool.not_eq_true'] at h
  obtain ⟨⟨⟨⟨⟨hq, hn⟩, -⟩, ho⟩, -⟩, -⟩ := h
  simp [Context.opened, hq, hn, ho]

theorem opened_of_isOperatorChar {c : Char} (h : isOperatorChar c = true) :
    Context.opened c = .operator := by
  obtain ⟨hm, -⟩ := mark_of_isOperatorChar h
  simp [Context.opened, hm, h]

/-! Names and operators end where their characters do, and nothing of them hangs on afterwards. -/

theorem blankedFrom_name {cs rest : List Char} (h : ∀ x ∈ cs, isNameChar x = true)
    (he : Ends isNameChar rest) :
    blankedFrom .name (cs ++ rest) = cs ++ blankedFrom .between rest := by
  induction cs with
  | nil =>
    cases rest with
    | nil => rfl
    | cons y ys =>
      have hy := he y rfl
      simp [blankedFrom, hy]
  | cons c cs ih =>
    obtain ⟨hc, hcs⟩ := List.forall_mem_cons.mp h
    simp [blankedFrom, hc, ih hcs]

theorem blankedFrom_operator {cs rest : List Char} (h : ∀ x ∈ cs, isOperatorChar x = true)
    (he : Ends isOperatorChar rest) :
    blankedFrom .operator (cs ++ rest) = cs ++ blankedFrom .between rest := by
  induction cs with
  | nil =>
    cases rest with
    | nil => rfl
    | cons y ys =>
      have hy : y ≠ '/' := by
        rintro rfl
        have hn := he '/' rfl
        revert hn
        decide
      simp [blankedFrom, hy]
  | cons c cs ih =>
    obtain ⟨hc, hcs⟩ := List.forall_mem_cons.mp h
    simp [blankedFrom, opened_of_isOperatorChar hc, ih hcs]

/-- The inside of a text literal stays as it is. -/
theorem blankedFrom_text {body value : List Char} (h : Inside body value) (rest : List Char) :
    blankedFrom .text (body ++ rest) = body ++ blankedFrom .text rest := by
  induction h with
  | nil => rfl
  | plain hq hb _ ih => simp [blankedFrom, hq, hb, ih]
  | escape c _ ih => simp [blankedFrom, ih]

/-- A comment is made blank up to the end of its line. -/
theorem blankedFrom_comment (cs : List Char) :
    blankedFrom .comment cs = List.replicate (cs.takeWhile (· != '\n')).length ' ' ++
      blankedFrom .between (cs.dropWhile (· != '\n')) := by
  induction cs with
  | nil => rfl
  | cons c cs ih =>
    by_cases hc : c = '\n'
    · subst hc
      have ho : Context.opened '\n' = .between := by decide
      simp [blankedFrom, ho]
    · simp [blankedFrom, hc, ih, List.replicate_succ]

/-- An operator is a comment sign if it begins with two slashes. -/
theorem isComment_operator_iff {cs : List Char} :
    (Lexeme.operator (String.ofList cs)).isComment = true ↔ ∃ tail, cs = '/' :: '/' :: tail := by
  have hp : (Lexeme.operator (String.ofList cs)).isComment = ['/', '/'].isPrefixOf cs := by
    simp [Lexeme.isComment]
  rw [hp, List.isPrefixOf_iff_prefix]
  constructor
  · rintro ⟨tail, rfl⟩
    exact ⟨tail, rfl⟩
  · rintro ⟨tail, rfl⟩
    exact ⟨tail, rfl⟩

/-- A lexeme that opens no comment stays as it is. -/
theorem blankedFrom_of_longest {l : Lexeme} {cs rest : List Char} (h : Longest l cs rest)
    (hc : l.isComment = false) :
    blankedFrom .between (cs ++ rest) = cs ++ blankedFrom .between rest := by
  cases h with
  | @text body value rest hi =>
    have ht := blankedFrom_text hi ('"' :: rest)
    simpa [blankedFrom, Context.opened] using ht
  | @openText body value hi =>
    have ht := blankedFrom_text hi []
    simpa [blankedFrom, Context.opened] using ht
  | @openEscape body value hi =>
    have ht := blankedFrom_text hi ['\\']
    simpa [blankedFrom, Context.opened] using ht
  | @identifier c tail rest hn ht he =>
    have hne : c ≠ '/' := by
      rintro rfl
      revert hn
      decide
    have ho : Context.opened c = .name := by
      simp [Context.opened, hn, ne_quote_of_isNameStart hn]
    simp [blankedFrom, hne, ho, blankedFrom_name ht he]
  | punctuation _ hp => exact blankedFrom_cons_of_opened _ (opened_of_isPunctuation hp)
  | operator hne hall he =>
    obtain ⟨c, tail, rfl⟩ := List.exists_cons_of_ne_nil hne
    obtain ⟨ho, htail⟩ := List.forall_mem_cons.mp hall
    -- Two slashes at the front would be a comment, and a slash behind the operator belongs to it.
    have hslash : ¬(c = '/' ∧ (tail ++ rest).head? = some '/') := by
      rintro ⟨rfl, hhead⟩
      cases tail with
      | nil =>
        have hn := he '/' hhead
        revert hn
        decide
      | cons d ds =>
        have hd : d = '/' := by simpa using hhead
        rw [hd, isComment_operator_iff.mpr ⟨ds, rfl⟩] at hc
        cases hc
    have hrun := blankedFrom_operator htail he
    simp only [List.cons_append, blankedFrom, hslash, opened_of_isOperatorChar ho, hrun]
    simp
  | integer _ hall _ _ _ =>
    apply blankedFrom_append_of_opened
    intro x hx
    exact opened_of_isDigit (hall x hx)
  | @float whole fraction rest hne hw hf he =>
    apply blankedFrom_append_of_opened
    intro x hx
    rcases List.mem_append.mp hx with hx | hx
    · exact opened_of_isDigit (hw x hx)
    · rcases List.mem_cons.mp hx with rfl | hx
      · decide
      · exact opened_of_isDigit (hf x hx)

/-- An operator that opens a comment is made blank with the rest of its line. -/
theorem blankedFrom_of_comment {l : Lexeme} {cs rest : List Char} (h : Longest l cs rest)
    (hc : l.isComment = true) :
    blankedFrom .between (cs ++ rest) =
      List.replicate (cs ++ rest.takeWhile (· != '\n')).length ' ' ++
        blankedFrom .between (rest.dropWhile (· != '\n')) := by
  cases h with
  | operator hne hall he =>
    obtain ⟨tail, rfl⟩ := isComment_operator_iff.mp hc
    have hline : ∀ x ∈ '/' :: tail, (x != '\n') = true := by
      intro x hx
      have ho : isOperatorChar x = true := hall x (List.mem_cons_of_mem _ hx)
      exact of_contains (q := fun x => x != '\n') ho (by decide)
    have ht : ('/' :: tail ++ rest).takeWhile (· != '\n') =
        '/' :: tail ++ rest.takeWhile (· != '\n') := List.takeWhile_append_of_pos hline
    have hd : ('/' :: tail ++ rest).dropWhile (· != '\n') = rest.dropWhile (· != '\n') :=
      List.dropWhile_append_of_pos hline
    have hcom := blankedFrom_comment ('/' :: tail ++ rest)
    rw [ht, hd] at hcom
    have hopen : blankedFrom .between ('/' :: '/' :: tail ++ rest) =
        ' ' :: blankedFrom .comment ('/' :: tail ++ rest) := by
      simp [blankedFrom]
    rw [hopen, hcom]
    simp [List.replicate_succ]
  | text _ _ => cases hc
  | openText _ => cases hc
  | openEscape _ => cases hc
  | identifier _ _ _ => cases hc
  | punctuation _ _ => cases hc
  | integer _ _ _ _ _ => cases hc
  | float _ _ _ _ => cases hc

/-- The first character stays, or becomes a space. -/
theorem head?_blankedFrom {cs : List Char} {x : Char}
    (h : x ∈ (blankedFrom .between cs).head?) : x ∈ cs.head? ∨ x = ' ' := by
  cases cs with
  | nil => exact Or.inl h
  | cons c cs =>
    simp only [blankedFrom] at h
    split at h
    · exact Or.inl h
    · split at h
      · right
        simpa using h.symm
      · exact Or.inl h

theorem Ends.blanked {p : Char → Bool} {rest : List Char} (h : Ends p rest) (hp : p ' ' = false) :
    Ends p (blankedFrom .between rest) := by
  intro x hx
  rcases head?_blankedFrom hx with hx | rfl
  · exact h x hx
  · exact hp

/-- A lexeme ends where it did when comments behind it are made blank. -/
theorem Longest.blanked {l : Lexeme} {cs rest : List Char} (h : Longest l cs rest) :
    Longest l cs (blankedFrom .between rest) := by
  cases h with
  | text _ hi => exact .text _ hi
  | openText hi => exact .openText hi
  | openEscape hi => exact .openEscape hi
  | identifier hn ht he => exact .identifier hn ht (he.blanked (by decide))
  | punctuation _ hp => exact .punctuation _ hp
  | operator hne hall he => exact .operator hne hall (he.blanked (by decide))
  | integer hne hall hl hr he => exact .integer hne hall hl hr (he.blanked (by decide))
  | float hne hw hf he => exact .float hne hw hf (he.blanked (by decide))

/-- A scan that fails, fails in the same way where comments behind it are made blank. -/
theorem scan_blanked_of_error {x : Char} {xs : List Char} {failure : ScanFailure}
    (hx : isSpace x = false) (h : (scan x xs).result = .error failure) :
    ∃ ys, blankedFrom .between (x :: xs) = x :: ys ∧
      scan x ys = ⟨.error failure, (scan x xs).taken, blankedFrom .between (scan x xs).rest⟩ := by
  rcases scan_error_cases hx h with ⟨hu, rfl⟩ | ⟨tail, rest, hw, he, rfl, hi, hs⟩
  · have hb := blankedFrom_cons_of_opened xs (opened_of_isUnreadable hu)
    refine ⟨blankedFrom .between xs, hb, ?_⟩
    rw [scan_of_isUnreadable _ hu, scan_of_isUnreadable _ hu, hb]
  · have hb : blankedFrom .between (x :: tail ++ rest) = x :: tail ++ blankedFrom .between rest := by
      apply blankedFrom_append_of_opened
      intro y hy
      exact opened_of_isDigit (hw y hy)
    refine ⟨tail ++ blankedFrom .between rest, hb, ?_⟩
    have hd : x.isDigit = true := hw x List.mem_cons_self
    rw [hs, scan_of_isDigit _ hd, ← List.cons_append,
      scanNumber_of_ends hw (he.blanked (by decide)), hi]

theorem Position.after_of_no_newline {cs : List Char} (p : Position) (h : ∀ x ∈ cs, x ≠ '\n') :
    p.after cs = ⟨p.line, p.col + cs.length⟩ := by
  induction cs generalizing p with
  | nil => rfl
  | cons c cs ih =>
    obtain ⟨hc, hcs⟩ := List.forall_mem_cons.mp h
    rw [after_cons, ih _ hcs, step, if_neg hc]
    simp only [List.length_cons]
    rw [Nat.add_right_comm, Nat.add_assoc]

/-- Blanks lead to the same position as a comment of their length. -/
theorem Position.after_replicate_comment {l : Lexeme} {cs rest : List Char} (p : Position)
    (h : Longest l cs rest) (hc : l.isComment = true) :
    p.after (List.replicate (cs ++ rest.takeWhile (· != '\n')).length ' ') =
      (p.after cs).after (rest.takeWhile (· != '\n')) := by
  have hcs : ∀ x ∈ cs ++ rest.takeWhile (· != '\n'), x ≠ '\n' := by
    intro x hx
    rcases List.mem_append.mp hx with hx | hx
    · cases h with
      | operator _ hall _ =>
        have hn := of_contains (q := fun x => x != '\n') (hall x hx) (by decide)
        simpa using hn
      | _ => cases hc
    · have hn := List.all_eq_true.mp List.all_takeWhile x hx
      simpa using hn
  have hsp : ∀ x ∈ List.replicate (cs ++ rest.takeWhile (· != '\n')).length ' ', x ≠ '\n' := by
    intro x hx
    rw [List.eq_of_mem_replicate hx]
    decide
  calc p.after (List.replicate (cs ++ rest.takeWhile (· != '\n')).length ' ')
      = ⟨p.line, p.col + (cs ++ rest.takeWhile (· != '\n')).length⟩ := by
        rw [after_of_no_newline p hsp, List.length_replicate]
    _ = p.after (cs ++ rest.takeWhile (· != '\n')) := (after_of_no_newline p hcs).symm
    _ = (p.after cs).after (rest.takeWhile (· != '\n')) := after_append p _ _

namespace Cursor

def blanked (c : Cursor) : Cursor :=
  { c with rest := blankedFrom .between c.rest }

theorem allSpace_replicate (n : Nat) : AllSpace (List.replicate n ' ') := by
  intro x hx
  rw [List.eq_of_mem_replicate hx]
  decide

/-- Where comments are made blank, plain reading finds what reading past comments does. -/
theorem read_blanked (c : Cursor) :
    read c.blanked = match readSignificant c with
      | .ok t d => .ok t d.blanked
      | .error fault d => .error fault d.blanked := by
  fun_induction readSignificant c with
  | case1 c t d hread hc ih =>
    obtain ⟨space, written, hsp, hl, hcs, -, hd⟩ := longest_of_read hread
    have hb : blankedFrom .between c.rest =
        space ++ (List.replicate (written ++ d.rest.takeWhile (· != '\n')).length ' ' ++
          blankedFrom .between (d.rest.dropWhile (· != '\n'))) := by
      rw [hcs, blankedFrom_allSpace_append _ hsp, blankedFrom_of_comment hl hc]
    have hpos := Position.after_replicate_comment (c.pos.after space) hl hc
    rw [← ih, blanked, hb, read_allSpace_append _ _ _ hsp,
      read_allSpace_append _ _ _ (allSpace_replicate _), hpos, hd]
    rfl
  | case2 c t d hread hc =>
    obtain ⟨space, written, hsp, hl, hcs, ht, hd⟩ := longest_of_read hread
    have hb : blankedFrom .between c.rest = space ++ (written ++ blankedFrom .between d.rest) := by
      rw [hcs, blankedFrom_allSpace_append _ hsp, blankedFrom_of_longest hl (by simpa using hc)]
    have hr := read_of_longest c.pos c.file hsp hl.blanked
    rw [← hb] at hr
    rw [hd, blanked, hr, ← ht]
    rfl
  | case3 c d hread =>
    obtain ⟨hall, rfl⟩ := allSpace_of_read hread
    have hb : blankedFrom .between c.rest = c.rest := by
      have ha := blankedFrom_allSpace_append [] hall
      simpa [blankedFrom] using ha
    rw [blanked, hb]
    exact hread
  | case4 c fault d hread =>
    obtain ⟨space, x, xs, failure, hsp, hx, hcs, hscan, hd, rfl⟩ := scan_of_read_error hread
    obtain ⟨ys, hys, hs⟩ := scan_blanked_of_error hx hscan
    have hb : blankedFrom .between c.rest = space ++ x :: ys := by
      rw [hcs, blankedFrom_allSpace_append _ hsp, hys]
    rw [blanked, hb, read_of_scan c.pos c.file ys hsp hx, hd]
    simp only [hs]
    rfl

end Cursor

def answers {σ : Type} (step : EStateM Fault σ (Option Token)) :
    Nat → σ → List (Except Fault (Option Token))
  | 0, _ => []
  | count + 1, s =>
    match step s with
    | .ok t s => .ok t :: answers step count s
    | .error fault s => .error fault :: answers step count s

namespace Parser

/-- Without lookahead the parser takes the next token that is no comment. -/
theorem advance_of_no_ahead (c : Cursor) (needed : Bool) :
    Parse.advance ⟨⟨c, none⟩, needed⟩ = match c.readSignificant with
      | .ok t d => .ok t ⟨⟨d, none⟩, needed⟩
      | .error fault d => .error fault ⟨⟨d, none⟩, needed⟩ := by
  have hp : Parse.peek ⟨⟨c, none⟩, needed⟩ = resume ⟨⟨c, none⟩, needed⟩ c.readSignificant :=
    Parse.peek_eq _
  cases hr : c.readSignificant with
  | ok t d =>
    rw [hr] at hp
    exact Parse.advance_of_peek hp
  | error fault d =>
    rw [hr] at hp
    exact Parse.advance_of_peek_error hp

theorem next_of_no_ahead (c : Cursor) :
    Lexer.next ⟨c, none⟩ = match Cursor.read c with
      | .ok t d => .ok t ⟨d, none⟩
      | .error fault d => .error fault ⟨d, none⟩ := by
  cases hr : Cursor.read c with
  | ok t d => simp only [Lexer.next, hr]
  | error fault d => simp only [Lexer.next, hr]

/-- The parser answers on a text what the lexer answers on the blanked one. -/
theorem answers_blanked (count : Nat) (c : Cursor) (needed : Bool) :
    answers Parse.advance count ⟨⟨c, none⟩, needed⟩ = answers Lexer.next count ⟨c.blanked, none⟩ := by
  induction count generalizing c with
  | zero => rfl
  | succ count ih =>
    unfold answers
    rw [advance_of_no_ahead, next_of_no_ahead, Cursor.read_blanked]
    cases c.readSignificant with
    | ok t d => simp only [ih]
    | error fault d => simp only [ih]

/-- The tokens apart from comments are those of the blanked text. -/
theorem significantFrom_eq_tokensFrom (fuel : Nat) (c : Cursor) (needed : Bool) :
    significantFrom fuel ⟨⟨c, none⟩, needed⟩ = Lexer.tokensFrom fuel c.blanked := by
  induction fuel generalizing c with
  | zero => rfl
  | succ fuel ih =>
    unfold significantFrom Lexer.tokensFrom
    rw [advance_of_no_ahead, Cursor.read_blanked]
    cases c.readSignificant with
    | ok t d =>
      cases t with
      | none => rfl
      | some t => simp only [ih]
    | error fault d => rfl

/-- Taking the significant tokens of a text one after another gives what the lexer gives for the text
with its comments made blank: the same tokens at the same places, the same end and the same faults. -/
theorem significant_eq_tokenize_blanked (text file : String) :
    (∀ count, answers Parse.advance count (ofText text file) =
      answers Lexer.next count (Lexer.ofText (blanked text) file)) ∧
    (ofText text file).significant = Lexer.tokenize (blanked text) file := by
  have hcursor : Cursor.ofText (blanked text) file = (Cursor.ofText text file).blanked := by
    simp [Cursor.ofText, Cursor.blanked, blanked]
  constructor
  · intro count
    have hl : Lexer.ofText (blanked text) file = ⟨(Cursor.ofText text file).blanked, none⟩ := by
      rw [Lexer.ofText, hcursor]
    rw [hl]
    exact answers_blanked count (Cursor.ofText text file) true
  · have hsize : (Cursor.ofText (blanked text) file).rest.length = (ofText text file).size := by
      rw [hcursor]
      exact length_blankedFrom _ _
    rw [significant, Lexer.tokenize, hsize, hcursor]
    exact significantFrom_eq_tokensFrom _ (Cursor.ofText text file) true

example : blanked "a-//=+ \"x\n\"//\" +// y" = "a-       \n\"//\" +// y" := by decide

end Parser
end ScriptLang
