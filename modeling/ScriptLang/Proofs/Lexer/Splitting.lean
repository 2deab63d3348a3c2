import Mathlib
import ScriptLang.Proofs.Lexer.Longest

/-! Texts as tokens. A text that is tokenized falls apart into lexemes and the space around them in
one way only, nothing of it is lost, and every token stands where its lexeme does. -/
namespace ScriptLang

def AllSpace (cs : List Char) : Prop :=
  ∀ x ∈ cs, isSpace x = true

theorem allSpace_nil : AllSpace [] :=
  List.forall_mem_nil _

structure Piece where
  space : List Char
  written : List Char
  lexeme : Lexeme

def Piece.chars (p : Piece) : List Char :=
  p.space ++ p.written

/-- The text `cs` begins with the pieces, each of which has the longest lexeme that stands there, and
goes on with `rest`. -/
inductive Splits : List Char → List Piece → List Char → Prop
  | nil (rest : List Char) : Splits rest [] rest
  | cons {space written cs rest : List Char} {lexeme : Lexeme} {pieces : List Piece} :
    AllSpace space → Longest lexeme written cs → Splits cs pieces rest →
    Splits (space ++ (written ++ cs)) (⟨space, written, lexeme⟩ :: pieces) rest

def IsSplit (cs : List Char) (pieces : List Piece) (last : List Char) : Prop :=
  Splits cs pieces last ∧ AllSpace last

/-- The position behind a text: one line more than it has line feeds, and as many columns as characters
stand behind the last of them. -/
def Position.behind (before : List Char) : Position :=
  ⟨1 + before.count '\n', (before.reverse.takeWhile (· != '\n')).length⟩

def tokensBehind : List Char → List Piece → List Token
  | _, [] => []
  | before, p :: ps => ⟨p.lexeme, .behind (before ++ p.space)⟩ :: tokensBehind (before ++ p.chars) ps

theorem Position.start_after (before : List Char) : start.after before = behind before := by
  -- A text grows at its end here, which is the front of the reversed text.
  have h (back : List Char) : start.after back.reverse = behind back.reverse := by
    induction back with
    | nil => rfl
    | cons c back ih =>
      rw [List.reverse_cons, after_append, ih]
      by_cases hc : c = '\n'
      · simp [behind, step, hc, Nat.add_assoc]
      · simp [behind, step, hc]
  have hb := h before.reverse
  rwa [List.reverse_reverse] at hb

theorem Position.behind_after (before cs : List Char) :
    (behind before).after cs = behind (before ++ cs) := by
  rw [← start_after, ← start_after, after_append]

theorem map_lexeme_tokensBehind (before : List Char) (pieces : List Piece) :
    (tokensBehind before pieces).map Token.lexeme = pieces.map Piece.lexeme := by
  induction pieces generalizing before with
  | nil => rfl
  | cons p ps ih => simp [tokensBehind, ih]

/-- The text of pieces is the pieces one after another. -/
theorem Splits.eq_append {cs rest : List Char} {pieces : List Piece} (h : Splits cs pieces rest) :
    cs = pieces.flatMap Piece.chars ++ rest := by
  induction h with
  | nil rest => rfl
  | cons _ _ _ ih => simp [Piece.chars, ← ih]

/-- Pieces stay pieces when only a part of the text behind them is kept. -/
theorem Splits.of_append {cs rest ext : List Char} {pieces : List Piece}
    (h : Splits cs pieces (rest ++ ext)) :
    Splits (pieces.flatMap Piece.chars ++ rest) pieces rest := by
  generalize hr : rest ++ ext = behind at h
  induction h with
  | nil => exact .nil rest
  | @cons space written cs _ lexeme pieces hs hl hrest ih =>
    have hcs : cs = (pieces.flatMap Piece.chars ++ rest) ++ ext := by
      rw [List.append_assoc, hr]
      exact hrest.eq_append
    rw [hcs] at hl
    have hc := Splits.cons hs hl.of_append (ih hr)
    simpa [Piece.chars] using hc

/-- Space goes up to the first character that is none. -/
theorem allSpace_append_inj {as bs cs ds : List Char} {x y : Char} (ha : AllSpace as)
    (hb : AllSpace bs) (hx : isSpace x = false) (hy : isSpace y = false)
    (h : as ++ x :: cs = bs ++ y :: ds) : as = bs ∧ x :: cs = y :: ds := by
  have hspan {sp : List Char} {z : Char} (zs : List Char) (hsp : AllSpace sp)
      (hz : isSpace z = false) :
      (sp ++ z :: zs).takeWhile isSpace = sp ∧ (sp ++ z :: zs).dropWhile isSpace = z :: zs := by
    apply span_of_ends hsp
    intro w hw
    cases hw
    exact hz
  obtain ⟨hat, had⟩ := hspan cs ha hx
  obtain ⟨hbt, hbd⟩ := hspan ds hb hy
  rw [h] at hat had
  exact ⟨hat.symm.trans hbt, had.symm.trans hbd⟩

/-- A text with a lexeme in it is not made of space. -/
theorem not_allSpace_of_longest {space written rest : List Char} {l : Lexeme}
    (h : Longest l written rest) : ¬AllSpace (space ++ (written ++ rest)) := by
  intro hall
  obtain ⟨c, tail, rfl, hc, -⟩ := scan_of_longest h
  have hs := hall c (by simp)
  rw [hc] at hs
  cases hs

/-- A text is split in one way only. -/
theorem IsSplit.unique {cs last last' : List Char} {pieces pieces' : List Piece}
    (h : IsSplit cs pieces last) (h' : IsSplit cs pieces' last') :
    pieces = pieces' ∧ last = last' := by
  obtain ⟨hs, hlast⟩ := h
  obtain ⟨hs', hlast'⟩ := h'
  induction hs generalizing pieces' with
  | nil rest =>
    cases hs' with
    | nil => exact ⟨rfl, rfl⟩
    | cons _ hl _ => exact absurd hlast (not_allSpace_of_longest hl)
  | @cons space written cs rest lexeme pieces hsp hl _ ih =>
    generalize htext : space ++ (written ++ cs) = text at hs'
    cases hs' with
    | nil =>
      rw [← htext] at hlast'
      exact absurd hlast' (not_allSpace_of_longest hl)
    | @cons space' written' cs' _ lexeme' pieces' hsp' hl' hrest' =>
      obtain ⟨c, tail, rfl, hc, -⟩ := scan_of_longest hl
      obtain ⟨c', tail', rfl, hc', -⟩ := scan_of_longest hl'
      obtain ⟨rfl, hw⟩ := allSpace_append_inj hsp hsp' hc hc' htext
      obtain ⟨rfl, hwritten, rfl⟩ := hl.unique hl' hw
      obtain ⟨rfl, rfl⟩ := ih hlast hrest'
      rw [hwritten]
      exact ⟨rfl, rfl⟩

def ScanFailure.fault (pos : Position) (file : String) : ScanFailure → Fault
  | .unreadable c => .atPosition (.unreadable c) pos file
  | .numeralTooLong => .numeralTooLong
  | .integerTooLarge => .atPosition .integerTooLarge pos file

/-- The one character that cannot be read is the first. -/
theorem scan_unreadable {c x : Char} {cs : List Char} (hc : isSpace c = false)
    (h : (scan c cs).result = .error (.unreadable x)) : x = c ∧ isUnreadable c = true := by
  rcases scan_error_cases hc h with ⟨hu, hx⟩ | ⟨tail, rest, -, -, -, hi, -⟩
  · cases hx
    exact ⟨rfl, hu⟩
  · unfold integerLexeme at hi
    split at hi
    · cases hi
    · simp only at hi
      split at hi <;> cases hi

/-- A text is space, or there is a first character that is none. -/
theorem allSpace_or_first (cs : List Char) :
    AllSpace cs ∨ ∃ space x xs, AllSpace space ∧ isSpace x = false ∧ cs = space ++ x :: xs := by
  induction cs with
  | nil =>
    left
    intro x hx
    cases hx
  | cons c cs ih =>
    cases hc : isSpace c with
    | false =>
      refine Or.inr ⟨[], c, cs, ?_, hc, rfl⟩
      intro x hx
      cases hx
    | true =>
      rcases ih with ih | ⟨space, x, xs, hs, hx, rfl⟩
      · exact Or.inl (List.forall_mem_cons.mpr ⟨hc, ih⟩)
      · exact Or.inr ⟨c :: space, x, xs, List.forall_mem_cons.mpr ⟨hc, hs⟩, hx, rfl⟩

namespace Cursor
variable {space : List Char} (pos : Position) (file : String)

/-- White space in front is skipped, and the place moves over it. -/
theorem skipWhile_allSpace (rest : List Char) (h : AllSpace space) :
    (Cursor.mk (space ++ rest) pos file).skipWhile isSpace =
      (Cursor.mk rest (pos.after space) file).skipWhile isSpace := by
  simp [skipWhile, move, List.takeWhile_append_of_pos h, List.dropWhile_append_of_pos h]

/-- Space in front makes no difference but for the position. -/
theorem read_allSpace_append (rest : List Char) (h : AllSpace space) :
    read ⟨space ++ rest, pos, file⟩ = read ⟨rest, pos.after space, file⟩ := by
  unfold read
  simp only [skipWhile_allSpace pos file rest h]

theorem read_allSpace (h : AllSpace space) :
    read ⟨space, pos, file⟩ = .ok none ⟨[], pos.after space, file⟩ := by
  have hr := read_allSpace_append pos file [] h
  rw [List.append_nil] at hr
  rw [hr]
  rfl

/-- Behind space, reading is scanning. -/
theorem read_of_scan {x : Char} (xs : List Char) (h : AllSpace space) (hx : isSpace x = false) :
    read ⟨space ++ x :: xs, pos, file⟩ =
      let after : Cursor :=
        ⟨(scan x xs).rest, (pos.after space).after (scan x xs).taken, file⟩
      match (scan x xs).result with
      | .ok l => .ok (some ⟨l, pos.after space⟩) after
      | .error failure => .error (failure.fault after.pos file) after := by
  have hs : (Cursor.mk (x :: xs) (pos.after space) file).skipWhile isSpace =
      ⟨x :: xs, pos.after space, file⟩ := by
    simp [skipWhile, move, hx]
  rw [read_allSpace_append pos file (x :: xs) h]
  unfold read
  simp only [hs]
  cases (scan x xs).result with
  | ok l => rfl
  | error failure => cases failure <;> rfl

/-- Behind white space the longest lexeme is read. -/
theorem read_of_longest {written rest : List Char} {l : Lexeme} (h : AllSpace space)
    (hl : Longest l written rest) :
    read ⟨space ++ (written ++ rest), pos, file⟩ =
      .ok (some ⟨l, pos.after space⟩) ⟨rest, (pos.after space).after written, file⟩ := by
  obtain ⟨c, tail, rfl, hc, hs⟩ := scan_of_longest hl
  rw [List.cons_append, read_of_scan pos file (tail ++ rest) h hc]
  simp only [hs]

/-- What reading can come to: the end, the longest lexeme behind some space, or a scan that fails. -/
theorem read_split (cs : List Char) :
    (AllSpace cs ∧ read ⟨cs, pos, file⟩ = .ok none ⟨[], pos.after cs, file⟩) ∨
    (∃ space written rest l, AllSpace space ∧ Longest l written rest ∧
      cs = space ++ (written ++ rest) ∧ read ⟨cs, pos, file⟩ =
        .ok (some ⟨l, pos.after space⟩) ⟨rest, (pos.after space).after written, file⟩) ∨
    ∃ space x xs failure, AllSpace space ∧ isSpace x = false ∧ cs = space ++ x :: xs ∧
      (scan x xs).result = .error failure ∧
      let after : Cursor := ⟨(scan x xs).rest, (pos.after space).after (scan x xs).taken, file⟩
      read ⟨cs, pos, file⟩ = .error (failure.fault after.pos file) after := by
  rcases allSpace_or_first cs with hall | ⟨space, x, xs, hs, hx, rfl⟩
  · exact Or.inl ⟨hall, read_allSpace pos file hall⟩
  · right
    have hread := read_of_scan pos file xs hs hx
    cases hr : (scan x xs).result with
    | ok l =>
      have hl := longest_of_scan hx hr
      have hcs : space ++ x :: xs = space ++ ((scan x xs).taken ++ (scan x xs).rest) := by
        rw [scan_append]
      refine Or.inl ⟨space, _, _, l, hs, hl, hcs, ?_⟩
      rw [hread]
      simp only [hr]
    | error failure =>
      refine Or.inr ⟨space, x, xs, failure, hs, hx, rfl, hr, ?_⟩
      rw [hread]
      simp only [hr]

variable {c d : Cursor}

/-- A token that was read is the longest lexeme behind some space. -/
theorem longest_of_read {t : Token} (h : read c = .ok (some t) d) :
    ∃ space written, AllSpace space ∧ Longest t.lexeme written d.rest ∧
      c.rest = space ++ (written ++ d.rest) ∧ t.pos = c.pos.after space ∧
      d = ⟨d.rest, (c.pos.after space).after written, c.file⟩ := by
  rcases read_split c.pos c.file c.rest with
    ⟨-, hr⟩ | ⟨space, written, rest, l, hsp, hl, hcs, hr⟩ | ⟨space, x, xs, failure, -, -, -, -, hr⟩
  · cases hr.symm.trans h
  · cases hr.symm.trans h
    exact ⟨space, written, hsp, hl, hcs, rfl, rfl⟩
  · cases hr.symm.trans h

/-- No token is read only where nothing but white space is left. -/
theorem allSpace_of_read (h : read c = .ok none d) :
    AllSpace c.rest ∧ d = ⟨[], c.pos.after c.rest, c.file⟩ := by
  rcases read_split c.pos c.file c.rest with
    ⟨hall, hr⟩ | ⟨space, written, rest, l, -, -, -, hr⟩ | ⟨space, x, xs, failure, -, -, -, -, hr⟩
  · cases hr.symm.trans h
    exact ⟨hall, rfl⟩
  · cases hr.symm.trans h
  · cases hr.symm.trans h

/-- A failed reading is a failed scan behind some space. -/
theorem scan_of_read_error {fault : Fault} (h : read c = .error fault d) :
    ∃ space x xs failure, AllSpace space ∧ isSpace x = false ∧ c.rest = space ++ x :: xs ∧
      (scan x xs).result = .error failure ∧
      d = ⟨(scan x xs).rest, (c.pos.after space).after (scan x xs).taken, c.file⟩ ∧
      fault = failure.fault d.pos c.file := by
  rcases read_split c.pos c.file c.rest with
    ⟨-, hr⟩ | ⟨space, written, rest, l, -, -, -, hr⟩ | ⟨space, x, xs, failure, hsp, hx, hcs, hs, hr⟩
  · cases hr.symm.trans h
  · cases hr.symm.trans h
  · cases hr.symm.trans h
    exact ⟨space, x, xs, failure, hsp, hx, hcs, hs, rfl, rfl⟩

end Cursor

namespace Lexer
variable {fuel : Nat} {file : String} {cs before : List Char}

theorem tokensFrom_of_read_none {d : Cursor} {c : Cursor} (h : Cursor.read c = .ok none d) :
    tokensFrom (fuel + 1) c = .ok [] := by
  unfold tokensFrom
  simp only [h]

theorem tokensFrom_of_read_some {c d : Cursor} {t : Token} (h : Cursor.read c = .ok (some t) d) :
    tokensFrom (fuel + 1) c = (t :: ·) <$> tokensFrom fuel d := by
  conv => lhs; unfold tokensFrom
  simp only [h]

theorem tokensFrom_of_read_error {c d : Cursor} {fault : Fault} (h : Cursor.read c = .error fault d) :
    tokensFrom (fuel + 1) c = .error fault := by
  unfold tokensFrom
  simp only [h]

/-- Any split of a text is the one that tokenizing finds. -/
theorem tokensFrom_of_isSplit {pieces : List Piece} {last : List Char} (h : IsSplit cs pieces last)
    (hf : cs.length < fuel) :
    tokensFrom fuel ⟨cs, .behind before, file⟩ = .ok (tokensBehind before pieces) := by
  obtain ⟨hs, hlast⟩ := h
  induction hs generalizing fuel before with
  | nil rest =>
    obtain ⟨fuel, rfl⟩ := Nat.exists_eq_add_one_of_ne_zero (Nat.ne_zero_of_lt hf)
    exact tokensFrom_of_read_none (Cursor.read_allSpace _ file hlast)
  | @cons space written cs rest lexeme pieces hsp hl _ ih =>
    obtain ⟨fuel, rfl⟩ := Nat.exists_eq_add_one_of_ne_zero (Nat.ne_zero_of_lt hf)
    have hread := Cursor.read_of_longest (.behind before) file hsp hl
    have hpos : ((Position.behind before).after space).after written =
        .behind (before ++ (space ++ written)) := by
      rw [← Position.after_append, Position.behind_after]
    have hlen : cs.length < fuel := by
      have hd := Cursor.length_read_lt hread
      simp only at hd
      omega
    rw [tokensFrom_of_read_some hread, hpos, ih hlen hlast, Position.behind_after]
    rfl

/-- Where tokenizing comes to: the end of a split, or the place of a failed scan. -/
theorem tokensFrom_cases (before : List Char) (file : String) (hf : cs.length < fuel) :
    (∃ pieces last, IsSplit cs pieces last ∧
      tokensFrom fuel ⟨cs, .behind before, file⟩ = .ok (tokensBehind before pieces)) ∨
    ∃ pieces space x xs failure, Splits cs pieces (space ++ x :: xs) ∧ AllSpace space ∧
      isSpace x = false ∧ (scan x xs).result = .error failure ∧
      tokensFrom fuel ⟨cs, .behind before, file⟩ = .error (failure.fault
        (.behind (before ++ (pieces.flatMap Piece.chars ++ (space ++ (scan x xs).taken)))) file) := by
  induction fuel generalizing cs before with
  | zero => omega
  | succ fuel ih =>
    rcases Cursor.read_split (.behind before) file cs with
      ⟨hall, -⟩ | ⟨space, written, rest, l, hsp, hl, rfl, hread⟩ |
      ⟨space, x, xs, failure, hsp, hx, rfl, hscan, hread⟩
    · have hs : IsSplit cs [] cs := ⟨.nil cs, hall⟩
      exact Or.inl ⟨[], cs, hs, tokensFrom_of_isSplit hs hf⟩
    · have hlen : rest.length < fuel := by
        have hd := Cursor.length_read_lt hread
        simp only at hd
        omega
      have hpos : ((Position.behind before).after space).after written =
          .behind (before ++ (space ++ written)) := by
        rw [← Position.after_append, Position.behind_after]
      rcases ih _ hlen with ⟨pieces, last, ⟨hs, hlast⟩, -⟩ |
        ⟨pieces, space', x, xs, failure, hs, hsp', hx, hscan, hrest⟩
      · have hs' : IsSplit _ _ last := ⟨.cons hsp hl hs, hlast⟩
        exact Or.inl ⟨_, last, hs', tokensFrom_of_isSplit hs' hf⟩
      · refine Or.inr ⟨⟨space, written, l⟩ :: pieces, space', x, xs, failure, .cons hsp hl hs, hsp', hx,
          hscan, ?_⟩
        rw [tokensFrom_of_read_some hread, hpos, hrest]
        simp [Functor.map, Except.map, Piece.chars]
    · refine Or.inr ⟨[], space, x, xs, failure, .nil _, hsp, hx, hscan, ?_⟩
      rw [tokensFrom_of_read_error hread, ← Position.after_append, Position.behind_after]
      simp

theorem tokenize_eq (text file : String) :
    tokenize text file = tokensFrom (text.toList.length + 1) ⟨text.toList, .behind [], file⟩ :=
  rfl

/-- A text is listed as the pieces of any split that it has. -/
theorem tokenize_of_isSplit {text : String} {pieces : List Piece} {last : List Char}
    (h : IsSplit text.toList pieces last) : tokenize text file = .ok (tokensBehind [] pieces) := by
  rw [tokenize_eq]
  exact tokensFrom_of_isSplit h (Nat.lt_succ_self _)

/-- Only an unreadable character is reported as one. -/
theorem unreadable_of_fault {failure : ScanFailure} {pos : Position} {d : Diagnostic} {c : Char}
    (h : failure.fault pos file = .diagnostic d) (hc : d.cause = .unreadable c) :
    failure = .unreadable c ∧ d = ⟨.unreadable c, some pos.line, some pos.col, some file⟩ := by
  cases failure with
  | unreadable x =>
    cases h
    cases hc
    exact ⟨rfl, rfl⟩
  | numeralTooLong => cases h
  | integerTooLarge =>
    cases h
    cases hc

/-- A text that can be listed has a split, and the tokens listed are its pieces. -/
theorem exists_isSplit_of_tokenize {text : String} {tokens : List Token}
    (h : tokenize text file = .ok tokens) :
    ∃ pieces last, IsSplit text.toList pieces last ∧ tokens = tokensBehind [] pieces := by
  have hf : text.toList.length < text.toList.length + 1 := Nat.lt_succ_self _
  rcases tokensFrom_cases [] file hf with
    ⟨pieces, last, hs, ht⟩ | ⟨pieces, space, x, xs, failure, -, -, -, -, ht⟩
  · rw [tokenize_eq, ht] at h
    exact ⟨pieces, last, hs, (Except.ok.inj h).symm⟩
  · rw [tokenize_eq, ht] at h
    cases h

/-- A text with an unreadable character is split up to that character, which no lexeme takes in. -/
theorem exists_splits_of_unreadable {text : String} {d : Diagnostic} {c : Char}
    (h : tokenize text file = .error (.diagnostic d)) (hc : d.cause = .unreadable c) :
    ∃ pieces space after, Splits text.toList pieces (space ++ c :: after) ∧ AllSpace space ∧
      let pos := Position.behind (pieces.flatMap Piece.chars ++ space)
      d = ⟨.unreadable c, some pos.line, some pos.col, some file⟩ := by
  have hf : text.toList.length < text.toList.length + 1 := Nat.lt_succ_self _
  rcases tokensFrom_cases [] file hf with
    ⟨pieces, last, hs, ht⟩ | ⟨pieces, space, x, xs, failure, hs, hsp, hx, hscan, ht⟩
  · rw [tokenize_eq, ht] at h
    cases h
  · rw [tokenize_eq, ht] at h
    obtain ⟨rfl, hd⟩ := unreadable_of_fault (Except.error.inj h) hc
    obtain ⟨rfl, hu⟩ := scan_unreadable hx hscan
    have htaken : (scan c xs).taken = [] := by rw [scan_of_isUnreadable xs hu]
    rw [htaken, List.append_nil, List.nil_append] at hd
    exact ⟨pieces, space, xs, hs, hsp, hd⟩

/-- Tokenizing a text gives the tokens of its split into longest lexemes and the space around them, and
there is one such split at most. Where it stops at a character that cannot be read, the text before that
character is split in this way, by lexemes that are longest in the whole text. -/
theorem tokenize_splits_text (text file : String) :
    (∀ tokens, tokenize text file = .ok tokens ↔
      ∃ pieces last, IsSplit text.toList pieces last ∧ tokens = tokensBehind [] pieces) ∧
    (∀ pieces last pieces' last', IsSplit text.toList pieces last →
      IsSplit text.toList pieces' last' → pieces = pieces' ∧ last = last') ∧
    ∀ d c, tokenize text file = .error (.diagnostic d) → d.cause = .unreadable c →
      d.bare = s!"Cannot identify: {c}" ∧
      ∃ before after pieces space, text.toList = before ++ c :: after ∧
        d.line = some ((Position.behind before).line : Int) ∧
        d.col = some ((Position.behind before).col : Int) ∧
        Splits text.toList pieces (space ++ c :: after) ∧ IsSplit before pieces space ∧
        tokenize (String.ofList before) file = .ok (tokensBehind [] pieces) := by
  refine ⟨?_, ?_, ?_⟩
  · intro tokens
    constructor
    · exact exists_isSplit_of_tokenize
    · rintro ⟨pieces, last, hs, rfl⟩
      exact tokenize_of_isSplit hs
  · intro pieces last pieces' last' h h'
    exact h.unique h'
  · intro d c h hc
    obtain ⟨pieces, space, after, hs, hsp, rfl⟩ := exists_splits_of_unreadable h hc
    have hb : IsSplit (pieces.flatMap Piece.chars ++ space) pieces space := ⟨hs.of_append, hsp⟩
    have htext : text.toList = (pieces.flatMap Piece.chars ++ space) ++ c :: after := by
      rw [List.append_assoc]
      exact hs.eq_append
    refine ⟨rfl, _, after, pieces, space, htext, rfl, rfl, hs, hb, ?_⟩
    apply tokenize_of_isSplit
    rwa [String.toList_ofList]

/-- The hash between the quotes is part of a text; the one on the third line is reported, and what stands
before it is tokenized. -/
theorem tokenize_splits_text_of_hash :
    ∃ before after pieces space, "s-1=\"#\\\"\n\";\n 07#".toList = before ++ '#' :: after ∧
      Position.behind before = ⟨3, 3⟩ ∧ IsSplit before pieces space ∧
      tokenize (String.ofList before) "a" = .ok (tokensBehind [] pieces) := by
  have h : tokenize "s-1=\"#\\\"\n\";\n 07#" "a" =
      .error (.diagnostic ⟨.unreadable '#', some 3, some 3, some "a"⟩) := by cbv
  obtain ⟨-, before, after, pieces, space, htext, hline, hcol, -, hb, hok⟩ :=
    (tokenize_splits_text "s-1=\"#\\\"\n\";\n 07#" "a").2.2 _ '#' h rfl
  have hpos : Position.behind before = ⟨3, 3⟩ := by
    cases hp : Position.behind before with
    | mk line col =>
      rw [hp] at hline hcol
      simp only [Option.some.injEq] at hline hcol
      have hl : line = 3 := by omega
      have hc : col = 3 := by omega
      rw [hl, hc]
  exact ⟨before, after, pieces, space, htext, hpos, hb, hok⟩

end Lexer
end ScriptLang
