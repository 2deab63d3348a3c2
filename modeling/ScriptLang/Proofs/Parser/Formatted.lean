import ScriptLang.Proofs.Parser.RoundTrip
import ScriptLang.Proofs.Parser.WellFormed
import ScriptLang.Tree.Listing

/-! Formatted expressions are source text. What stands between their lexemes keeps these apart, and as
every operation has parentheses of its own, the grammar finds the tree again that was formatted. -/
namespace ScriptLang

def Node.isSource : Node → Bool
  | literal _ (.integer _) | literal _ (.boolean _) | binary .. | reference .. | declaration ..
  | call .. | member .. | memberCall .. => true
  | _ => false

def Node.Restorable (e : Node) : Prop :=
  e.Every fun n => n.Formed ∧ n.isSource = true

theorem Node.restorable_binary {left right : Node} (line : Nat) (o : Operator)
    (hl : left.Restorable) (hr : right.Restorable) :
    (Node.binary line o.spelling (some left) (some right)).Restorable :=
  every_of_parts ⟨⟨⟨o, rfl⟩, rfl, rfl⟩, rfl⟩
    (List.forall_mem_cons.mpr ⟨hl, List.forall_mem_singleton.mpr hr⟩)

def SplitsAs (cs : List Char) (ls : List Lexeme) (rest : List Char) : Prop :=
  ∃ pieces, Splits cs pieces rest ∧ pieces.map Piece.lexeme = ls

section
variable {cs rest : List Char} {ls : List Lexeme} {l : Lexeme}

theorem splitsAs_nil (rest : List Char) : SplitsAs rest [] rest :=
  ⟨[], .nil rest, rfl⟩

/-- A lexeme may stand right before what does not go on with it. -/
theorem SplitsAs.source (h : SplitsAs cs ls rest) (hl : l.Plain) (he : Ends l.goesOn cs) :
    SplitsAs (l.source.toList ++ cs) (l :: ls) rest := by
  obtain ⟨pieces, hs, rfl⟩ := h
  exact ⟨_, .cons allSpace_nil (longest_source hl he) hs, rfl⟩

theorem SplitsAs.behindSpace (h : SplitsAs cs ls rest) (hne : ls ≠ []) :
    SplitsAs (' ' :: cs) ls rest := by
  obtain ⟨pieces, hs, rfl⟩ := h
  cases hs with
  | nil => exact absurd rfl hne
  | @cons space written cs _ lexeme pieces hsp hl hrest =>
    have hsp' : AllSpace (' ' :: space) := List.forall_mem_cons.mpr ⟨by decide, hsp⟩
    exact ⟨_, .cons hsp' hl hrest, rfl⟩

theorem ends_cons {p : Char → Bool} {c : Char} (h : p c = false) (cs : List Char) :
    Ends p (c :: cs) := by
  intro x hx
  cases hx
  exact h

end

namespace Spelling
open Parse

/-- The text goes on with a character that no expression goes on with. -/
def Delimited (cs : List Char) : Prop :=
  ∃ c rest, cs = c :: rest ∧ c ∈ [' ', ')', ',', ';']

variable {cs rest : List Char} {ls ms : List Lexeme}

theorem Delimited.ends {p : Char → Bool} (h : Delimited cs)
    (hp : [' ', ')', ',', ';'].any p = false) : Ends p cs := by
  obtain ⟨c, rest, rfl, hc⟩ := h
  have hn := List.any_eq_false.mp hp c hc
  exact ends_cons (by simpa using hn) rest

theorem splitsAs_mark {c : Char} (hc : isPunctuation c = true) (h : SplitsAs cs ls rest) :
    SplitsAs (c :: cs) (mark c :: ls) rest := by
  have hs := h.source (.punctuation hc) (fun _ _ => rfl)
  simpa [Lexeme.source, Lexeme.shown, Lexeme.value, Value.bare, Value.display] using hs

/-- A name in front is one lexeme, unless the name goes on. -/
theorem splitsAs_name {x : String} (hx : IsName x) (he : Ends isNameChar cs)
    (h : SplitsAs cs ls rest) : SplitsAs (x.toList ++ cs) (word x :: ls) rest :=
  h.source (.identifier hx) he

/-- An operator in front is one lexeme, unless the run of characters goes on. -/
theorem splitsAs_operator (o : Operator) (he : Ends isOperatorChar cs) (h : SplitsAs cs ls rest) :
    SplitsAs (o.spelling.toList ++ cs) (.operator o.spelling :: ls) rest :=
  h.source (legible_operator o).1 he

theorem isName_let : IsName "let" := ⟨_, _, rfl, by decide, by decide⟩

/-- The lexemes `ls` are what the tree `e` is formatted as, and they are read as `e`. -/
structure ReadBack (e : Node) (ls : List Lexeme) : Prop where
  starts : Starts ls
  uncommented : ∀ l ∈ ls, l.isComment = false
  splits : ∀ {cs rest : List Char} {ms : List Lexeme}, Delimited cs → SplitsAs cs ms rest →
    SplitsAs (e.formatted.toList ++ cs) (ls ++ ms) rest
  operandAs : ∀ {k : Nat}, e.height ≤ k + 1 → OperandAs (primary k) e ls

structure ReadBackList (es : List Node) (ls : List Lexeme) : Prop where
  uncommented : ∀ l ∈ ls, l.isComment = false
  splits : ∀ {cs rest : List Char} {ms : List Lexeme}, SplitsAs cs ms rest →
    SplitsAs ((", ".intercalate (Node.formattedList es)).toList ++ ')' :: cs)
      (ls ++ mark ')' :: ms) rest
  readsList : ∀ {k : Nat}, Node.heightList es ≤ k → ReadsList (primary k) es ls

variable {e left right : Node} {es : List Node} {x attr : String} (line : Nat)

/-- A form that is read back is parsed from its lexemes, given room for its height. -/
theorem ReadBack.readsAs {k : Nat} (h : ReadBack e ls) (hk : e.height ≤ k) :
    ReadsAs (primary k) e ls := by
  cases k with
  | zero =>
    have hpos := height_pos e
    omega
  | succ k => exact readsAs_operand (h.operandAs hk)

theorem readBack_integer {n : Nat} (hn : Range.contains n = true) :
    ReadBack (.literal line (.integer n)) [.integer n] where
  starts := ⟨_, _, rfl, by simp⟩
  uncommented := by simp [Lexeme.isComment]
  splits {cs _ _} hd h := by
    have hends : Ends (Lexeme.integer n).goesOn cs := hd.ends (p := isNumeralChar) (by decide)
    have hsource : (Lexeme.integer n).source = n.repr := rfl
    have hnumber := h.source (.integer hn) hends
    rw [hsource] at hnumber
    simpa [Node.formatted, Literal.formatted] using hnumber
  operandAs _ := operandAs_literal line (Or.inr ⟨n, rfl, rfl⟩)

theorem readBack_boolean (v : Bool) :
    ReadBack (.literal line (.boolean v)) [word (if v then "true" else "false")] where
  starts := ⟨_, _, rfl, by simp⟩
  uncommented := by simp [Lexeme.isComment]
  splits hd h := by
    have hname : IsName (if v then "true" else "false") := by
      cases v <;> exact ⟨_, _, rfl, by decide, by decide⟩
    have hword := splitsAs_name hname (hd.ends (by decide)) h
    simpa [Node.formatted, Literal.formatted] using hword
  operandAs _ := operandAs_boolean line v

theorem readBack_reference (hx : IsFreeName x) : ReadBack (.reference line x) [word x] where
  starts := ⟨_, _, rfl, by simp⟩
  uncommented := by simp [Lexeme.isComment]
  splits hd h := splitsAs_name hx.1 (hd.ends (by decide)) h
  operandAs _ := operandAs_reference hx.2 line

theorem readBack_declaration (hx : IsName x) :
    ReadBack (.declaration line x) [word "let", word x] where
  starts := ⟨_, _, rfl, by simp⟩
  uncommented := by simp [Lexeme.isComment]
  splits {cs _ _} hd h := by
    have hname := (splitsAs_name hx (hd.ends (by decide)) h).behindSpace (by simp)
    have hlet := splitsAs_name isName_let (ends_cons (by decide) _) hname
    have htext : (Node.declaration line x).formatted.toList ++ cs =
        "let".toList ++ ' ' :: (x.toList ++ cs) := by simp [Node.formatted]
    rw [htext]
    exact hlet
  operandAs _ := operandAs_declaration line

theorem readBack_member (hx : IsFreeName x) (hattr : IsName attr) :
    ReadBack (.member line x attr) [word x, mark '.', word attr] where
  starts := ⟨_, _, rfl, by simp⟩
  uncommented := by simp [Lexeme.isComment]
  splits {cs _ _} hd h := by
    have hname := splitsAs_name hattr (hd.ends (by decide)) h
    have hpoint := splitsAs_mark (c := '.') (by decide) hname
    have htext : (Node.member line x attr).formatted.toList ++ cs =
        x.toList ++ '.' :: (attr.toList ++ cs) := by simp [Node.formatted]
    rw [htext]
    exact splitsAs_name hx.1 (ends_cons (by decide) _) hpoint
  operandAs _ := operandAs_member hx.2 line

/-- An operation, with the parentheses it is formatted with. -/
theorem readBack_binary (o : Operator) (hl : ReadBack left ls) (hr : ReadBack right ms) :
    ReadBack (.binary line o.spelling (some left) (some right))
      (mark '(' :: (ls ++ .operator o.spelling :: ms ++ [mark ')'])) where
  starts := ⟨_, _, rfl, by simp⟩
  uncommented := by
    have hop := (legible_operator o).2
    simpa [or_imp, forall_and, Lexeme.isComment] using ⟨hl.uncommented, hop, hr.uncommented⟩
  splits {cs _ _} _ h := by
    -- The text is put together from its end, so each part knows what follows it.
    have hclose := splitsAs_mark (c := ')') (by decide) h
    have hright := (hr.splits ⟨')', cs, rfl, by simp⟩ hclose).behindSpace (by simp)
    have hop := (splitsAs_operator o (ends_cons (by decide) _) hright).behindSpace (by simp)
    have hleft := hl.splits ⟨' ', _, rfl, by simp⟩ hop
    have hopen := splitsAs_mark (c := '(') (by decide) hleft
    have htext : (Node.binary line o.spelling (some left) (some right)).formatted.toList ++ cs =
        '(' :: (left.formatted.toList ++ ' ' :: (o.spelling.toList ++
          ' ' :: (right.formatted.toList ++ ')' :: cs))) := by
      simp [Node.formatted, Node.formattedOption]
    rw [htext]
    simpa using hopen
  operandAs {k} hk := by
    have hmax : max left.height right.height ≤ k := Nat.le_of_succ_le_succ hk
    cases k with
    | zero =>
      have hpos := height_pos left
      omega
    | succ k =>
      have hleft := hl.operandAs (Nat.le_trans (Nat.le_max_left _ _) hmax)
      have hright := hr.operandAs (Nat.le_trans (Nat.le_max_right _ _) hmax)
      exact operandAs_nested (readsAs_binary line o hleft hright)

theorem readBackList_nil : ReadBackList [] [] where
  uncommented := by simp
  splits h := splitsAs_mark (by decide) h
  readsList _ := readsList_nil _

theorem readBackList_last (h : ReadBack e ls) : ReadBackList [e] ls where
  uncommented := h.uncommented
  splits {cs _ _} hs := by
    have hclose := splitsAs_mark (c := ')') (by decide) hs
    simpa [Node.formattedList] using h.splits ⟨')', cs, rfl, by simp⟩ hclose
  readsList hk := readsList_last (h.readsAs (Nat.le_trans (Nat.le_max_left _ _) hk)) h.starts

theorem readBackList_cons {e' : Node} (h : ReadBack e ls) (hs : ReadBackList (e' :: es) ms) :
    ReadBackList (e :: e' :: es) (ls ++ mark ',' :: ms) where
  uncommented := by
    simpa [or_imp, forall_and, Lexeme.isComment] using ⟨h.uncommented, hs.uncommented⟩
  splits {cs _ _} hcs := by
    have hrest := (hs.splits hcs).behindSpace (by simp)
    have hcomma := splitsAs_mark (c := ',') (by decide) hrest
    have hall := h.splits ⟨',', _, rfl, by simp⟩ hcomma
    simpa [Node.formattedList] using hall
  readsList hk := by
    have hfirst := h.readsAs (Nat.le_trans (Nat.le_max_left _ _) hk)
    have hmore := hs.readsList (Nat.le_trans (Nat.le_max_right _ _) hk)
    exact readsList_cons hfirst h.starts hmore

theorem ReadBackList.splitsArguments (h : ReadBackList es ls) (hs : SplitsAs cs ms rest) :
    SplitsAs ('(' :: ((", ".intercalate (Node.formattedList es)).toList ++ ')' :: cs))
      (mark '(' :: (ls ++ mark ')' :: ms)) rest :=
  splitsAs_mark (by decide) (h.splits hs)

/-- A list that is read back is parsed as arguments between parentheses. -/
theorem ReadBackList.argumentsAs {k : Nat} (h : ReadBackList es ls) (hk : Node.heightList es ≤ k) :
    ArgumentsAs (primary k) es (mark '(' :: (ls ++ [mark ')'])) :=
  ⟨ls, rfl, h.readsList hk⟩

/-- A call is read back with its arguments. -/
theorem readBack_call (hx : IsFreeName x) (hes : ReadBackList es ls) :
    ReadBack (.call line x es) (word x :: mark '(' :: (ls ++ [mark ')'])) where
  starts := ⟨_, _, rfl, by simp⟩
  uncommented := by
    simpa [or_imp, forall_and, Lexeme.isComment] using hes.uncommented
  splits {cs _ _} _ h := by
    have hname := splitsAs_name hx.1 (ends_cons (by decide) _) (hes.splitsArguments h)
    have htext : (Node.call line x es).formatted.toList ++ cs = x.toList ++
        '(' :: ((", ".intercalate (Node.formattedList es)).toList ++ ')' :: cs) := by
      simp [Node.formatted]
    rw [htext]
    simpa using hname
  operandAs hk := operandAs_call hx.2 line (hes.argumentsAs (Nat.le_of_succ_le_succ hk))

theorem readBack_memberCall (hx : IsFreeName x) (hattr : IsName attr) (hes : ReadBackList es ls) :
    ReadBack (.memberCall line x attr es)
      (word x :: mark '.' :: word attr :: mark '(' :: (ls ++ [mark ')'])) where
  starts := ⟨_, _, rfl, by simp⟩
  uncommented := by
    simpa [or_imp, forall_and, Lexeme.isComment] using hes.uncommented
  splits {cs _ _} _ h := by
    have hname := splitsAs_name hattr (ends_cons (by decide) _) (hes.splitsArguments h)
    have hpoint := splitsAs_mark (c := '.') (by decide) hname
    have hreceiver := splitsAs_name hx.1 (ends_cons (by decide) _) hpoint
    have htext : (Node.memberCall line x attr es).formatted.toList ++ cs =
        x.toList ++ '.' :: (attr.toList ++
          '(' :: ((", ".intercalate (Node.formattedList es)).toList ++ ')' :: cs)) := by
      simp [Node.formatted]
    rw [htext]
    simpa using hreceiver
  operandAs hk := operandAs_memberCall hx.2 line (hes.argumentsAs (Nat.le_of_succ_le_succ hk))

-- The induction is on the tree, one form at a time; only what is no source is left out.
mutual

/-- Every tree that can be restored is read back, by induction over it. -/
theorem exists_readBack (e : Node) (h : e.Restorable) : ∃ ls, ReadBack e ls := by
  obtain ⟨hformed, hsource⟩ := h e (.itself e)
  cases e with
  | literal line value =>
    cases value with
    | integer n => exact ⟨_, readBack_integer line hformed⟩
    | boolean v => exact ⟨_, readBack_boolean line v⟩
    | text _ | float _ => cases hsource
  | reference line x => exact ⟨_, readBack_reference line hformed⟩
  | declaration line x => exact ⟨_, readBack_declaration line hformed⟩
  | member line x attr => exact ⟨_, readBack_member line hformed.1 hformed.2⟩
  | call line x es =>
    obtain ⟨ls, hes⟩ := exists_readBackList es fun e he => h.of_mem_parts he
    exact ⟨_, readBack_call line hformed hes⟩
  | memberCall line x attr es =>
    obtain ⟨ls, hes⟩ := exists_readBackList es fun e he => h.of_mem_parts he
    exact ⟨_, readBack_memberCall line hformed.1 hformed.2 hes⟩
  | binary line operator left right =>
    obtain ⟨⟨o, rfl⟩, hl, hr⟩ := hformed
    match left, right, hl, hr with
    | some left, some right, _, _ =>
      obtain ⟨ls, hleft⟩ := exists_readBack left (h.of_mem_parts (by simp [Node.parts]))
      obtain ⟨ms, hright⟩ := exists_readBack right (h.of_mem_parts (by simp [Node.parts]))
      exact ⟨_, readBack_binary line o hleft hright⟩
  | function | conditional | loop | returning | breaking | continuing | struct => cases hsource

theorem exists_readBackList : ∀ es : List Node, (∀ e ∈ es, e.Restorable) → ∃ ls, ReadBackList es ls
  | [], _ => ⟨_, readBackList_nil⟩
  | [e], h => by
    obtain ⟨ls, he⟩ := exists_readBack e (h e (by simp))
    exact ⟨_, readBackList_last he⟩
  | e :: e' :: es, h => by
    obtain ⟨ls, he⟩ := exists_readBack e (h e (by simp))
    obtain ⟨ms, hes⟩ := exists_readBackList (e' :: es) (List.forall_mem_cons.mp h).2
    exact ⟨_, readBackList_cons he hes⟩

end

/-- A formatted expression with a semicolon behind it is parsed to that expression up to lines, where
there is room for trees of its height. -/
theorem parse_formatted {e : Node} {nesting : Nat} (h : e.Restorable) (hh : e.height ≤ nesting)
    (file : String) : ∃ nodes, Parser.parse nesting (e.formatted ++ ";") file = .ok nodes ∧
      Node.sameList nodes [e] = true := by
  obtain ⟨k, rfl⟩ : ∃ k, nesting = k + 1 := by
    have hpos := height_pos e
    exact ⟨nesting - 1, by omega⟩
  obtain ⟨ls, hread⟩ := exists_readBack e h
  have hsplits : SplitsAs (e.formatted ++ ";").toList (ls ++ [mark ';']) [] := by
    rw [String.toList_append]
    exact hread.splits ⟨';', [], rfl, by simp⟩ (splitsAs_mark (by decide) (splitsAs_nil []))
  obtain ⟨pieces, hp, hl⟩ := hsplits
  have hc : ∀ l ∈ ls ++ [mark ';'], l.isComment = false :=
    List.forall_mem_append.mpr ⟨hread.uncommented, by simp [Lexeme.isComment]⟩
  have hfaces := Parser.faces_of_isSplit ⟨hp, allSpace_nil⟩ hl hc file
  have hsize := hfaces.length_le
  rw [List.length_append, List.length_singleton] at hsize
  obtain ⟨fuel, hfuel⟩ : ∃ fuel, (Parser.ofText (e.formatted ++ ";") file).size + 1 = fuel + 2 :=
    ⟨(Parser.ofText (e.formatted ++ ";") file).size - 1, by omega⟩
  have hstatement : StatementAs (primary (k + 1)) e (ls ++ [mark ';']) :=
    statementAs_expression (hread.readsAs hh)
  rw [← List.append_nil (ls ++ [mark ';'])] at hfaces
  apply parse_of_gives
  rw [hfuel]
  exact gives_statements_cons hstatement fresh_nil hfaces fun h₁ => gives_statements_nil h₁ fuel

/-- A declaration in operand position, calls with and without arguments, and the name `else`. -/
theorem parse_formatted_of_assignment :
    ∃ nodes, Parser.parse 4 "(let x = (else.at(true, f()) - 7));" "f" = .ok nodes ∧
      Node.sameList nodes
        [.binary 0 "=" (some (.declaration 0 "x")) (some (.binary 0 "-"
          (some (.memberCall 0 "else" "at" [.literal 0 (.boolean true), .call 0 "f" []]))
          (some (.literal 0 (.integer 7)))))] = true := by
  have hx : (Node.declaration 0 "x").Restorable :=
    Node.every_of_parts ⟨⟨_, _, rfl, by decide, by decide⟩, rfl⟩ (List.forall_mem_nil _)
  have hseven : (Node.literal 0 (.integer 7)).Restorable :=
    Node.every_of_parts ⟨rfl, rfl⟩ (List.forall_mem_nil _)
  have htrue : (Node.literal 0 (.boolean true)).Restorable :=
    Node.every_of_parts ⟨trivial, rfl⟩ (List.forall_mem_nil _)
  have hf : IsFreeName "f" := ⟨⟨_, _, rfl, by decide, by decide⟩, by decide⟩
  have hcall : (Node.call 0 "f" []).Restorable :=
    Node.every_of_parts ⟨hf, rfl⟩ (List.forall_mem_nil _)
  have hname : IsFreeName "else" ∧ IsName "at" :=
    ⟨⟨⟨_, _, rfl, by decide, by decide⟩, by decide⟩, _, _, rfl, by decide, by decide⟩
  have hmember : (Node.memberCall 0 "else" "at"
      [.literal 0 (.boolean true), .call 0 "f" []]).Restorable :=
    Node.every_of_parts ⟨hname, rfl⟩
      (List.forall_mem_cons.mpr ⟨htrue, List.forall_mem_singleton.mpr hcall⟩)
  have hdifference := Node.restorable_binary 0 (.arithmetic .sub) hmember hseven
  have hassign := Node.restorable_binary 0 .assign hx hdifference
  obtain ⟨nodes, hp, hs⟩ := parse_formatted hassign (by decide : _ ≤ 4) "f"
  refine ⟨nodes, ?_, hs⟩
  rw [← hp]
  refine congrArg (fun text => Parser.parse 4 text "f") ?_
  cbv

end Spelling
end ScriptLang
