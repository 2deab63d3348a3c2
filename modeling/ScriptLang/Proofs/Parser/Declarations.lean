import ScriptLang.Parser.Grammar

/-! The tokens that declarations come from. A function and a struct have the line of their name, and a
variable that is given a value has the line of the operator that gives it. -/
namespace ScriptLang

/-- The tokens are opening parentheses, the keyword, the name at `pos`, and then `rest`. -/
def Announces (keyword name : String) (pos : Position) (rest ts : List Token) : Prop :=
  ∃ opening keywordPos, (∀ t ∈ opening, t.lexeme = .punctuation '(') ∧
    ts = opening ++ ⟨.identifier keyword, keywordPos⟩ :: ⟨.identifier name, pos⟩ :: rest

def Closing (ts : List Token) : Prop :=
  ∀ t ∈ ts, t.lexeme = .punctuation ')'

/-- Where the line of a node that declares a name is found among the tokens of its expression. Nodes of
other kinds declare nothing. -/
def Node.StemsFrom (ts : List Token) : Node → Prop
  | function line header _ => ∃ pos rest, Announces "let" header.name pos rest ts ∧ line = pos.line
  | struct line name => ∃ pos rest, Announces "struct" name pos rest ts ∧ line = pos.line
  | declaration line name => ∃ pos closing, Closing closing ∧ Announces "let" name pos closing ts ∧
    line = pos.line
  | binary line operator (some (declaration _ name)) _ => ∃ pos closing mark rest, Closing closing ∧
    Announces "let" name pos (closing ++ ⟨.operator operator, mark⟩ :: rest) ts ∧ line = mark.line
  | _ => True

def LedBy (us : List Token) : List Link → Prop
  | [] => us = []
  | link :: _ => ∃ mark rest, us = ⟨.operator link.spelling, mark⟩ :: rest ∧ link.line = mark.line

section
variable {keyword name : String} {pos : Position} {rest ts us : List Token} {node : Node}

theorem Announces.append (h : Announces keyword name pos rest ts) (us : List Token) :
    Announces keyword name pos (rest ++ us) (ts ++ us) := by
  obtain ⟨opening, keywordPos, hopening, rfl⟩ := h
  exact ⟨opening, keywordPos, hopening, by simp⟩

theorem Announces.parenthesized (h : Announces keyword name pos rest ts) (opened closed : Position) :
    Announces keyword name pos (rest ++ [⟨.punctuation ')', closed⟩])
      (⟨.punctuation '(', opened⟩ :: (ts ++ [⟨.punctuation ')', closed⟩])) := by
  obtain ⟨opening, keywordPos, hopening, rfl⟩ := h
  exact ⟨⟨.punctuation '(', opened⟩ :: opening, keywordPos, List.forall_mem_cons.mpr ⟨rfl, hopening⟩,
    by simp⟩

/-- A declaration in parentheses stems from what stands between them. -/
theorem Node.StemsFrom.parenthesized (h : node.StemsFrom ts) (opened closed : Position) :
    node.StemsFrom (⟨.punctuation '(', opened⟩ :: (ts ++ [⟨.punctuation ')', closed⟩])) := by
  unfold StemsFrom at h ⊢
  split at h
  · obtain ⟨pos, rest, hannounces, hline⟩ := h
    exact ⟨pos, _, hannounces.parenthesized opened closed, hline⟩
  · obtain ⟨pos, rest, hannounces, hline⟩ := h
    exact ⟨pos, _, hannounces.parenthesized opened closed, hline⟩
  · obtain ⟨pos, closing, hclosing, hannounces, hline⟩ := h
    refine ⟨pos, _, ?_, hannounces.parenthesized opened closed, hline⟩
    exact List.forall_mem_append.mpr ⟨hclosing, List.forall_mem_singleton.mpr rfl⟩
  · obtain ⟨pos, closing, mark, rest, hclosing, hannounces, hline⟩ := h
    refine ⟨pos, closing, mark, rest ++ [⟨.punctuation ')', closed⟩], hclosing, ?_, hline⟩
    simpa using hannounces.parenthesized opened closed
  · exact trivial

/-- No value is given to an operation, so what has one on its left declares nothing. -/
theorem Node.stemsFrom_extend_operation (ts : List Token) (line : Nat) (operator : String)
    (left right : Option Node) (link : Link) (links : List Link) :
    ((binary line operator left right).extend (link :: links)).StemsFrom ts := by
  induction links generalizing line operator left right link with
  | nil => exact trivial
  | cons next links ih => exact ih link.line link.spelling _ _ next

/-- An operand with operators behind it declares what the operand declares, or what it gives a value to. -/
theorem Node.StemsFrom.extend {links : List Link} (h : node.StemsFrom ts) (hus : LedBy us links) :
    (node.extend links).StemsFrom (ts ++ us) := by
  match links with
  | [] =>
    obtain rfl : us = [] := hus
    rwa [List.append_nil]
  | [link] =>
    obtain ⟨mark, rest, rfl, hmark⟩ := hus
    cases node with
    | declaration line name =>
      -- The line of the declaration itself is given up for that of the operator.
      obtain ⟨pos, closing, hclosing, hannounces, -⟩ := h
      exact ⟨pos, closing, mark, rest, hclosing, hannounces.append _, hmark⟩
    | _ => exact trivial
  | first :: second :: links => exact stemsFrom_extend_operation _ _ _ _ _ second links

end

end ScriptLang
