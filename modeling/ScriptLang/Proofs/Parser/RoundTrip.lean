import ScriptLang.Proofs.Parser.Spelling
import ScriptLang.Proofs.Parser.Success
import ScriptLang.Proofs.Tree.Lines

/-! Parsing undoes printing. Each rule of the grammar is followed over the lexemes of the form it is
for, given that the rule for nested expressions reads what is nested in the form. -/
namespace ScriptLang

def Node.Alike (a b : Node) : Prop :=
  a.mapLines (fun _ => 0) = b.mapLines (fun _ => 0)

def Node.AlikeList (as bs : List Node) : Prop :=
  as.map (Node.mapLines fun _ => 0) = bs.map (Node.mapLines fun _ => 0)

theorem Node.Alike.cons {a b : Node} {as bs : List Node} (h : a.Alike b)
    (hs : Node.AlikeList as bs) : Node.AlikeList (a :: as) (b :: bs) := by
  unfold Node.Alike at h
  unfold Node.AlikeList at hs ⊢
  rw [List.map_cons, List.map_cons, h, hs]

namespace Spelling
open Parse

def Closed (rest : List Lexeme) : Prop :=
  ∃ c ms, rest = mark c :: ms ∧ c ∈ [')', ',', ';']

def Quiet (rest : List Lexeme) : Prop :=
  rest.head? ≠ some (mark '.') ∧ rest.head? ≠ some (mark '(')

def Fresh (rest : List Lexeme) : Prop :=
  ∀ l ∈ rest.head?, l.operator? = none ∧ l ≠ word "else"

def Unreserved (x : String) : Prop :=
  Keyword.ofName? x = none ∨ Keyword.ofName? x = some .elseForm

def Starts (ls : List Lexeme) : Prop :=
  ∃ l rest, ls = l :: rest ∧ ∀ c, l = mark c → c = '('

/-- What is left, and whether a semicolon is needed for it. -/
def Left (rest : List Lexeme) (Q : Bool → Prop) (p : Parser) : Prop :=
  ∃ b, p.Faces rest b ∧ Q b

/-- A semicolon is needed at least if it was needed before. -/
def Keeps (b b' : Bool) : Prop :=
  b = true → b' = true

def Found (e : Node) (Q : Parser → Prop) (a : Option Node) (p : Parser) : Prop :=
  ∃ n, a = some n ∧ n.Alike e ∧ Q p

def ReadsAs (sub : Parse (Option Node)) (e : Node) (ls : List Lexeme) : Prop :=
  ∀ ⦃p : Parser⦄ ⦃rest : List Lexeme⦄ ⦃b : Bool⦄, p.Faces (ls ++ rest) b → Closed rest →
    Gives sub p (Found e (Left rest (Keeps b)))

/-- The rule for operands reads the lexemes `ls` as `e`, whatever operator follows. -/
def OperandAs (sub : Parse (Option Node)) (e : Node) (ls : List Lexeme) : Prop :=
  ∀ ⦃p : Parser⦄ ⦃rest : List Lexeme⦄ ⦃b : Bool⦄, p.Faces (ls ++ rest) b → Quiet rest →
    Gives (operand sub) p (Found e (Left rest (Keeps b)))

def ReadsList (sub : Parse (Option Node)) (es : List Node) (ls : List Lexeme) : Prop :=
  ∀ ⦃p : Parser⦄ ⦃rest : List Lexeme⦄ ⦃b : Bool⦄ ⦃fuel : Nat⦄,
    p.Faces (ls ++ mark ')' :: rest) b → ls.length < fuel →
    Gives (argumentsBefore sub fuel) p fun as p' =>
      Node.AlikeList as es ∧ Left (mark ')' :: rest) (Keeps b) p'

variable {sub : Parse (Option Node)} {e : Node} {es : List Node} {ls ms rest : List Lexeme}
  {p : Parser} {b : Bool}

theorem Closed.quiet (h : Closed rest) : Quiet rest := by
  obtain ⟨c, ms, rfl, hc⟩ := h
  refine ⟨?_, ?_⟩ <;>
  · rintro ⟨⟩
    revert hc
    decide

theorem Closed.fresh (h : Closed rest) : Fresh rest := by
  obtain ⟨c, ms, rfl, -⟩ := h
  intro l hl
  cases hl
  exact ⟨rfl, by simp⟩

theorem Opens.starts (h : Opens ls) : Starts ls := by
  obtain ⟨l, ms, rfl, -, -, hl⟩ := h
  exact ⟨l, ms, rfl, hl⟩

theorem Starts.length_pos (h : Starts ls) : 0 < ls.length := by
  obtain ⟨l, ms, rfl, -⟩ := h
  exact Nat.zero_lt_succ _

/-- Lexemes that start an expression begin with no mark but a parenthesis. -/
theorem Starts.head_ne {c : Char} (h : Starts ls) (hc : c ≠ '(') (rest : List Lexeme) :
    (ls ++ rest).head? ≠ some (mark c) := by
  obtain ⟨l, ms, rfl, hl⟩ := h
  intro hh
  exact hc (hl c (Option.some.inj hh))

theorem readsList_nil (sub : Parse (Option Node)) : ReadsList sub [] [] := by
  intro p rest b fuel h hf
  cases fuel with
  | zero => cases hf
  | succ fuel =>
    refine (gives_atMark h).bind fun r p' hr => ?_
    obtain ⟨rfl, h'⟩ := hr
    exact Gives.pure ⟨rfl, b, h', id⟩

theorem readsList_last (he : ReadsAs sub e ls) (ho : Starts ls) : ReadsList sub [e] ls := by
  intro p rest b fuel h hf
  have hclosed : Closed (mark ')' :: rest) := ⟨')', rest, rfl, by simp⟩
  have hpos := ho.length_pos
  obtain ⟨fuel, rfl⟩ : ∃ n, fuel = n + 2 := ⟨fuel - 2, by omega⟩
  refine (gives_atMark_of_ne h (ho.head_ne (by decide) _)).bind fun r p₁ hr => ?_
  obtain ⟨rfl, h₁⟩ := hr
  refine (he h₁ hclosed).bind fun a p₂ ha => ?_
  obtain ⟨n, rfl, hn, b', h₂, hb⟩ := ha
  refine (gives_atMark h₂).bind fun r p₃ hr => ?_
  obtain ⟨rfl, h₃⟩ := hr
  refine (readsList_nil sub h₃ (Nat.zero_lt_succ fuel)).bind fun as p₄ has => Gives.pure ?_
  obtain ⟨has, b'', h₄, hb'⟩ := has
  exact ⟨hn.cons has, b'', h₄, hb' ∘ hb⟩

theorem readsList_cons (he : ReadsAs sub e ls) (ho : Starts ls) (hes : ReadsList sub es ms) :
    ReadsList sub (e :: es) (ls ++ mark ',' :: ms) := by
  intro p rest b fuel h hf
  have hclosed : Closed (mark ',' :: (ms ++ mark ')' :: rest)) := ⟨',', _, rfl, by simp⟩
  rw [List.length_append, List.length_cons] at hf
  obtain ⟨fuel, rfl⟩ : ∃ n, fuel = n + 1 := ⟨fuel - 1, by omega⟩
  rw [List.append_assoc, List.cons_append] at h
  refine (gives_atMark_of_ne h (ho.head_ne (by decide) _)).bind fun r p₁ hr => ?_
  obtain ⟨rfl, h₁⟩ := hr
  refine (he h₁ hclosed).bind fun a p₂ ha => ?_
  obtain ⟨n, rfl, hn, b', h₂, hb⟩ := ha
  refine (gives_atMark_of_ne h₂ (by simp)).bind fun r p₃ hr => ?_
  obtain ⟨rfl, h₃⟩ := hr
  refine (gives_skip h₃).bind fun _ p₄ h₄ => ?_
  refine (hes h₄ (by omega)).bind fun as p₅ has => Gives.pure ?_
  obtain ⟨has, b'', h₅, hb'⟩ := has
  exact ⟨hn.cons has, b'', h₅, hb' ∘ hb⟩

/-- Arguments in their parentheses; a semicolon is needed behind them. -/
theorem gives_arguments (hes : ReadsList sub es ls) (h : p.Faces (mark '(' :: (ls ++ mark ')' :: rest)) b) :
    Gives (arguments sub) p fun as p' => Node.AlikeList as es ∧ p'.Faces rest true := by
  refine (gives_skip h).bind fun _ p₁ h₁ => ?_
  have hl := h₁.length_le
  rw [List.length_append] at hl
  refine (Gives.bounded (hes h₁ (by omega))).bind fun as p₂ has => ?_
  obtain ⟨has, b', h₂, -⟩ := has
  refine (gives_skip h₂).bind fun _ p₃ h₃ => ?_
  refine (gives_setSemicolon h₃ true).bind fun _ p₄ h₄ => Gives.pure ?_
  exact ⟨has, h₄⟩

/-- A word is taken, and then what it is for decides. -/
theorem gives_operand_word {s : String} {Q : Node → Parser → Prop} (h : p.Faces (word s :: rest) b)
    (hQ : ∀ {p' : Parser} (line : Nat), p'.Faces rest b → Gives (namedForm sub s line) p' Q) :
    Gives (operand sub) p fun a p' => ∃ n, a = some n ∧ Q n p' := by
  refine (gives_peek_cons h).bind fun t p₁ ht => ?_
  obtain ⟨⟨pos, rfl⟩, h₁⟩ := ht
  refine (gives_advance h₁).bind fun u p₂ hu => ?_
  obtain ⟨⟨pos', rfl⟩, h₂⟩ := hu
  exact (hQ pos'.line h₂).map fun n p₃ hn => ⟨n, rfl, hn⟩

theorem operandAs_literal {l : Lexeme} {value : Literal} (line : Nat)
    (hv : (∃ s, l = .text s ∧ value = .text s) ∨ ∃ n, l = .integer n ∧ value = .integer n) :
    OperandAs sub (.literal line value) [l] := by
  intro p rest b h _
  refine (gives_peek_cons h).bind fun t p₁ ht => ?_
  obtain ⟨⟨pos, rfl⟩, h₁⟩ := ht
  have hlit : Gives (literal pos.line value) p₁ (Found (.literal line value) (Left rest (Keeps b))) :=
    (gives_advance h₁).bind fun u p₂ hu => Gives.pure ⟨_, rfl, rfl, b, hu.2, id⟩
  rcases hv with ⟨s, rfl, rfl⟩ | ⟨n, rfl, rfl⟩
  · exact hlit
  · exact hlit

theorem operandAs_boolean (line : Nat) (v : Bool) :
    OperandAs sub (.literal line (.boolean v)) [word (if v then "true" else "false")] := by
  intro p rest b h _
  refine gives_operand_word h fun line' h₁ => ?_
  cases v with
  | true => exact Gives.pure ⟨rfl, b, h₁, id⟩
  | false => exact Gives.pure ⟨rfl, b, h₁, id⟩

theorem operandAs_reference {x : String} (hx : Unreserved x) (line : Nat) :
    OperandAs sub (.reference line x) [word x] := by
  intro p rest b h hq
  refine gives_operand_word h fun line' h₁ => ?_
  rw [namedForm_of_unreserved sub hx]
  refine (gives_atMark_of_ne h₁ hq.1).bind fun r p₂ hr => ?_
  obtain ⟨rfl, h₂⟩ := hr
  refine (gives_atMark_of_ne h₂ hq.2).bind fun r p₃ hr => ?_
  obtain ⟨rfl, h₃⟩ := hr
  exact Gives.pure ⟨rfl, b, h₃, id⟩

def ArgumentsAs (sub : Parse (Option Node)) (es : List Node) (ls : List Lexeme) : Prop :=
  ∃ inner, ls = mark '(' :: (inner ++ [mark ')']) ∧ ReadsList sub es inner

theorem ArgumentsAs.gives (h : ArgumentsAs sub es ls) (hp : p.Faces (ls ++ rest) b) :
    Gives (arguments sub) p fun as p' => Node.AlikeList as es ∧ p'.Faces rest true := by
  obtain ⟨inner, rfl, hes⟩ := h
  refine gives_arguments hes (b := b) ?_
  simpa using hp

theorem ArgumentsAs.atMark (h : ArgumentsAs sub es ls) (hp : p.Faces (ls ++ rest) b) :
    Gives (Parse.atMark '(') p fun r p' => r = true ∧ p'.Faces (ls ++ rest) b := by
  obtain ⟨inner, rfl, -⟩ := h
  exact gives_atMark hp

/-- A name with arguments behind it is read as a call. -/
theorem operandAs_call {f : String} (hf : Unreserved f) (line : Nat) (ha : ArgumentsAs sub es ls) :
    OperandAs sub (.call line f es) (word f :: ls) := by
  intro p rest b h hq
  refine gives_operand_word h fun line' h₁ => ?_
  rw [namedForm_of_unreserved sub hf]
  have hne : (ls ++ rest).head? ≠ some (mark '.') := by
    obtain ⟨inner, rfl, -⟩ := ha
    simp
  refine (gives_atMark_of_ne h₁ hne).bind fun r p₂ hr => ?_
  obtain ⟨rfl, h₂⟩ := hr
  refine (ha.atMark h₂).bind fun r p₃ hr => ?_
  obtain ⟨rfl, h₃⟩ := hr
  refine (ha.gives h₃).bind fun as p₄ has => Gives.pure ?_
  refine ⟨?_, true, has.2, fun _ => rfl⟩
  have hlist : as.map (Node.mapLines fun _ => 0) = es.map (Node.mapLines fun _ => 0) := has.1
  simp [Node.Alike, Node.mapLines, hlist]

/-- What follows the name of a member: its attribute. -/
theorem gives_attribute {x attr : String} (hx : Unreserved x) {Q : Node → Parser → Prop} {line : Nat}
    (h : p.Faces (mark '.' :: word attr :: rest) b)
    (hQ : ∀ {p' : Parser}, p'.Faces rest b → Gives (do
      if ← Parse.atMark '(' then return .memberCall line x attr (← arguments sub)
      return .member line x attr) p' Q) :
    Gives (namedForm sub x line) p Q := by
  rw [namedForm_of_unreserved sub hx]
  refine (gives_atMark h).bind fun r p₂ hr => ?_
  obtain ⟨rfl, h₂⟩ := hr
  refine (gives_advance h₂).bind fun t p₃ ht => ?_
  refine (gives_advance ht.2).bind fun u p₄ hu => ?_
  obtain ⟨⟨pos, rfl⟩, h₄⟩ := hu
  exact hQ h₄

theorem operandAs_member {x attr : String} (hx : Unreserved x) (line : Nat) :
    OperandAs sub (.member line x attr) [word x, mark '.', word attr] := by
  intro p rest b h hq
  refine gives_operand_word h fun line' h₁ => gives_attribute hx h₁ fun h₂ => ?_
  refine (gives_atMark_of_ne h₂ hq.2).bind fun r p₃ hr => ?_
  obtain ⟨rfl, h₃⟩ := hr
  exact Gives.pure ⟨rfl, b, h₃, id⟩

theorem operandAs_memberCall {x attr : String} (hx : Unreserved x) (line : Nat)
    (ha : ArgumentsAs sub es ls) :
    OperandAs sub (.memberCall line x attr es) (word x :: mark '.' :: word attr :: ls) := by
  intro p rest b h hq
  refine gives_operand_word h fun line' h₁ => gives_attribute hx h₁ fun h₂ => ?_
  refine (ha.atMark h₂).bind fun r p₃ hr => ?_
  obtain ⟨rfl, h₃⟩ := hr
  refine (ha.gives h₃).bind fun as p₄ has => Gives.pure ?_
  refine ⟨?_, true, has.2, fun _ => rfl⟩
  have hlist : as.map (Node.mapLines fun _ => 0) = es.map (Node.mapLines fun _ => 0) := has.1
  simp [Node.Alike, Node.mapLines, hlist]

/-- An expression in parentheses is read as that expression. -/
theorem operandAs_nested (he : ReadsAs sub e ls) :
    OperandAs sub e (mark '(' :: (ls ++ [mark ')'])) := by
  intro p rest b h _
  have hl : mark '(' :: (ls ++ [mark ')']) ++ rest = mark '(' :: (ls ++ mark ')' :: rest) := by simp
  rw [hl] at h
  refine (gives_peek_cons h).bind fun t p₁ ht => ?_
  obtain ⟨⟨pos, rfl⟩, h₁⟩ := ht
  have hpar : Gives (parenthesis sub) p₁ fun n p' => n.Alike e ∧ p'.Faces rest true := by
    refine (gives_skip h₁).bind fun _ p₂ h₂ => ?_
    refine (he h₂ ⟨')', rest, rfl, by simp⟩).bind fun a p₃ ha => ?_
    obtain ⟨n, rfl, hn, b', h₃, -⟩ := ha
    refine (gives_skip h₃).bind fun _ p₄ h₄ => ?_
    exact (gives_setSemicolon h₄ true).bind fun _ p₅ h₅ => Gives.pure ⟨hn, h₅⟩
  exact hpar.map fun n p' hn => ⟨n, rfl, hn.1, true, hn.2, fun _ => rfl⟩

theorem operandAs_declaration {x : String} (line : Nat) :
    OperandAs sub (.declaration line x) [word "let", word x] := by
  intro p rest b h hq
  refine gives_operand_word h fun line' h₁ => ?_
  refine (gives_advance h₁).bind fun t p₂ ht => ?_
  obtain ⟨⟨pos, rfl⟩, h₂⟩ := ht
  refine (gives_atMark_of_ne h₂ hq.2).bind fun r p₃ hr => ?_
  obtain ⟨rfl, h₃⟩ := hr
  exact Gives.pure ⟨rfl, b, h₃, id⟩

theorem gives_links_nil {fuel floor : Nat} (h : p.Faces rest b)
    (hn : ∀ l ∈ rest.head?, l.operator? = none) :
    Gives (links sub (fuel + 1) floor) p fun chain p' => chain = [] ∧ p'.Faces rest b := by
  refine (gives_operatorAhead_of_ne h hn).bind fun op p₁ hop => ?_
  obtain ⟨rfl, h₁⟩ := hop
  exact Gives.pure ⟨rfl, h₁⟩

/-- One operator with its right operand, where no operator follows. -/
theorem gives_links_one {o : Operator} {right : Node} {fuel : Nat} (hr : OperandAs sub right ls)
    (h : p.Faces (.operator o.spelling :: (ls ++ rest)) b) (hc : Closed rest) :
    Gives (links sub (fuel + 2) 0) p fun chain p' => ∃ link, chain = [link] ∧
      link.spelling = o.spelling ∧ link.right.Alike right ∧ Left rest (Keeps b) p' := by
  have hn : ∀ l ∈ rest.head?, l.operator? = none := fun l hl => (hc.fresh l hl).1
  refine (gives_operatorAhead h).bind fun op p₁ hop => ?_
  obtain ⟨⟨line, rfl⟩, h₁⟩ := hop
  simp only [Nat.not_lt_zero, if_false]
  refine (gives_advance h₁).bind fun t p₂ ht => ?_
  refine (hr ht.2 hc.quiet).bind fun a p₃ ha => ?_
  obtain ⟨n, rfl, halike, b', h₃, hb⟩ := ha
  refine (gives_operatorAhead_of_ne h₃ hn).bind fun op p₄ hop => ?_
  obtain ⟨rfl, h₄⟩ := hop
  refine (gives_links_nil h₄ hn).bind fun chain p₅ hchain => Gives.pure ?_
  obtain ⟨rfl, h₅⟩ := hchain
  exact ⟨_, rfl, rfl, halike, b', h₅, hb⟩

/-- An operand by itself is an expression where no operator follows. -/
theorem gives_expression_of_operand {Q : Bool → Prop}
    (h : Gives (operand sub) p (Found e (Left rest Q)))
    (hn : ∀ l ∈ rest.head?, l.operator? = none) :
    Gives (expression sub) p (Found e (Left rest Q)) := by
  refine h.bind fun a p₁ ha => ?_
  obtain ⟨n, rfl, hn', b, h₁, hb⟩ := ha
  have hlinks : Gives (bounded fun fuel => links sub fuel 0) p₁ fun chain p' =>
      chain = [] ∧ p'.Faces rest b := Gives.bounded (gives_links_nil h₁ hn)
  refine hlinks.bind fun chain p₂ hchain => Gives.pure ?_
  obtain ⟨rfl, h₂⟩ := hchain
  exact ⟨n, rfl, hn', b, h₂, hb⟩

theorem readsAs_operand (he : OperandAs sub e ls) : ReadsAs (expression sub) e ls :=
  fun _ _ _ h hc => gives_expression_of_operand (he h hc.quiet) fun l hl => (hc.fresh l hl).1

/-- Two operands with an operator between them are read as the operation. -/
theorem readsAs_binary {left right : Node} (line : Nat) (o : Operator) (hl : OperandAs sub left ls)
    (hr : OperandAs sub right ms) :
    ReadsAs (expression sub) (.binary line o.spelling (some left) (some right))
      (ls ++ .operator o.spelling :: ms) := by
  intro p rest b h hc
  rw [List.append_assoc, List.cons_append] at h
  refine (hl h ⟨by simp, by simp⟩).bind fun a p₁ ha => ?_
  obtain ⟨n, rfl, hn, b', h₁, hb⟩ := ha
  have hsize := h₁.length_le
  rw [List.length_cons] at hsize
  obtain ⟨fuel, hfuel⟩ : ∃ fuel, p₁.size + 1 = fuel + 2 := ⟨p₁.size - 1, by omega⟩
  have hlinks : Gives (links sub (fuel + 2) 0) p₁ _ := gives_links_one hr h₁ hc
  rw [← hfuel] at hlinks
  refine (Gives.bounded hlinks).bind fun chain p₂ hchain => Gives.pure ?_
  obtain ⟨link, rfl, hsp, hright, b'', h₂, hb'⟩ := hchain
  refine ⟨_, rfl, ?_, b'', h₂, hb' ∘ hb⟩
  unfold Node.Alike at hn hright ⊢
  simp [Node.extend, Link.attach, Node.mapLines, hsp, hn, hright]

theorem height_pos (e : Node) : 0 < e.height := by
  cases e <;> simp [Node.height]

-- The induction is on how a form is written. A level of nesting is spent where the rule for
-- expressions is entered: in parentheses, for each argument, and for each operation.
mutual

theorem Atom.operandAs : ∀ {e : Node} {ls : List Lexeme}, Atom e ls → ∀ {k : Nat},
    e.height ≤ k + 1 → OperandAs (primary k) e ls
  | _, _, .text line s, _, _ => operandAs_literal line (Or.inl ⟨s, rfl, rfl⟩)
  | _, _, .boolean line v, _, _ => operandAs_boolean line v
  | _, _, .integer line _, _, _ => operandAs_literal line (Or.inr ⟨_, rfl, rfl⟩)
  | _, _, .reference line hx, _, _ => operandAs_reference (Or.inl hx.2) line
  | _, _, .call line hf ha, _, h => by
    have hargs := Arguments.argumentsAs ha (Nat.le_of_succ_le_succ h)
    exact operandAs_call (Or.inl hf.2) line hargs
  | _, _, .member line hx _, _, _ => operandAs_member (Or.inl hx.2) line
  | _, _, .memberCall line hx _ ha, _, h => by
    have hargs := Arguments.argumentsAs ha (Nat.le_of_succ_le_succ h)
    exact operandAs_memberCall (Or.inl hx.2) line hargs

/-- Printed operands are read back as operands, given room for their height. -/
theorem Operand.operandAs : ∀ {e : Node} {ls : List Lexeme}, Operand e ls → ∀ {k : Nat},
    e.height ≤ k → OperandAs (primary k) e ls
  | _, _, .atom ha, _, h => Atom.operandAs ha (Nat.le_succ_of_le h)
  | _, _, .nested ho, _, h => operandAs_nested (Operation.readsAs ho h)

theorem Operation.readsAs : ∀ {e : Node} {ls : List Lexeme}, Operation e ls → ∀ {k : Nat},
    e.height ≤ k → ReadsAs (primary k) e ls
  | _, _, .binary line o hl hr, k + 1, h => by
    have hmax := Nat.le_of_succ_le_succ h
    have hleft := Operand.operandAs hl (Nat.le_trans (Nat.le_max_left _ _) hmax)
    have hright := Operand.operandAs hr (Nat.le_trans (Nat.le_max_right _ _) hmax)
    exact readsAs_binary line o hleft hright
  | _, _, .declaration line line' _ hr, k + 1, h => by
    have hmax := Nat.le_of_succ_le_succ h
    have hright := Operand.operandAs hr (Nat.le_trans (Nat.le_max_right _ _) hmax)
    exact readsAs_binary line .assign (operandAs_declaration line') hright

/-- Printed expressions are read back, given room for their height. -/
theorem Expression.readsAs : ∀ {e : Node} {ls : List Lexeme}, Expression e ls → ∀ {k : Nat},
    e.height ≤ k → ReadsAs (primary k) e ls
  | e, _, .atom ha, 0, h => absurd (height_pos e) (by omega)
  | _, _, .atom ha, k + 1, h => readsAs_operand (Atom.operandAs ha h)
  | _, _, .operation ho, _, h => Operation.readsAs ho h

theorem Arguments.argumentsAs : ∀ {es : List Node} {ls : List Lexeme}, Arguments es ls →
    ∀ {k : Nat}, Node.heightList es ≤ k → ArgumentsAs (primary k) es ls
  | _, _, .none, _, _ => ⟨[], rfl, readsList_nil _⟩
  | _, _, .some hl, _, h => ⟨_, rfl, Listed.readsList hl h⟩

theorem Listed.readsList : ∀ {es : List Node} {ls : List Lexeme}, Listed es ls → ∀ {k : Nat},
    Node.heightList es ≤ k → ReadsList (primary k) es ls
  | _, _, .last he, _, h => by
    have hread := Expression.readsAs he (Nat.le_trans (Nat.le_max_left _ _) h)
    exact readsList_last hread he.opens.starts
  | _, _, .cons he hes, _, h => by
    have hread := Expression.readsAs he (Nat.le_trans (Nat.le_max_left _ _) h)
    have hrest := Listed.readsList hes (Nat.le_trans (Nat.le_max_right _ _) h)
    exact readsList_cons hread he.opens.starts hrest

end

def StatementAs (rule : Parse (Option Node)) (a : Node) (ls : List Lexeme) : Prop :=
  ∀ ⦃p : Parser⦄ ⦃rest : List Lexeme⦄, p.Faces (ls ++ rest) true → Fresh rest →
    Gives (statement rule) p (Found a fun p' => p'.Faces rest true)

def BodyAs (sub : Parse (Option Node)) (body : List Node) (ls : List Lexeme) : Prop :=
  ∀ ⦃p : Parser⦄ ⦃rest : List Lexeme⦄ ⦃fuel : Nat⦄, p.Faces (ls ++ mark '}' :: rest) true →
    ls.length < fuel → Gives (statementsBefore sub fuel) p fun as p' =>
      Node.AlikeList as body ∧ p'.Faces (mark '}' :: rest) true

def BlockAs (sub : Parse (Option Node)) (body : List Node) (ls : List Lexeme) : Prop :=
  ∃ inner, ls = mark '{' :: (inner ++ [mark '}']) ∧ BodyAs sub body inner

/-- What asks for a semicolon and has one is a statement. -/
theorem gives_statement_semicolon {rule : Parse (Option Node)} {a : Node}
    (h : Gives rule p (Found a (Left (mark ';' :: rest) (Keeps true)))) :
    Gives (statement rule) p (Found a fun p' => p'.Faces rest true) := by
  refine h.bind fun n p₁ hn => ?_
  obtain ⟨n, rfl, hn, b, h₁, hb⟩ := hn
  obtain rfl := hb rfl
  refine Gives.get ?_
  simp only [h₁.semicolon, if_true]
  exact (gives_skip h₁).bind fun _ p₂ h₂ => Gives.pure ⟨n, rfl, hn, h₂⟩

/-- What closes with a body is a statement without a semicolon. -/
theorem gives_statement_block {rule : Parse (Option Node)} {a : Node}
    (h : Gives rule p (Found a (Left rest (· = false)))) :
    Gives (statement rule) p (Found a fun p' => p'.Faces rest true) := by
  refine h.bind fun n p₁ hn => ?_
  obtain ⟨n, rfl, hn, b, h₁, rfl⟩ := hn
  refine Gives.get ?_
  simp only [h₁.semicolon]
  exact (gives_setSemicolon h₁ true).bind fun _ p₂ h₂ => Gives.pure ⟨n, rfl, hn, h₂⟩

theorem statementAs_expression {rule : Parse (Option Node)} (he : ReadsAs rule e ls) :
    StatementAs rule e (ls ++ [mark ';']) := by
  intro p rest h _
  rw [List.append_assoc] at h
  exact gives_statement_semicolon (he h ⟨';', rest, rfl, by simp⟩)

/-- A form that ends with a block is a statement of its own. -/
theorem statementAs_of_block {a : Node} (h : ∀ {p : Parser} {rest : List Lexeme},
      p.Faces (ls ++ rest) true → Fresh rest →
      Gives (operand sub) p (Found a (Left rest (· = false)))) :
    StatementAs (expression sub) a ls := by
  intro p rest hp hr
  exact gives_statement_block
    (gives_expression_of_operand (h hp hr) fun l hl => (hr l hl).1)

theorem operandAs_breaking (line : Nat) : OperandAs sub (.breaking line) [word "break"] := by
  intro p rest b h _
  exact gives_operand_word h fun line' h₁ => Gives.pure ⟨rfl, b, h₁, id⟩

theorem operandAs_continuing (line : Nat) : OperandAs sub (.continuing line) [word "continue"] := by
  intro p rest b h _
  exact gives_operand_word h fun line' h₁ => Gives.pure ⟨rfl, b, h₁, id⟩

theorem statementAs_returnNothing (line : Nat) :
    StatementAs (expression sub) (.returning line none) [word "return", mark ';'] := by
  intro p rest h _
  have ho : Gives (operand sub) p
      (Found (.returning line none) (Left (mark ';' :: rest) (Keeps true))) := by
    refine gives_operand_word h fun line' h₁ => ?_
    refine (gives_atMark h₁).bind fun r p₂ hr => ?_
    obtain ⟨rfl, h₂⟩ := hr
    exact Gives.pure ⟨rfl, true, h₂, id⟩
  exact gives_statement_semicolon (gives_expression_of_operand ho (by simp [Lexeme.operator?]))

theorem statementAs_returnValue (line : Nat) (he : ReadsAs sub e ls) (ho : Opens ls) :
    StatementAs (expression sub) (.returning line (some e)) (word "return" :: (ls ++ [mark ';'])) := by
  intro p rest h _
  have hl : word "return" :: (ls ++ [mark ';']) ++ rest =
      word "return" :: (ls ++ mark ';' :: rest) := by simp
  rw [hl] at h
  have hop : Gives (operand sub) p
      (Found (.returning line (some e)) (Left (mark ';' :: rest) (Keeps true))) := by
    refine gives_operand_word h fun line' h₁ => ?_
    refine (gives_atMark_of_ne h₁ (ho.starts.head_ne (by decide) _)).bind fun r p₂ hr => ?_
    obtain ⟨rfl, h₂⟩ := hr
    refine (he h₂ ⟨';', rest, rfl, by simp⟩).bind fun a p₃ ha => Gives.pure ?_
    obtain ⟨n, rfl, hn, hleft⟩ := ha
    unfold Node.Alike at hn
    exact ⟨by simp [Node.Alike, Node.mapLines, hn], hleft⟩
  exact gives_statement_semicolon (gives_expression_of_operand hop (by simp [Lexeme.operator?]))

/-- A block is read as its statements, and waives the semicolon. -/
theorem gives_block {body : List Node} (hb : BlockAs sub body ls) (h : p.Faces (ls ++ rest) b) :
    Gives (block sub) p fun as p' => Node.AlikeList as body ∧ p'.Faces rest false := by
  obtain ⟨inner, rfl, hbody⟩ := hb
  have hl : mark '{' :: (inner ++ [mark '}']) ++ rest =
      mark '{' :: (inner ++ mark '}' :: rest) := by simp
  rw [hl] at h
  refine (gives_skip h).bind fun _ p₁ h₁ => ?_
  refine (gives_setSemicolon h₁ true).bind fun _ p₂ h₂ => ?_
  have hsize := h₂.length_le
  rw [List.length_append] at hsize
  refine (Gives.bounded (hbody h₂ (by omega))).bind fun as p₃ has => ?_
  refine (gives_skip has.2).bind fun _ p₄ h₄ => ?_
  exact (gives_setSemicolon h₄ false).bind fun _ p₅ h₅ => Gives.pure ⟨has.1, h₅⟩

theorem gives_condition (he : ReadsAs sub e ls)
    (h : p.Faces (mark '(' :: (ls ++ mark ')' :: rest)) b) :
    Gives (condition sub) p fun n p' => n.Alike e ∧ ∃ b', p'.Faces rest b' := by
  refine (gives_skip h).bind fun _ p₁ h₁ => ?_
  refine (he h₁ ⟨')', rest, rfl, by simp⟩).bind fun a p₂ ha => ?_
  obtain ⟨n, rfl, hn, b', h₂, -⟩ := ha
  exact (gives_skip h₂).bind fun _ p₃ h₃ => Gives.pure ⟨hn, b', h₃⟩

theorem gives_parameters (f : String) (params : List String) (p : Parser) :
    Gives (parameters f (params.map (Node.reference 0))) p fun names p' =>
      names = params ∧ p' = p := by
  induction params with
  | nil => exact Gives.pure ⟨rfl, rfl⟩
  | cons x params ih =>
    refine ih.bind fun names p' hn => Gives.pure ?_
    exact ⟨by rw [hn.1], hn.2⟩

/-- A function is read with its parameters and its body. -/
theorem statementAs_function {f : String} {params : List String} {body : List Node}
    (line line' : Nat) (ha : ArgumentsAs sub (params.map (Node.reference 0)) ls)
    (hb : BlockAs sub body ms) :
    StatementAs (expression sub) (.function line ⟨line', f, params, "any"⟩ body)
      (word "let" :: word f :: (ls ++ ms)) := by
  refine statementAs_of_block fun {p rest} h _ => ?_
  rw [List.cons_append, List.cons_append, List.append_assoc] at h
  refine gives_operand_word h fun _ h₁ => ?_
  refine (gives_advance h₁).bind fun t p₂ ht => ?_
  obtain ⟨⟨pos, rfl⟩, h₂⟩ := ht
  refine (ha.atMark h₂).bind fun r p₃ hr => ?_
  obtain ⟨rfl, h₃⟩ := hr
  refine (ha.gives h₃).bind fun as p₄ has => ?_
  obtain ⟨has, h₄⟩ := has
  have hnames : parameters f as = parameters f (params.map (Node.reference 0)) := by
    unfold Node.AlikeList at has
    rw [← parameters_mapLines f (fun _ => 0), has, parameters_mapLines]
  rw [hnames]
  refine (gives_parameters f params p₄).bind fun names p₅ hn => ?_
  obtain ⟨rfl, rfl⟩ := hn
  refine (gives_block hb h₄).bind fun bs p₆ hbs => Gives.pure ?_
  obtain ⟨hbs, h₆⟩ := hbs
  unfold Node.AlikeList at hbs
  refine ⟨?_, false, h₆, rfl⟩
  simp [Node.Alike, Node.mapLines, Header.mapLines, hbs]

theorem statementAs_loop {body : List Node} (line : Nat) (he : ReadsAs sub e ls)
    (hb : BlockAs sub body ms) :
    StatementAs (expression sub) (.loop line e body)
      (word "while" :: mark '(' :: (ls ++ mark ')' :: ms)) := by
  refine statementAs_of_block fun {p rest} h _ => ?_
  have hl : word "while" :: mark '(' :: (ls ++ mark ')' :: ms) ++ rest =
      word "while" :: mark '(' :: (ls ++ mark ')' :: (ms ++ rest)) := by simp
  rw [hl] at h
  refine gives_operand_word h fun _ h₁ => ?_
  refine (gives_condition he h₁).bind fun n p₂ hn => ?_
  obtain ⟨hn, b', h₂⟩ := hn
  refine (gives_block hb h₂).bind fun bs p₃ hbs => Gives.pure ?_
  obtain ⟨hbs, h₃⟩ := hbs
  unfold Node.AlikeList at hbs
  unfold Node.Alike at hn
  refine ⟨?_, false, h₃, rfl⟩
  simp [Node.Alike, Node.mapLines, hn, hbs]

theorem statementAs_struct {x : String} (line : Nat) :
    StatementAs (expression sub) (.struct line x) [word "struct", word x, mark '{', mark '}'] := by
  refine statementAs_of_block fun {p rest} h _ => ?_
  refine gives_operand_word h fun _ h₁ => ?_
  refine (gives_advance h₁).bind fun t p₂ ht => ?_
  obtain ⟨⟨pos, rfl⟩, h₂⟩ := ht
  refine (gives_skip h₂).bind fun _ p₃ h₃ => ?_
  refine (gives_atMark h₃).bind fun r p₄ hr => ?_
  obtain ⟨rfl, h₄⟩ := hr
  refine (gives_skip h₄).bind fun _ p₅ h₅ => ?_
  refine (gives_setSemicolon h₅ false).bind fun _ p₆ h₆ => Gives.pure ?_
  exact ⟨rfl, false, h₆, rfl⟩

def AlikeBranches (as bs : List Branch) : Prop :=
  as.map (Branch.mapLines fun _ => 0) = bs.map (Branch.mapLines fun _ => 0)

def BranchesAs (sub : Parse (Option Node)) (branches : List Branch) (ls : List Lexeme) : Prop :=
  ∀ ⦃c test : Node⦄ ⦃body : List Node⦄ ⦃bs : List Lexeme⦄, test.Alike c → BlockAs sub body bs →
    ∀ ⦃p : Parser⦄ ⦃rest : List Lexeme⦄ ⦃b : Bool⦄ ⦃fuel : Nat⦄, p.Faces (bs ++ (ls ++ rest)) b →
      Fresh rest → ls.length < fuel → Gives (branchesFrom sub fuel test) p fun found p' =>
        AlikeBranches found (.mk 0 c body :: branches) ∧ p'.Faces rest false

theorem alikeBranches_cons {test c : Node} {as body : List Node} {line line' : Nat}
    {found branches : List Branch} (ht : test.Alike c) (hb : Node.AlikeList as body)
    (h : AlikeBranches found branches) :
    AlikeBranches (.mk line test as :: found) (.mk line' c body :: branches) := by
  unfold Node.Alike at ht
  unfold Node.AlikeList at hb
  unfold AlikeBranches at h ⊢
  simp [Branch.mapLines, ht, hb, h]

theorem branchesAs_nil : BranchesAs sub [] [] := by
  intro c test body bs ht hb p rest b fuel h hr hf
  obtain ⟨fuel, rfl⟩ : ∃ n, fuel = n + 1 := ⟨fuel - 1, by omega⟩
  refine (gives_block hb h).bind fun as p₁ has => ?_
  obtain ⟨has, h₁⟩ := has
  have hne : rest.head? ≠ some (word "else") := fun hh => (hr _ hh).2 rfl
  refine (gives_atName_of_ne h₁ hne).bind fun r p₂ hr => ?_
  obtain ⟨rfl, h₂⟩ := hr
  exact Gives.pure ⟨alikeBranches_cons ht has rfl, h₂⟩

/-- A branch with a condition is read in front of those after it. -/
theorem branchesAs_elseIf {body' : List Node} {branches : List Branch} {cs bs' : List Lexeme}
    (line : Nat) (he : ReadsAs sub e cs) (hb' : BlockAs sub body' bs')
    (hbs : BranchesAs sub branches ls) :
    BranchesAs sub (.mk line e body' :: branches)
      (word "else" :: word "if" :: mark '(' :: (cs ++ mark ')' :: (bs' ++ ls))) := by
  intro c test body bs ht hb p rest b fuel h hr hf
  simp only [List.length_cons, List.length_append] at hf
  obtain ⟨fuel, rfl⟩ : ∃ n, fuel = n + 1 := ⟨fuel - 1, by omega⟩
  have hl : word "else" :: word "if" :: mark '(' :: (cs ++ mark ')' :: (bs' ++ ls)) ++ rest =
      word "else" :: word "if" :: mark '(' :: (cs ++ mark ')' :: (bs' ++ (ls ++ rest))) := by simp
  rw [hl] at h
  refine (gives_block hb h).bind fun as p₁ has => ?_
  obtain ⟨has, h₁⟩ := has
  refine (gives_atName h₁).bind fun r p₂ hr₂ => ?_
  obtain ⟨rfl, h₂⟩ := hr₂
  refine (gives_advance h₂).bind fun t p₃ ht₃ => ?_
  refine (gives_atName ht₃.2).bind fun r p₄ hr₄ => ?_
  obtain ⟨rfl, h₄⟩ := hr₄
  refine (gives_advance h₄).bind fun u p₅ hu => ?_
  refine (gives_condition he hu.2).bind fun n p₆ hn => ?_
  obtain ⟨hn, b', h₆⟩ := hn
  refine (hbs hn hb' h₆ hr (by omega)).bind fun found p₇ hfound => Gives.pure ?_
  exact ⟨alikeBranches_cons ht has hfound.1, hfound.2⟩

/-- A last branch without a condition is read as one whose condition is true. -/
theorem branchesAs_otherwise {body' : List Node} (line line' : Nat) (hb' : BlockAs sub body' ls) :
    BranchesAs sub [.mk line (.literal line' (.boolean true)) body'] (word "else" :: ls) := by
  intro c test body bs ht hb p rest b fuel h hr hf
  obtain ⟨fuel, rfl⟩ : ∃ n, fuel = n + 1 := ⟨fuel - 1, by omega⟩
  rw [List.cons_append] at h
  refine (gives_block hb h).bind fun as p₁ has => ?_
  obtain ⟨has, h₁⟩ := has
  refine (gives_atName h₁).bind fun r p₂ hr₂ => ?_
  obtain ⟨rfl, h₂⟩ := hr₂
  refine (gives_advance h₂).bind fun t p₃ ht₃ => ?_
  obtain ⟨⟨pos, rfl⟩, h₃⟩ := ht₃
  obtain ⟨ms, hbrace⟩ : ∃ ms, ls ++ rest = mark '{' :: ms := by
    obtain ⟨inner, rfl, -⟩ := hb'
    exact ⟨_, rfl⟩
  have hif : (ls ++ rest).head? ≠ some (word "if") := by
    rw [hbrace]
    simp
  refine (gives_atName_of_ne h₃ hif).bind fun r p₄ hr₄ => ?_
  obtain ⟨rfl, h₄⟩ := hr₄
  rw [hbrace] at h₄
  refine (gives_peek_cons h₄).bind fun u p₅ hu => ?_
  obtain ⟨⟨pos', rfl⟩, h₅⟩ := hu
  rw [← hbrace] at h₅
  refine (gives_block hb' h₅).bind fun as' p₆ has' => Gives.pure ?_
  have htrue : (Node.literal pos.line (.boolean true)).Alike (.literal line' (.boolean true)) := rfl
  have hnil : AlikeBranches [] [] := rfl
  exact ⟨alikeBranches_cons ht has (alikeBranches_cons htrue has'.1 hnil), has'.2⟩

/-- A conditional is read with all its branches. -/
theorem statementAs_conditional {body : List Node} {branches : List Branch} {cs bs : List Lexeme}
    (line line' : Nat) (he : ReadsAs sub e cs) (hb : BlockAs sub body bs)
    (hbs : BranchesAs sub branches ls) :
    StatementAs (expression sub) (.conditional line (.mk line' e body :: branches))
      (word "if" :: mark '(' :: (cs ++ mark ')' :: (bs ++ ls))) := by
  refine statementAs_of_block fun {p rest} h hr => ?_
  have hl : word "if" :: mark '(' :: (cs ++ mark ')' :: (bs ++ ls)) ++ rest =
      word "if" :: mark '(' :: (cs ++ mark ')' :: (bs ++ (ls ++ rest))) := by simp
  rw [hl] at h
  refine gives_operand_word h fun _ h₁ => ?_
  refine (gives_condition he h₁).bind fun n p₂ hn => ?_
  obtain ⟨hn, b', h₂⟩ := hn
  have hsize := h₂.length_le
  simp only [List.length_append] at hsize
  have hfrom := hbs hn hb h₂ hr (Nat.lt_succ_of_le (by omega : ls.length ≤ p₂.size))
  refine (Gives.bounded hfrom).bind fun found p₃ hfound => ?_
  obtain ⟨hfound, h₃⟩ := hfound
  refine (gives_setSemicolon h₃ false).bind fun _ p₄ h₄ => Gives.pure ?_
  refine ⟨?_, false, h₄, rfl⟩
  unfold AlikeBranches at hfound
  simpa [Node.Alike, Node.mapLines, Branch.mapLines] using hfound

theorem Opens.fresh (h : Opens ls) (rest : List Lexeme) : Fresh (ls ++ rest) := by
  obtain ⟨l, ms, rfl, hl⟩ := h
  intro m hm
  cases hm
  exact ⟨hl.1, hl.2.1⟩

theorem Statements.fresh {as : List Node} (h : Statements as ls) (hr : Fresh rest) :
    Fresh (ls ++ rest) := by
  cases h with
  | nil => exact hr
  | cons ha _ =>
    rw [List.append_assoc]
    exact ha.opens.fresh _

theorem bodyAs_nil : BodyAs sub [] [] := by
  intro p rest fuel h hf
  obtain ⟨fuel, rfl⟩ : ∃ n, fuel = n + 1 := ⟨fuel - 1, by omega⟩
  refine (gives_atMark h).bind fun r p₁ hr => ?_
  obtain ⟨rfl, h₁⟩ := hr
  exact Gives.pure ⟨rfl, h₁⟩

theorem bodyAs_cons {a : Node} {as : List Node} (ha : StatementAs sub a ls) (ho : Opens ls)
    (hs : Statements as ms) (has : BodyAs sub as ms) : BodyAs sub (a :: as) (ls ++ ms) := by
  intro p rest fuel h hf
  rw [List.append_assoc] at h
  rw [List.length_append] at hf
  have hpos := ho.starts.length_pos
  obtain ⟨fuel, rfl⟩ : ∃ n, fuel = n + 1 := ⟨fuel - 1, by omega⟩
  have hbrace : Fresh (mark '}' :: rest) := by
    intro l hl
    cases hl
    exact ⟨rfl, by simp⟩
  refine (gives_atMark_of_ne h (ho.starts.head_ne (by decide) _)).bind fun r p₁ hr => ?_
  obtain ⟨rfl, h₁⟩ := hr
  refine (ha h₁ (hs.fresh hbrace)).bind fun n p₂ hn => ?_
  obtain ⟨n, rfl, hn, h₂⟩ := hn
  refine (has h₂ (by omega)).bind fun ns p₃ hns => Gives.pure ?_
  exact ⟨hn.cons hns.1, hns.2⟩

theorem heightList_references (params : List String) :
    Node.heightList (params.map (Node.reference 0)) = min params.length 1 := by
  induction params with
  | nil => rfl
  | cons x params ih =>
    simp only [List.map_cons, Node.heightList, Node.height, List.length_cons, ih]
    omega

-- Statements spend a level where their blocks enter the rule for expressions again.
mutual

/-- Printed statements are read back, given room for their height. -/
theorem Statement.statementAs : ∀ {a : Node} {ls : List Lexeme}, Statement a ls → ∀ {k : Nat},
    a.height ≤ k + 1 → StatementAs (primary (k + 1)) a ls
  | _, _, .expression he, _, h => statementAs_expression (he.readsAs h)
  | _, _, .returnNothing line, _, _ => statementAs_returnNothing line
  | _, _, .returnValue line he, _, h =>
    statementAs_returnValue line (he.readsAs (Nat.le_of_succ_le_succ h)) he.opens
  | _, _, .breaking line, _, _ =>
    statementAs_expression (readsAs_operand (operandAs_breaking line))
  | _, _, .continuing line, _, _ =>
    statementAs_expression (readsAs_operand (operandAs_continuing line))
  | _, _, @Statement.function f params body as bs line line' _ ha hb, k, h => by
    have hmax := Nat.le_of_succ_le_succ h
    have hparams : Node.heightList (params.map (Node.reference 0)) ≤ k := by
      rw [heightList_references]
      exact Nat.le_trans (Nat.le_max_left _ _) hmax
    have hbody := Block.blockAs hb (Nat.le_trans (Nat.le_max_right _ _) hmax)
    exact statementAs_function line line' (ha.argumentsAs hparams) hbody
  | _, _, .conditional line line' hc hb hbs, _, h => by
    obtain ⟨hfirst, hrest⟩ := Nat.max_le.mp (Nat.le_of_succ_le_succ h)
    obtain ⟨hcond, hbody⟩ := Nat.max_le.mp hfirst
    exact statementAs_conditional line line' (hc.readsAs hcond) (Block.blockAs hb hbody)
      (Branches.branchesAs hbs hrest)
  | _, _, .loop line hc hb, _, h => by
    obtain ⟨hcond, hbody⟩ := Nat.max_le.mp (Nat.le_of_succ_le_succ h)
    exact statementAs_loop line (hc.readsAs hcond) (Block.blockAs hb hbody)
  | _, _, .struct line _, _, _ => statementAs_struct line

theorem Block.blockAs : ∀ {body : List Node} {ls : List Lexeme}, Block body ls → ∀ {k : Nat},
    Node.heightList body ≤ k → BlockAs (primary k) body ls
  | _, _, .mk hs, _, h => ⟨_, rfl, Statements.bodyAs hs h⟩

/-- Printed statements in a row are read back as the body they make. -/
theorem Statements.bodyAs : ∀ {as : List Node} {ls : List Lexeme}, Statements as ls → ∀ {k : Nat},
    Node.heightList as ≤ k → BodyAs (primary k) as ls
  | _, _, .nil, _, _ => bodyAs_nil
  | a :: _, _, .cons ha has, 0, h => by
    have hpos := height_pos a
    have hle := (Nat.max_le.mp h).1
    omega
  | _, _, .cons ha has, k + 1, h => by
    obtain ⟨hfirst, hrest⟩ := Nat.max_le.mp h
    exact bodyAs_cons (Statement.statementAs ha hfirst) ha.opens has (Statements.bodyAs has hrest)

theorem Branches.branchesAs : ∀ {bs : List Branch} {ls : List Lexeme}, Branches bs ls → ∀ {k : Nat},
    Node.heightBranches bs ≤ k → BranchesAs (primary k) bs ls
  | _, _, .nil, _, _ => branchesAs_nil
  | _, _, .elseIf line hc hb hbs, _, h => by
    obtain ⟨hfirst, hrest⟩ := Nat.max_le.mp h
    obtain ⟨hcond, hbody⟩ := Nat.max_le.mp hfirst
    exact branchesAs_elseIf line (hc.readsAs hcond) (Block.blockAs hb hbody)
      (Branches.branchesAs hbs hrest)
  | _, _, .otherwise line line' hb, _, h => by
    obtain ⟨hfirst, -⟩ := Nat.max_le.mp h
    exact branchesAs_otherwise line line' (Block.blockAs hb (Nat.max_le.mp hfirst).2)

end

/-- At the end of the text there is no further statement. -/
theorem gives_next_nil {k : Nat} (h : p.Faces [] b) :
    Gives (next (k + 1)) p fun a _ => a = none := by
  obtain ⟨t, p', hp, ht, -⟩ := h.peek
  cases t with
  | some t => cases ht
  | none =>
    have ho : operand (primary k) p = .ok none p' := bind_of_ok hp
    have he : primary (k + 1) p = .ok none p' := bind_of_ok ho
    exact ⟨none, p', bind_of_ok he, rfl⟩

theorem gives_statements_nil {k : Nat} (h : p.Faces [] b) (fuel : Nat) :
    Gives (statements (k + 1) (fuel + 1)) p fun ns _ => Node.AlikeList ns [] := by
  refine (gives_next_nil h).bind fun a p₁ ha => ?_
  subst ha
  exact Gives.pure rfl

/-- A statement is read, and then the further ones. -/
theorem gives_statements_cons {k fuel : Nat} {a : Node} {as : List Node}
    (ha : StatementAs (primary (k + 1)) a ls) (hr : Fresh rest) (h : p.Faces (ls ++ rest) true)
    (has : ∀ {p' : Parser}, p'.Faces rest true →
      Gives (statements (k + 1) fuel) p' fun ns _ => Node.AlikeList ns as) :
    Gives (statements (k + 1) (fuel + 1)) p fun ns _ => Node.AlikeList ns (a :: as) := by
  refine (ha h hr).bind fun n p₁ hn => ?_
  obtain ⟨n, rfl, hn, h₁⟩ := hn
  exact (has h₁).bind fun ns p₂ hns => Gives.pure (hn.cons hns)

theorem fresh_nil : Fresh [] := by
  intro l hl
  cases hl

/-- A whole printed program is read back. -/
theorem gives_statements {k fuel : Nat} {as : List Node} (hs : Statements as ls)
    (hh : Node.heightList as ≤ k + 1) (h : p.Faces ls true) (hf : ls.length < fuel) :
    Gives (statements (k + 1) fuel) p fun ns _ => Node.AlikeList ns as := by
  induction as generalizing ls p fuel with
  | nil =>
    cases hs
    obtain ⟨fuel, rfl⟩ : ∃ n, fuel = n + 1 := ⟨fuel - 1, by omega⟩
    exact gives_statements_nil h fuel
  | cons a as ih =>
    cases hs with
    | @cons _ _ ls ms ha has =>
      obtain ⟨hfirst, hrest⟩ := Nat.max_le.mp hh
      rw [List.length_append] at hf
      have hpos := ha.opens.starts.length_pos
      obtain ⟨fuel, rfl⟩ : ∃ n, fuel = n + 1 := ⟨fuel - 1, by omega⟩
      have hfresh : Fresh ms := by simpa using has.fresh fresh_nil
      exact gives_statements_cons (ha.statementAs hfirst) hfresh h fun h₁ =>
        ih has hrest h₁ (by omega)

/-- Statements that are read are the program that the text is parsed to. -/
theorem parse_of_gives {text file : String} {nesting : Nat} {program : List Node}
    (h : Gives (statements nesting ((Parser.ofText text file).size + 1)) (Parser.ofText text file)
      fun ns _ => Node.AlikeList ns program) :
    ∃ nodes, Parser.parse nesting text file = .ok nodes ∧ Node.sameList nodes program = true := by
  obtain ⟨nodes, p', hs, halike⟩ := h
  unfold Node.AlikeList at halike
  refine ⟨nodes, ?_, Node.sameList_of_mapLines_eq nodes program (by simpa using halike)⟩
  rw [Parser.parse_eq, hs]

/-- Parsing undoes printing: whatever a program is written as, with spaces between the lexemes, is
parsed to that program up to lines, where there is room for trees of its height. -/
theorem parse_spaced {program : List Node} {ls : List Lexeme} (nesting : Nat)
    (h : Statements program ls) (hh : Node.heightList program < nesting) (file : String) :
    ∃ nodes, Parser.parse nesting (spaced ls) file = .ok nodes ∧
      Node.sameList nodes program = true := by
  obtain ⟨k, rfl⟩ : ∃ k, nesting = k + 1 := ⟨nesting - 1, by omega⟩
  have hfaces := Parser.faces_spaced h.legible file
  have hsize := hfaces.length_le
  exact parse_of_gives (gives_statements h (Nat.le_of_lt hh) hfaces (Nat.lt_succ_of_le hsize))

/-- A declaration of a nested operation, and a conditional whose last branch is always taken. -/
theorem parse_spaced_of_conditional :
    ∃ nodes, Parser.parse 5 "let x = ( a + 1 ) ; if ( x ) { break ; } else { }" "f" = .ok nodes ∧
      Node.sameList nodes
        [.binary 0 "=" (some (.declaration 0 "x"))
          (some (.binary 0 "+" (some (.reference 0 "a")) (some (.literal 0 (.integer 1))))),
        .conditional 0 [.mk 0 (.reference 0 "x") [.breaking 0],
          .mk 0 (.literal 0 (.boolean true)) []]] = true := by
  have hx : Name "x" := ⟨⟨'x', [], by cbv, by decide, by simp⟩, by decide⟩
  have ha : Name "a" := ⟨⟨'a', [], by cbv, by decide, by simp⟩, by decide⟩
  have hsum := Operation.binary 0 (.arithmetic .add) (.atom (.reference 0 ha))
    (.atom (.integer (n := 1) 0 (by decide)))
  have hlet := Statement.expression (.operation (.declaration 0 0 hx (.nested hsum)))
  have hif := Statement.conditional 0 0 (.atom (.reference 0 hx)) (.mk (.cons (.breaking 0) .nil))
    (.otherwise 0 0 (.mk .nil))
  have hspelled := Statements.cons hlet (.cons hif .nil)
  obtain ⟨nodes, hp, hs⟩ := parse_spaced 5 hspelled (by decide) "f"
  refine ⟨nodes, ?_, hs⟩
  rw [← hp]
  refine congrArg (fun text => Parser.parse 5 text "f") ?_
  cbv

end Spelling
end ScriptLang
