import ScriptLang.Proofs.Parser.Boundary

/-! Chains of operands with operators between them. A chain is grouped in one way only such that the
operators on the left of another bind at least as tight as it and those on its right tighter, and that is
the tree it is parsed to. -/
namespace ScriptLang

structure Term where
  line : Nat
  operator : Operator
  operand : Node

inductive Grouping
  | operand (e : Node)
  | operation (line : Nat) (operator : Operator) (left right : Grouping)

namespace Grouping

def toNode : Grouping → Node
  | operand e => e
  | operation line o left right => .binary line o.spelling (some left.toNode) (some right.toNode)

def first : Grouping → Node
  | operand e => e
  | operation _ _ left _ => left.first

def rest : Grouping → List Term
  | operand _ => []
  | operation line o left right => left.rest ++ ⟨line, o, right.first⟩ :: right.rest

def power? : Grouping → Option Nat
  | operand _ => none
  | operation _ o _ _ => some o.power

/-- At every operation, one on the left binds at least as tight and one on the right tighter. -/
def Grouped : Grouping → Prop
  | operand _ => True
  | operation _ o left right => (∀ n ∈ left.power?, o.power ≤ n) ∧ (∀ n ∈ right.power?, o.power < n) ∧
    left.Grouped ∧ right.Grouped

/-- No operator binds weaker than the one at the root. -/
theorem Grouped.power_le {t : Grouping} {n : Nat} (h : t.Grouped) (hn : ∀ m ∈ t.power?, n ≤ m) :
    ∀ u ∈ t.rest, n ≤ u.operator.power := by
  induction t generalizing n with
  | operand e =>
    intro u hu
    cases hu
  | operation line o left right ihl ihr =>
    obtain ⟨hl, hr, hleft, hright⟩ := h
    have ho : n ≤ o.power := hn _ rfl
    intro u hu
    simp only [rest, List.mem_append, List.mem_cons] at hu
    rcases hu with hu | rfl | hu
    · exact ho.trans (ihl hleft hl u hu)
    · exact ho
    · have hlt : o.power + 1 ≤ u.operator.power := ihr hright hr u hu
      omega

/-- The operators on the right of the one at the root bind tighter than it. -/
theorem Grouped.right_lt {line : Nat} {o : Operator} {left right : Grouping}
    (h : (operation line o left right).Grouped) : ∀ u ∈ right.rest, o.power < u.operator.power :=
  h.2.2.2.power_le h.2.1

/-- The left side of a grouped operation holds no operator that binds more loosely. -/
theorem Grouped.left_le {line : Nat} {o : Operator} {left right : Grouping}
    (h : (operation line o left right).Grouped) : ∀ u ∈ left.rest, o.power ≤ u.operator.power :=
  h.2.2.1.power_le h.1

/-- The root is the last of the operators that bind weakest, so two trees of one chain have the same root. -/
theorem Grouped.not_before {line line' : Nat} {o o' : Operator} {l r l' r' : Grouping} {mid : List Term}
    (h : (operation line o l r).Grouped) (h' : (operation line' o' l' r').Grouped)
    (hl : l'.rest = l.rest ++ ⟨line, o, r.first⟩ :: mid)
    (hr : r.rest = mid ++ ⟨line', o', r'.first⟩ :: r'.rest) : False := by
  have hlt : o.power < o'.power := h.right_lt ⟨line', o', r'.first⟩ (by simp [hr])
  have hle : o'.power ≤ o.power := h'.left_le ⟨line, o, r.first⟩ (by simp [hl])
  omega

/-- Two groupings of one chain split it at the same operator. -/
theorem Grouped.split_eq {line line' : Nat} {o o' : Operator} {l r l' r' : Grouping}
    (h : (operation line o l r).Grouped) (h' : (operation line' o' l' r').Grouped)
    (hr : (operation line o l r).rest = (operation line' o' l' r').rest) :
    l.rest = l'.rest ∧ Term.mk line o r.first = ⟨line', o', r'.first⟩ ∧ r.rest = r'.rest := by
  -- One root stands no further left than the other; with a term between them they were two roots.
  rcases List.append_eq_append_iff.mp hr with ⟨mid, hl, hm⟩ | ⟨mid, hl, hm⟩
  · cases mid with
    | nil =>
      rw [List.append_nil] at hl
      exact ⟨hl.symm, List.cons.inj hm⟩
    | cons m mid =>
      obtain ⟨rfl, hm'⟩ := List.cons.inj hm
      exact (h.not_before h' hl hm').elim
  · cases mid with
    | nil =>
      rw [List.append_nil] at hl
      exact ⟨hl, (List.cons.inj hm).1.symm, (List.cons.inj hm).2.symm⟩
    | cons m mid =>
      obtain ⟨rfl, hm'⟩ := List.cons.inj hm
      exact (h'.not_before h hl hm').elim

/-- A chain is grouped in one way only. -/
theorem Grouped.unique {t u : Grouping} (ht : t.Grouped) (hu : u.Grouped) (hf : t.first = u.first)
    (hr : t.rest = u.rest) : t = u := by
  induction t generalizing u with
  | operand e =>
    cases u with
    | operand e' => exact congrArg operand hf
    | operation line o left right => simp [rest] at hr
  | operation line o l r ihl ihr =>
    cases u with
    | operand e => simp [rest] at hr
    | operation line' o' l' r' =>
      -- Both trees have the root at the same place, so their sides are groupings of the same chains.
      obtain ⟨hleft, hterm, hright⟩ := ht.split_eq hu hr
      obtain ⟨rfl, rfl, hfirst⟩ := Term.mk.inj hterm
      rw [ihl ht.2.2.1 hu.2.2.1 hf hleft, ihr ht.2.2.2 hu.2.2.2 hfirst hright]

end Grouping

structure Group where
  line : Nat
  operator : Operator
  right : Grouping

namespace Group

def toLink (g : Group) : Link :=
  ⟨g.operator.spelling, g.line, g.right.toNode⟩

def terms (g : Group) : List Term :=
  ⟨g.line, g.operator, g.right.first⟩ :: g.right.rest

/-- The operators on the right are grouped, and bind tighter. -/
def Grouped (g : Group) : Prop :=
  g.right.Grouped ∧ ∀ n ∈ g.right.power?, g.operator.power < n

/-- No operator binds tighter than one before it. -/
def Falling (gs : List Group) : Prop :=
  gs.Pairwise fun g h => h.operator.power ≤ g.operator.power

/-- Where the first operator binds no tighter than `n`, none does. -/
theorem Falling.le {gs : List Group} {us ts : List Term} {n : Nat} (h : Falling gs)
    (hts : ts = gs.flatMap terms ++ us) (hn : ∀ t ∈ ts.head?, t.operator.power ≤ n) :
    ∀ g ∈ gs, g.operator.power ≤ n := by
  cases gs with
  | nil =>
    intro g hg
    cases hg
  | cons g gs =>
    have hfirst : g.operator.power ≤ n := hn ⟨g.line, g.operator, g.right.first⟩ (by simp [hts, terms])
    intro g' hg'
    rcases List.mem_cons.mp hg' with rfl | hg'
    · exact hfirst
    · exact (List.rel_of_pairwise_cons h hg').trans hfirst

end Group

namespace Grouping

def extend (t : Grouping) (gs : List Group) : Grouping :=
  gs.foldl (fun t g => .operation g.line g.operator t g.right) t

theorem toNode_extend (t : Grouping) (gs : List Group) :
    (t.extend gs).toNode = t.toNode.extend (gs.map Group.toLink) := by
  induction gs generalizing t with
  | nil => rfl
  | cons g gs ih => exact ih (.operation g.line g.operator t g.right)

theorem first_extend (t : Grouping) (gs : List Group) : (t.extend gs).first = t.first := by
  induction gs generalizing t with
  | nil => rfl
  | cons g gs ih => exact ih (.operation g.line g.operator t g.right)

theorem rest_extend (t : Grouping) (gs : List Group) :
    (t.extend gs).rest = t.rest ++ gs.flatMap Group.terms := by
  induction gs generalizing t with
  | nil => simp [extend]
  | cons g gs ih =>
    have hr := ih (.operation g.line g.operator t g.right)
    simpa [extend, rest, Group.terms] using hr

theorem power_extend {t : Grouping} {gs : List Group} {n : Nat} (ht : ∀ m ∈ t.power?, n ≤ m)
    (hg : ∀ g ∈ gs, n ≤ g.operator.power) : ∀ m ∈ (t.extend gs).power?, n ≤ m := by
  induction gs generalizing t with
  | nil => exact ht
  | cons g gs ih =>
    obtain ⟨hfirst, hrest⟩ := List.forall_mem_cons.mp hg
    refine ih (t := .operation g.line g.operator t g.right) ?_ hrest
    intro m hm
    cases hm
    exact hfirst

/-- Groups of falling power behind a grouping make a grouping, if none binds more tightly than it. -/
theorem grouped_extend {t : Grouping} {gs : List Group} (ht : t.Grouped) (hg : ∀ g ∈ gs, g.Grouped)
    (hf : Group.Falling gs) (hle : ∀ g ∈ gs, ∀ n ∈ t.power?, g.operator.power ≤ n) :
    (t.extend gs).Grouped := by
  induction gs generalizing t with
  | nil => exact ht
  | cons g gs ih =>
    obtain ⟨⟨hright, htight⟩, hrest⟩ := List.forall_mem_cons.mp hg
    obtain ⟨hfirst, -⟩ := List.forall_mem_cons.mp hle
    obtain ⟨hlater, hfalling⟩ := List.pairwise_cons.mp hf
    refine ih (t := .operation g.line g.operator t g.right) ⟨hfirst, htight, ht, hright⟩ hrest hfalling ?_
    intro g' hg' n hn
    cases hn
    exact hlater g' hg'

theorem grouped_extend_operand (e : Node) {gs : List Group} (hg : ∀ g ∈ gs, g.Grouped)
    (hf : Group.Falling gs) : ((operand e).extend gs).Grouped := by
  refine grouped_extend trivial hg hf ?_
  intro g _ n hn
  cases hn

end Grouping

def Lexeme.literal? : Lexeme → Option Literal
  | .text s => some (.text s)
  | .integer n => some (.integer n)
  | .float x => some (.float x)
  | _ => none

namespace Parser
open Parse

inductive NameAt (k : Nat) (x : String) (line : Nat) : Parser → Node → Parser → Prop
  | reference {p q t} : peek p = .ok t q →
    (∀ u ∈ t, u.lexeme ≠ .punctuation '.' ∧ u.lexeme ≠ .punctuation '(') →
    NameAt k x line p (.reference line x) q
  | call {p p' q pos args} : peek p = .ok (some ⟨.punctuation '(', pos⟩) p' →
    arguments (primary k) p' = .ok args q → NameAt k x line p (.call line x args) q
  | member {p p' q pos attr pos' t} :
    p.Drains [⟨.punctuation '.', pos⟩, ⟨.identifier attr, pos'⟩] p' → peek p' = .ok t q →
    (∀ u ∈ t, u.lexeme ≠ .punctuation '(') → NameAt k x line p (.member line x attr) q
  | memberCall {p p₁ p₂ q pos attr pos' pos'' args} :
    p.Drains [⟨.punctuation '.', pos⟩, ⟨.identifier attr, pos'⟩] p₁ →
    peek p₁ = .ok (some ⟨.punctuation '(', pos''⟩) p₂ → arguments (primary k) p₂ = .ok args q →
    NameAt k x line p (.memberCall line x attr args) q

inductive OperandAt (k : Nat) : Parser → Node → Parser → Prop
  | literal {p q} {l : Lexeme} {value} (pos : Position) : peek p = .ok (some ⟨l, pos⟩) q →
    l.literal? = some value → OperandAt k p (.literal pos.line value) q.taken
  | boolean {p q} (pos : Position) (b : Bool) :
    peek p = .ok (some ⟨.identifier (if b then "true" else "false"), pos⟩) q →
    OperandAt k p (.literal pos.line (.boolean b)) q.taken
  | name {p p' q x e} (pos : Position) : peek p = .ok (some ⟨.identifier x, pos⟩) p' →
    Keyword.ofName? x = none ∨ Keyword.ofName? x = some .elseForm →
    NameAt k x pos.line p'.taken e q → OperandAt k p e q
  | nested {p p₁ p₂ q pos pos' e} : peek p = .ok (some ⟨.punctuation '(', pos⟩) p₁ →
    primary k p₁.taken = .ok (some e) p₂ → peek p₂ = .ok (some ⟨.punctuation ')', pos'⟩) q →
    OperandAt k p e (q.taken.withSemicolon true)

/-- The terms `ts` stand next, then a semicolon and nothing else. -/
inductive TermsAt (k : Nat) : Parser → List Term → Prop
  | nil {p pos} : p.Reads [⟨.punctuation ';', pos⟩] → TermsAt k p []
  | cons {p p' q o e ts} (pos : Position) : peek p = .ok (some ⟨.operator o.spelling, pos⟩) p' →
    OperandAt k p'.taken e q → TermsAt k q ts → TermsAt k p (⟨pos.line, o, e⟩ :: ts)

variable {k : Nat} {p q : Parser} {e : Node} {ts : List Term}

theorem atMark_of_peek {t : Option Token} (h : peek p = .ok t q) (c : Char) :
    atMark c p = .ok (t.any (·.lexeme == .punctuation c)) q :=
  bind_of_ok h

theorem any_eq_false {t : Option Token} {c : Char} (h : ∀ u ∈ t, u.lexeme ≠ .punctuation c) :
    t.any (·.lexeme == .punctuation c) = false := by
  cases t with
  | none => rfl
  | some u => simpa using h u rfl

/-- Behind a dot the name of the member decides. -/
theorem nameForm_of_dot {x attr : String} {line : Nat} {pos pos' : Position} {r : Parser} {node : Node}
    (hd : p.Drains [⟨.punctuation '.', pos⟩, ⟨.identifier attr, pos'⟩] q)
    (hm : (do
      if ← atMark '(' then return .memberCall line x attr (← arguments (primary k))
      return .member line x attr : Parse Node) q = .ok node r) :
    Parse.nameForm (primary k) x line p = .ok node r := by
  cases hd with
  | @cons _ p₁ _ _ _ hp hd =>
    cases hd with
    | @cons _ p₂ _ _ _ hp' hd =>
      cases hd
      have hdot := atMark_of_peek hp '.'
      have ha := advance_of_shows (shows_of_peek hp)
      have ha' := advance_of_peek hp'
      exact (bind_of_ok hdot).trans ((bind_of_ok ha).trans ((bind_of_ok ha').trans hm))

theorem NameAt.nameForm {x : String} {line : Nat} (h : NameAt k x line p e q) :
    Parse.nameForm (primary k) x line p = .ok e q := by
  cases h with
  | reference hp ht =>
    have hdot := atMark_of_peek hp '.'
    have hpar := atMark_of_peek (peek_of_shows (shows_of_peek hp)) '('
    rw [any_eq_false fun u hu => (ht u hu).1] at hdot
    rw [any_eq_false fun u hu => (ht u hu).2] at hpar
    exact (bind_of_ok hdot).trans (bind_of_ok hpar)
  | call hp ha =>
    have hdot := atMark_of_peek hp '.'
    have hpar := atMark_of_peek (peek_of_shows (shows_of_peek hp)) '('
    exact (bind_of_ok hdot).trans ((bind_of_ok hpar).trans (bind_of_ok ha))
  | member hd hp ht =>
    have hpar := atMark_of_peek hp '('
    rw [any_eq_false ht] at hpar
    exact nameForm_of_dot hd (bind_of_ok hpar)
  | memberCall hd hp ha =>
    have hpar := atMark_of_peek hp '('
    exact nameForm_of_dot hd ((bind_of_ok hpar).trans (bind_of_ok ha))

theorem skip_of_peek {c : Char} {pos : Position} (h : peek p = .ok (some ⟨.punctuation c, pos⟩) q) :
    skip c p = .ok () q.taken := by
  have hm := atMark_of_peek h c
  have ha := advance_of_shows (shows_of_peek h)
  have hc : (some (Token.mk (.punctuation c) pos)).any (·.lexeme == .punctuation c) = true := by simp
  rw [hc] at hm
  exact (bind_of_ok hm).trans (bind_of_ok ha)

theorem operand_of_word {x : String} {pos : Position} {r : Parser}
    (hp : peek p = .ok (some ⟨.identifier x, pos⟩) q)
    (hf : namedForm (primary k) x pos.line q.taken = .ok e r) :
    Parse.operand (primary k) p = .ok (some e) r := by
  have ha := advance_of_shows (shows_of_peek hp)
  exact (bind_of_ok hp).trans ((bind_of_ok ha).trans (map_of_ok hf))

/-- At an operand the parser reads it. -/
theorem OperandAt.operand (h : OperandAt k p e q) : Parse.operand (primary k) p = .ok (some e) q := by
  cases h with
  | @literal q l value pos hp hv =>
    have ha := advance_of_shows (shows_of_peek hp)
    refine (bind_of_ok hp).trans ?_
    cases l with
    | text _ | integer _ | float _ =>
      cases hv
      exact bind_of_ok ha
    | _ => cases hv
  | boolean pos b hp =>
    refine operand_of_word hp ?_
    cases b <;> rfl
  | name pos hp hx hn =>
    refine operand_of_word hp ?_
    rw [namedForm_of_unreserved _ hx]
    exact hn.nameForm
  | @nested p₁ p₂ q pos pos' _ hp he hq =>
    have hopen := skip_of_peek (peek_of_shows (shows_of_peek hp))
    have hclose := skip_of_peek hq
    have hpar : parenthesis (primary k) p₁ = .ok e (q.taken.withSemicolon true) :=
      (bind_of_ok hopen).trans ((bind_of_ok he).trans (bind_of_ok hclose))
    exact (bind_of_ok hp).trans (map_of_ok hpar)

/-- An argument list asks for a semicolon again. -/
theorem semicolon_of_arguments {sub : Parse (Option Node)} {args : List Node}
    (h : arguments sub p = .ok args q) : q.needsSemicolon = true := by
  obtain ⟨_, p₁, -, h⟩ := ok_of_bind h
  obtain ⟨as, p₂, -, h⟩ := ok_of_bind h
  obtain ⟨_, p₃, -, h⟩ := ok_of_bind h
  obtain ⟨_, p₄, hs, h⟩ := ok_of_bind h
  cases hs
  cases h
  rfl

theorem semicolon_of_drains {us : List Token} (h : p.Drains us q) :
    q.needsSemicolon = p.needsSemicolon := by
  induction h with
  | nil => rfl
  | cons hp _ ih => rw [ih, taken_needsSemicolon, semicolon_of_peek hp]

theorem NameAt.semicolon {x : String} {line : Nat} (h : NameAt k x line p e q)
    (hp : p.needsSemicolon = true) : q.needsSemicolon = true := by
  cases h with
  | reference hpeek _ => rw [semicolon_of_peek hpeek, hp]
  | call _ ha => exact semicolon_of_arguments ha
  | member hd hpeek _ => rw [semicolon_of_peek hpeek, semicolon_of_drains hd, hp]
  | memberCall _ _ ha => exact semicolon_of_arguments ha

/-- An operand does not waive a semicolon that was asked for. -/
theorem OperandAt.semicolon (h : OperandAt k p e q) (hp : p.needsSemicolon = true) :
    q.needsSemicolon = true := by
  cases h with
  | literal _ hpeek _ => rw [taken_needsSemicolon, semicolon_of_peek hpeek, hp]
  | boolean _ b hpeek => rw [taken_needsSemicolon, semicolon_of_peek hpeek, hp]
  | name _ hpeek _ hn =>
    refine hn.semicolon ?_
    rw [taken_needsSemicolon, semicolon_of_peek hpeek, hp]
  | nested _ _ _ => rfl

/-- An operand takes something of the text. -/
theorem OperandAt.size_lt (h : OperandAt k p e q) : q.size < p.size := by
  have hm : p.Moved 0 p := ⟨⟨rfl, rfl⟩, rfl, rfl⟩
  have hr := Simulation.runs_operand (Simulation.primary_subRule (moved 0) k) hm
  unfold Simulation.Runs at hr
  rw [h.operand] at hr
  obtain ⟨-, b, q', -, -, hf⟩ := hr
  cases hf with
  | some _ _ hlt _ => exact hlt

/-- The operator that comes next is the one of the first term, if there is any. -/
theorem TermsAt.operatorAhead (h : TermsAt k p ts) :
    ∃ q, Parse.operatorAhead p =
        .ok (ts.head?.map fun t => ⟨t.operator.spelling, t.operator.power, t.line⟩) q ∧
      TermsAt k q ts ∧ q.needsSemicolon = p.needsSemicolon ∧ q.size ≤ p.size := by
  cases h with
  | nil hr =>
    obtain ⟨q, hp, hq⟩ := hr.peek
    exact ⟨q, bind_of_ok hp, .nil hq, semicolon_of_peek hp, size_peek_le hp⟩
  | @cons _ q _ o e ts pos hp he hts =>
    have ho : Parse.operatorAhead p = .ok ((Operator.power? o.spelling).map
        fun power => ⟨o.spelling, power, pos.line⟩) q := bind_of_ok hp
    have hpower : Operator.power? o.spelling = some o.power := by
      rw [Operator.power?, Operator.ofSpelling?_spelling]
      rfl
    rw [hpower] at ho
    have hts' := TermsAt.cons pos (peek_of_shows (shows_of_peek hp)) he hts
    exact ⟨q, ho, hts', semicolon_of_peek hp, size_peek_le hp⟩

/-- What reading operators from a floor on leaves of a chain: the groups take its first terms, and what
is left begins below the floor. -/
structure Collected (k floor : Nat) (ts : List Term) (gs : List Group) (q : Parser) : Prop where
  floor_le : ∀ g ∈ gs, floor ≤ g.operator.power
  grouped : ∀ g ∈ gs, g.Grouped
  falling : Group.Falling gs
  rest : ∃ us, ts = gs.flatMap Group.terms ++ us ∧ TermsAt k q us ∧
    ∀ u ∈ us.head?, u.operator.power < floor
  semicolon : q.needsSemicolon = true

theorem Collected.nil {floor : Nat} (h : TermsAt k p ts) (hp : p.needsSemicolon = true)
    (hf : ∀ t ∈ ts.head?, t.operator.power < floor) : Collected k floor ts [] p where
  floor_le _ hg := by cases hg
  grouped _ hg := by cases hg
  falling := .nil
  rest := ⟨ts, rfl, h, hf⟩
  semicolon := hp

/-- One more operator in front: its right operand takes in what binds tighter. -/
theorem Collected.cons {floor line : Nat} {o : Operator} {us : List Term} {inner gs : List Group}
    {r : Parser} (ho : floor ≤ o.power) (hi : Collected k (o.power + 1) ts inner q)
    (hts : ts = inner.flatMap Group.terms ++ us) (hus : ∀ u ∈ us.head?, u.operator.power < o.power + 1)
    (hg : Collected k floor us gs r) :
    Collected k floor (⟨line, o, e⟩ :: ts) (⟨line, o, (Grouping.operand e).extend inner⟩ :: gs) r where
  floor_le := List.forall_mem_cons.mpr ⟨ho, hg.floor_le⟩
  grouped := by
    have hright := Grouping.grouped_extend_operand e hi.grouped hi.falling
    -- What the right operand took in was read from a floor above this operator.
    have htight : ∀ n ∈ ((Grouping.operand e).extend inner).power?, o.power + 1 ≤ n := by
      refine Grouping.power_extend ?_ hi.floor_le
      intro n hn
      cases hn
    exact List.forall_mem_cons.mpr ⟨⟨hright, htight⟩, hg.grouped⟩
  falling := by
    -- The right operand stopped at the first operator that does not bind tighter than this one.
    obtain ⟨vs, hvs, -⟩ := hg.rest
    have hle := hg.falling.le hvs fun u hu => Nat.le_of_lt_succ (hus u hu)
    exact List.pairwise_cons.mpr ⟨hle, hg.falling⟩
  rest := by
    obtain ⟨vs, hvs, hat, hlow⟩ := hg.rest
    refine ⟨vs, ?_, hat, hlow⟩
    simp [Group.terms, Grouping.first_extend, Grouping.rest_extend, Grouping.first, Grouping.rest, hts,
      hvs]
  semicolon := hg.semicolon

/-- An operator that binds tight enough is taken with its right operand, and the others follow. -/
theorem links_of_operator {sub : Parse (Option Node)} {fuel floor : Nat} {p₁ p₂ p₃ p₄ p₅ p₆ : Parser}
    {op : Ahead} {next : Option Ahead} {t : Option Token} {right : Node} {inner later : List Link}
    (ho : Parse.operatorAhead p = .ok (some op) p₁) (hf : ¬op.power < floor)
    (ht : advance p₁ = .ok t p₂) (hr : Parse.operand sub p₂ = .ok (some right) p₃)
    (hn : Parse.operatorAhead p₃ = .ok next p₄)
    (hi : (if next.any (fun n => op.power < n.power) then Parse.links sub fuel (op.power + 1)
      else pure []) p₄ = .ok inner p₅)
    (hl : Parse.links sub fuel floor p₅ = .ok later p₆) :
    Parse.links sub (fuel + 1) floor p =
      .ok (⟨op.spelling, op.line, right.extend inner⟩ :: later) p₆ := by
  refine (bind_of_ok ho).trans ?_
  simp only [if_neg hf]
  refine (bind_of_ok ht).trans ((bind_of_ok hr).trans ((bind_of_ok hn).trans ?_))
  by_cases htight : (next.any fun n => op.power < n.power) = true
  · simp only [if_pos htight] at hi ⊢
    exact (bind_of_ok hi).trans (bind_of_ok hl)
  · simp only [if_neg htight] at hi ⊢
    cases hi
    exact bind_of_ok hl

/-- The links read are the groups that the powers of the operators ask for. -/
theorem TermsAt.links {fuel : Nat} (floor : Nat) (h : TermsAt k p ts) (hf : p.size < fuel)
    (hp : p.needsSemicolon = true) :
    ∃ gs q, Parse.links (primary k) fuel floor p = .ok (gs.map Group.toLink) q ∧
      Collected k floor ts gs q ∧ q.size ≤ p.size := by
  induction fuel generalizing p ts floor with
  | zero => omega
  | succ fuel ih =>
    obtain ⟨p₁, hop, h₁, hb₁, hs₁⟩ := h.operatorAhead
    rw [hp] at hb₁
    cases h₁ with
    | nil hr => exact ⟨[], p₁, bind_of_ok hop, .nil (.nil hr) hb₁ (by simp), hs₁⟩
    | @cons _ p₂ q o e ts pos hpeek he hts =>
      by_cases hlow : o.power < floor
      · have hnone : Parse.links (primary k) (fuel + 1) floor p = .ok [] p₁ := by
          refine (bind_of_ok hop).trans ?_
          simp only [List.head?_cons, Option.map_some, if_pos hlow]
          rfl
        exact ⟨[], p₁, hnone, .nil (.cons pos hpeek he hts) hb₁ (by simpa using hlow), hs₁⟩
      · -- The right operand takes in what binds tighter, and from there the floor is as before.
        have hsize := he.size_lt
        have hsize₂ := (shows_of_peek hpeek).size_taken_lt
        have hsize₁ := size_peek_le hpeek
        have hflag : q.needsSemicolon = true := by
          refine he.semicolon ?_
          rw [taken_needsSemicolon, semicolon_of_peek hpeek, hb₁]
        obtain ⟨q₁, hnext, hts₁, hb, hs⟩ := hts.operatorAhead
        rw [hflag] at hb
        have hinner : ∃ inner q₂,
            (if (ts.head?.map fun t => (⟨t.operator.spelling, t.operator.power, t.line⟩ : Ahead)).any
              (fun n => o.power < n.power) then Parse.links (primary k) fuel (o.power + 1)
              else pure []) q₁ = .ok (inner.map Group.toLink) q₂ ∧
            Collected k (o.power + 1) ts inner q₂ ∧ q₂.size ≤ q₁.size := by
          split
          · exact ih (o.power + 1) hts₁ (by omega) hb
          · next htight =>
            refine ⟨[], q₁, rfl, .nil hts₁ hb ?_, Nat.le_refl _⟩
            cases ts with
            | nil => simp
            | cons t ts => simpa using htight
        obtain ⟨inner, q₂, hi, hci, hs₂⟩ := hinner
        obtain ⟨us, hus, hat, hless⟩ := hci.rest
        obtain ⟨gs, q₃, hl, hcg, hs₃⟩ := ih floor hat (by omega) hci.semicolon
        have hlinks := links_of_operator hop hlow (advance_of_peek hpeek) he.operand hnext hi hl
        refine ⟨_, q₃, hlinks.trans ?_, .cons (Nat.le_of_not_lt hlow) hci hus hless hcg, by omega⟩
        simp [Group.toLink, Grouping.toNode_extend, Grouping.toNode]

def Chain (p : Parser) (k : Nat) (e : Node) (ts : List Term) : Prop :=
  ∃ q, OperandAt k p e q ∧ TermsAt k q ts

/-- A chain is read as a grouping of it. -/
theorem Chain.primary (h : p.Chain k e ts) (hp : p.needsSemicolon = true) :
    ∃ (t : Grouping) (q : Parser), Parse.primary (k + 1) p = .ok (some t.toNode) q ∧ t.first = e ∧
      t.rest = ts ∧ t.Grouped ∧ q.needsSemicolon = true ∧ q.size < p.size ∧
      ∃ pos, q.Reads [⟨.punctuation ';', pos⟩] := by
  obtain ⟨q, he, hts⟩ := h
  have hsize := he.size_lt
  obtain ⟨gs, r, hl, hc, hs⟩ := hts.links 0 (Nat.lt_succ_self q.size) (he.semicolon hp)
  obtain ⟨us, hus, hat, hless⟩ := hc.rest
  have hlinks : bounded (fun fuel => Parse.links (Parse.primary k) fuel 0) q =
      .ok (gs.map Group.toLink) r := hl
  have hp : Parse.primary (k + 1) p = .ok (some (((Grouping.operand e).extend gs).toNode)) r := by
    rw [Grouping.toNode_extend]
    exact (bind_of_ok he.operand).trans (bind_of_ok hlinks)
  cases hat with
  | nil hr =>
    refine ⟨_, r, hp, Grouping.first_extend _ _, ?_,
      Grouping.grouped_extend_operand e hc.grouped hc.falling, hc.semicolon, by omega, _, hr⟩
    rw [Grouping.rest_extend, hus]
    simp [Grouping.rest]
  | cons _ _ _ _ => cases Nat.not_lt_zero _ (hless _ rfl)

/-- Behind the last semicolon there is nothing more to parse. -/
theorem statements_of_last (fuel : Nat) {node : Node} {pos : Position}
    (h : Parse.primary (k + 1) p = .ok (some node) q) (hq : q.needsSemicolon = true)
    (hr : q.Reads [⟨.punctuation ';', pos⟩]) :
    ∃ r, Parse.statements (k + 1) (fuel + 2) p = .ok [node] r := by
  obtain ⟨q₁, hpeek, hend⟩ := hr.uncons
  have hstatement : Parse.next (k + 1) p = .ok (some node) q₁.taken := by
    refine (bind_of_ok h).trans ?_
    have hget : (get : Parse Parser) q = .ok q q := rfl
    refine (bind_of_ok hget).trans ?_
    simp only [if_pos hq]
    exact bind_of_ok (skip_of_peek hpeek)
  obtain ⟨r, hnone⟩ := Simulation.expression_of_ended (Parse.primary k) hend.ended
  have hlast : Parse.next (k + 1) q₁.taken = .ok none r := bind_of_ok hnone
  have hrest : Parse.statements (k + 1) (fuel + 1) q₁.taken = .ok [] r := bind_of_ok hlast
  exact ⟨r, (bind_of_ok hstatement).trans (bind_of_ok hrest)⟩

/-- A chain of operands is parsed to the one tree that has its operands and operators in order, in which
the operators on the left of another bind at least as tight as it and those on its right tighter. -/
theorem parse_chain {text file : String} (h : (ofText text file).Chain k e ts) :
    ∃ t : Grouping, parse (k + 1) text file = .ok [t.toNode] ∧ t.first = e ∧ t.rest = ts ∧ t.Grouped ∧
      ∀ u : Grouping, u.first = e → u.rest = ts → u.Grouped → u = t := by
  obtain ⟨t, q, hp, hfirst, hrest, hg, hq, hlt, pos, hr⟩ := Chain.primary h rfl
  obtain ⟨n, hn⟩ : ∃ n, (ofText text file).size = n + 1 := ⟨(ofText text file).size - 1, by omega⟩
  obtain ⟨r, hs⟩ := statements_of_last n hp hq hr
  refine ⟨t, ?_, hfirst, hrest, hg, ?_⟩
  · rw [parse_eq, hn, hs]
  · intro u huf hur hu
    exact hu.unique hg (huf.trans hfirst.symm) (hur.trans hrest.symm)

theorem parse_chain_of_rise_and_fall :
    parse 3 "a - b * 2 < (c + 1) - f(1);" "f" =
      .ok [.binary 1 "<"
        (some (.binary 1 "-" (some (.reference 1 "a"))
          (some (.binary 1 "*" (some (.reference 1 "b")) (some (.literal 1 (.integer 2)))))))
        (some (.binary 1 "-"
          (some (.binary 1 "+" (some (.reference 1 "c")) (some (.literal 1 (.integer 1)))))
          (some (.call 1 "f" [.literal 1 (.integer 1)]))))] := by
  have hchain : (ofText "a - b * 2 < (c + 1) - f(1);" "f").Chain 2 (.reference 1 "a")
      [⟨1, .arithmetic .sub, .reference 1 "b"⟩, ⟨1, .arithmetic .mul, .literal 1 (.integer 2)⟩,
        ⟨1, .comparison .lt,
          .binary 1 "+" (some (.reference 1 "c")) (some (.literal 1 (.integer 1)))⟩,
        ⟨1, .arithmetic .sub, .call 1 "f" [.literal 1 (.integer 1)]⟩] := by
    refine ⟨_, .name ⟨1, 0⟩ (by cbv) (Or.inl (by decide)) (.reference (by cbv) (by simp)), ?_⟩
    refine .cons ⟨1, 2⟩ (by cbv)
      (.name ⟨1, 4⟩ (by cbv) (Or.inl (by decide)) (.reference (by cbv) (by simp))) ?_
    refine .cons ⟨1, 6⟩ (by cbv) (.literal ⟨1, 8⟩ (by cbv) rfl) ?_
    refine .cons ⟨1, 10⟩ (by cbv) (.nested (by cbv) (by cbv) (by cbv)) ?_
    refine .cons ⟨1, 20⟩ (by cbv)
      (.name ⟨1, 22⟩ (by cbv) (Or.inl (by decide)) (.call (by cbv) (by cbv))) ?_
    exact .nil (significant_eq_ok_iff.mp (by cbv))
  obtain ⟨t, hparse, -, -, -, hunique⟩ := parse_chain hchain
  have ht := hunique (.operation 1 (.comparison .lt)
    (.operation 1 (.arithmetic .sub) (.operand (.reference 1 "a"))
      (.operation 1 (.arithmetic .mul) (.operand (.reference 1 "b")) (.operand (.literal 1 (.integer 2)))))
    (.operation 1 (.arithmetic .sub)
      (.operand (.binary 1 "+" (some (.reference 1 "c")) (some (.literal 1 (.integer 1)))))
      (.operand (.call 1 "f" [.literal 1 (.integer 1)])))) rfl rfl
    (by simp [Grouping.Grouped, Grouping.power?, Operator.power])
  rw [hparse, ← ht]
  rfl

end Parser
end ScriptLang
