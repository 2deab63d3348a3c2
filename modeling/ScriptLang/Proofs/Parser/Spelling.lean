import ScriptLang.Proofs.Lexer.Source
import ScriptLang.Parser.Grammar

/-! How programs are written: the lexemes of every form of the language, with nested operations in
parentheses. A last branch that is always taken may be written with `else` alone. -/
namespace ScriptLang

mutual

def Node.height : Node → Nat
  | .literal .. | .reference .. | .declaration .. | .member .. | .breaking _ | .continuing _
  | .struct .. => 1
  | .binary _ _ left right => max (Node.heightOption left) (Node.heightOption right) + 1
  | .call _ _ args | .memberCall _ _ _ args => Node.heightList args + 1
  | .function _ header body => max (min header.params.length 1) (Node.heightList body) + 1
  | .conditional _ branches => Node.heightBranches branches + 1
  | .loop _ condition body => max condition.height (Node.heightList body) + 1
  | .returning _ value => Node.heightOption value + 1

def Node.heightOption : Option Node → Nat
  | none => 0
  | some node => node.height

def Node.heightList : List Node → Nat
  | [] => 0
  | node :: nodes => max node.height (Node.heightList nodes)

def Branch.height : Branch → Nat
  | .mk _ condition body => max condition.height (Node.heightList body)

def Node.heightBranches : List Branch → Nat
  | [] => 0
  | branch :: branches => max branch.height (Node.heightBranches branches)

end

namespace Spelling

def Name (s : String) : Prop :=
  IsName s ∧ Keyword.ofName? s = none

abbrev mark (c : Char) : Lexeme :=
  .punctuation c

abbrev word (s : String) : Lexeme :=
  .identifier s

mutual

inductive Atom : Node → List Lexeme → Prop
  | text (line : Nat) (s : String) : Atom (.literal line (.text s)) [.text s]
  | boolean (line : Nat) (b : Bool) :
    Atom (.literal line (.boolean b)) [word (if b then "true" else "false")]
  | integer {n : Nat} (line : Nat) : Range.contains n = true →
    Atom (.literal line (.integer n)) [.integer n]
  | reference {x : String} (line : Nat) : Name x → Atom (.reference line x) [word x]
  | call {f : String} {args : List Node} {ls : List Lexeme} (line : Nat) : Name f →
    Arguments args ls → Atom (.call line f args) (word f :: ls)
  | member {x attr : String} (line : Nat) : Name x → Name attr →
    Atom (.member line x attr) [word x, mark '.', word attr]
  | memberCall {x attr : String} {args : List Node} {ls : List Lexeme} (line : Nat) : Name x →
    Name attr → Arguments args ls →
    Atom (.memberCall line x attr args) (word x :: mark '.' :: word attr :: ls)

/-- An operation inside another one stands in parentheses. -/
inductive Operand : Node → List Lexeme → Prop
  | atom {e : Node} {ls : List Lexeme} : Atom e ls → Operand e ls
  | nested {e : Node} {ls : List Lexeme} : Operation e ls →
    Operand e (mark '(' :: (ls ++ [mark ')']))

inductive Operation : Node → List Lexeme → Prop
  | binary {left right : Node} {as bs : List Lexeme} (line : Nat) (o : Operator) :
    Operand left as → Operand right bs →
    Operation (.binary line o.spelling (some left) (some right)) (as ++ .operator o.spelling :: bs)
  | declaration {x : String} {right : Node} {bs : List Lexeme} (line line' : Nat) : Name x →
    Operand right bs →
    Operation (.binary line Operator.assign.spelling (some (.declaration line' x)) (some right))
      (word "let" :: word x :: .operator Operator.assign.spelling :: bs)

inductive Expression : Node → List Lexeme → Prop
  | atom {e : Node} {ls : List Lexeme} : Atom e ls → Expression e ls
  | operation {e : Node} {ls : List Lexeme} : Operation e ls → Expression e ls

inductive Arguments : List Node → List Lexeme → Prop
  | none : Arguments [] [mark '(', mark ')']
  | some {es : List Node} {ls : List Lexeme} : Listed es ls →
    Arguments es (mark '(' :: (ls ++ [mark ')']))

inductive Listed : List Node → List Lexeme → Prop
  | last {e : Node} {ls : List Lexeme} : Expression e ls → Listed [e] ls
  | cons {e : Node} {es : List Node} {ls ms : List Lexeme} : Expression e ls → Listed es ms →
    Listed (e :: es) (ls ++ mark ',' :: ms)

end

mutual

inductive Statement : Node → List Lexeme → Prop
  | expression {e : Node} {ls : List Lexeme} : Expression e ls → Statement e (ls ++ [mark ';'])
  | returnNothing (line : Nat) : Statement (.returning line none) [word "return", mark ';']
  | returnValue {e : Node} {ls : List Lexeme} (line : Nat) : Expression e ls →
    Statement (.returning line (some e)) (word "return" :: (ls ++ [mark ';']))
  | breaking (line : Nat) : Statement (.breaking line) [word "break", mark ';']
  | continuing (line : Nat) : Statement (.continuing line) [word "continue", mark ';']
  /-- Parameters are written like arguments that refer to variables. -/
  | function {f : String} {params : List String} {body : List Node} {as bs : List Lexeme}
    (line line' : Nat) : Name f → Arguments (params.map (Node.reference 0)) as → Block body bs →
    Statement (.function line ⟨line', f, params, "any"⟩ body) (word "let" :: word f :: (as ++ bs))
  | conditional {c : Node} {body : List Node} {branches : List Branch} {cs bs ls : List Lexeme}
    (line line' : Nat) : Expression c cs → Block body bs → Branches branches ls →
    Statement (.conditional line (.mk line' c body :: branches))
      (word "if" :: mark '(' :: (cs ++ mark ')' :: (bs ++ ls)))
  | loop {c : Node} {body : List Node} {cs bs : List Lexeme} (line : Nat) : Expression c cs →
    Block body bs → Statement (.loop line c body) (word "while" :: mark '(' :: (cs ++ mark ')' :: bs))
  | struct {x : String} (line : Nat) : Name x →
    Statement (.struct line x) [word "struct", word x, mark '{', mark '}']

inductive Block : List Node → List Lexeme → Prop
  | mk {body : List Node} {ls : List Lexeme} : Statements body ls →
    Block body (mark '{' :: (ls ++ [mark '}']))

inductive Statements : List Node → List Lexeme → Prop
  | nil : Statements [] []
  | cons {a : Node} {as : List Node} {ls ms : List Lexeme} : Statement a ls → Statements as ms →
    Statements (a :: as) (ls ++ ms)

inductive Branches : List Branch → List Lexeme → Prop
  | nil : Branches [] []
  | elseIf {c : Node} {body : List Node} {branches : List Branch} {cs bs ls : List Lexeme}
    (line : Nat) : Expression c cs → Block body bs → Branches branches ls →
    Branches (.mk line c body :: branches)
      (word "else" :: word "if" :: mark '(' :: (cs ++ mark ')' :: (bs ++ ls)))
  | otherwise {body : List Node} {bs : List Lexeme} (line line' : Nat) : Block body bs →
    Branches [.mk line (.literal line' (.boolean true)) body] (word "else" :: bs)

end

def Begins (l : Lexeme) : Prop :=
  l.operator? = none ∧ l ≠ word "else" ∧ ∀ c, l = mark c → c = '('

def Opens (ls : List Lexeme) : Prop :=
  ∃ l rest, ls = l :: rest ∧ Begins l

theorem Opens.append {ls : List Lexeme} (h : Opens ls) (ms : List Lexeme) : Opens (ls ++ ms) := by
  obtain ⟨l, rest, rfl, hl⟩ := h
  exact ⟨l, rest ++ ms, rfl, hl⟩

theorem begins_of_name {x : String} (h : Name x) : Begins (word x) := by
  refine ⟨rfl, ?_, fun c hc => by cases hc⟩
  rintro ⟨⟩
  cases h.2

theorem Atom.opens {e : Node} {ls : List Lexeme} (h : Atom e ls) : Opens ls := by
  cases h with
  | text line s => exact ⟨_, _, rfl, rfl, by simp, by simp⟩
  | boolean line b => exact ⟨_, _, rfl, rfl, by cases b <;> simp, by simp⟩
  | integer line hn => exact ⟨_, _, rfl, rfl, by simp, by simp⟩
  | reference line hx => exact ⟨_, _, rfl, begins_of_name hx⟩
  | call line hf _ => exact ⟨_, _, rfl, begins_of_name hf⟩
  | member line hx _ => exact ⟨_, _, rfl, begins_of_name hx⟩
  | memberCall line hx _ _ => exact ⟨_, _, rfl, begins_of_name hx⟩

theorem Operand.opens {e : Node} {ls : List Lexeme} (h : Operand e ls) : Opens ls := by
  cases h with
  | atom ha => exact ha.opens
  | nested ho => exact ⟨_, _, rfl, rfl, by simp, by simp⟩

theorem Operation.opens {e : Node} {ls : List Lexeme} (h : Operation e ls) : Opens ls := by
  cases h with
  | binary line o hl hr => exact hl.opens.append _
  | declaration line line' hx hr => exact ⟨_, _, rfl, rfl, by simp, by simp⟩

/-- A printed expression opens with a lexeme that begins one. -/
theorem Expression.opens {e : Node} {ls : List Lexeme} (h : Expression e ls) : Opens ls := by
  cases h with
  | atom ha => exact ha.opens
  | operation ho => exact ho.opens

theorem Listed.opens {es : List Node} {ls : List Lexeme} (h : Listed es ls) : Opens ls := by
  cases h with
  | last he => exact he.opens
  | cons he _ => exact he.opens.append _

theorem Statement.opens {a : Node} {ls : List Lexeme} (h : Statement a ls) : Opens ls := by
  cases h with
  | expression he => exact he.opens.append _
  | _ => exact ⟨_, _, rfl, rfl, by simp, by simp⟩

def Legible (l : Lexeme) : Prop :=
  l.Plain ∧ l.isComment = false

theorem legible_mark {c : Char} (h : isPunctuation c = true) : Legible (mark c) :=
  ⟨.punctuation h, rfl⟩

theorem legible_name {x : String} (h : Name x) : Legible (word x) :=
  ⟨.identifier h.1, rfl⟩

theorem legible_operator (o : Operator) : Legible (.operator o.spelling) := by
  have h : o.spelling.toList ≠ [] ∧ o.spelling.toList.all isOperatorChar = true ∧
      (Lexeme.operator o.spelling).isComment = false := by
    have hall := Operator.mem_all o
    revert o
    decide
  exact ⟨.operator h.1 h.2.1, h.2.2⟩

/-- The words of the language are names to the scanner. -/
theorem legible_word {s : String}
    (h : s ∈ ["true", "false", "let", "if", "else", "while", "return", "break", "continue", "struct"]) :
    Legible (word s) := by
  simp only [List.mem_cons, List.not_mem_nil, or_false] at h
  rcases h with rfl | rfl | rfl | rfl | rfl | rfl | rfl | rfl | rfl | rfl <;>
    exact ⟨.identifier ⟨_, _, rfl, by decide, by decide⟩, rfl⟩

/-- Lexemes with one between them. -/
theorem legible_joined {as bs : List Lexeme} {x : Lexeme} (ha : ∀ l ∈ as, Legible l)
    (hx : Legible x) (hb : ∀ l ∈ bs, Legible l) : ∀ l ∈ as ++ x :: bs, Legible l :=
  List.forall_mem_append.mpr ⟨ha, List.forall_mem_cons.mpr ⟨hx, hb⟩⟩

/-- Lexemes with a mark at both ends. -/
theorem legible_enclosed {ls : List Lexeme} {a b : Char} (ha : isPunctuation a = true)
    (hb : isPunctuation b = true) (h : ∀ l ∈ ls, Legible l) :
    ∀ l ∈ mark a :: (ls ++ [mark b]), Legible l := by
  refine List.forall_mem_cons.mpr ⟨legible_mark ha, legible_joined h (legible_mark hb) ?_⟩
  simp

mutual

theorem Atom.legible : ∀ {e : Node} {ls : List Lexeme}, Atom e ls → ∀ l ∈ ls, Legible l
  | _, _, .text _ s => by
    simpa using ⟨.text s, rfl⟩
  | _, _, .boolean _ b => by
    have hb : Legible (word (if b then "true" else "false")) := by
      cases b <;> exact legible_word (by simp)
    simpa using hb
  | _, _, .integer _ hn => by
    simpa using ⟨.integer hn, rfl⟩
  | _, _, .reference _ hx => by
    simpa using legible_name hx
  | _, _, .call _ hf ha => by
    have hargs := Arguments.legible ha
    simpa using ⟨legible_name hf, hargs⟩
  | _, _, .member _ hx hattr => by
    simpa using ⟨legible_name hx, legible_mark (c := '.') (by decide), legible_name hattr⟩
  | _, _, .memberCall _ hx hattr ha => by
    have hargs := Arguments.legible ha
    simpa using ⟨legible_name hx, legible_mark (c := '.') (by decide), legible_name hattr, hargs⟩

theorem Operand.legible : ∀ {e : Node} {ls : List Lexeme}, Operand e ls → ∀ l ∈ ls, Legible l
  | _, _, .atom ha => Atom.legible ha
  | _, _, .nested ho => legible_enclosed (by decide) (by decide) (Operation.legible ho)

theorem Operation.legible : ∀ {e : Node} {ls : List Lexeme}, Operation e ls → ∀ l ∈ ls, Legible l
  | _, _, .binary _ o hl hr =>
    legible_joined (Operand.legible hl) (legible_operator o) (Operand.legible hr)
  | _, _, .declaration _ _ hx hr => by
    have hbs := Operand.legible hr
    have hlet := legible_word (s := "let") (by simp)
    simpa using ⟨hlet, legible_name hx, legible_operator .assign, hbs⟩

theorem Expression.legible : ∀ {e : Node} {ls : List Lexeme}, Expression e ls → ∀ l ∈ ls, Legible l
  | _, _, .atom ha => Atom.legible ha
  | _, _, .operation ho => Operation.legible ho

theorem Arguments.legible : ∀ {es : List Node} {ls : List Lexeme}, Arguments es ls →
    ∀ l ∈ ls, Legible l
  | _, _, .none => by
    simpa using ⟨legible_mark (c := '(') (by decide), legible_mark (c := ')') (by decide)⟩
  | _, _, .some hl => legible_enclosed (by decide) (by decide) (Listed.legible hl)

theorem Listed.legible : ∀ {es : List Node} {ls : List Lexeme}, Listed es ls → ∀ l ∈ ls, Legible l
  | _, _, .last he => Expression.legible he
  | _, _, .cons he hes =>
    legible_joined (Expression.legible he) (legible_mark (by decide)) (Listed.legible hes)

end

/-- The condition in front of a block, behind the words that announce it. -/
theorem legible_guarded {c : Node} {cs ls : List Lexeme} (hc : Expression c cs)
    (hl : ∀ l ∈ ls, Legible l) : ∀ l ∈ mark '(' :: (cs ++ mark ')' :: ls), Legible l :=
  List.forall_mem_cons.mpr
    ⟨legible_mark (by decide), legible_joined hc.legible (legible_mark (by decide)) hl⟩

mutual

theorem Statement.legible : ∀ {a : Node} {ls : List Lexeme}, Statement a ls → ∀ l ∈ ls, Legible l
  | _, _, .expression he =>
    legible_joined he.legible (legible_mark (by decide)) (by simp)
  | _, _, .returnNothing _ => by
    simpa using ⟨legible_word (s := "return") (by simp), legible_mark (c := ';') (by decide)⟩
  | _, _, .returnValue _ he =>
    List.forall_mem_cons.mpr ⟨legible_word (by simp),
      legible_joined he.legible (legible_mark (by decide)) (by simp)⟩
  | _, _, .breaking _ => by
    simpa using ⟨legible_word (s := "break") (by simp), legible_mark (c := ';') (by decide)⟩
  | _, _, .continuing _ => by
    simpa using ⟨legible_word (s := "continue") (by simp), legible_mark (c := ';') (by decide)⟩
  | _, _, .function _ _ hf ha hb => by
    have hall := List.forall_mem_append.mpr ⟨ha.legible, Block.legible hb⟩
    exact List.forall_mem_cons.mpr ⟨legible_word (by simp),
      List.forall_mem_cons.mpr ⟨legible_name hf, hall⟩⟩
  | _, _, .conditional _ _ hc hb hbs => by
    have hall := List.forall_mem_append.mpr ⟨Block.legible hb, Branches.legible hbs⟩
    exact List.forall_mem_cons.mpr ⟨legible_word (by simp), legible_guarded hc hall⟩
  | _, _, .loop _ hc hb =>
    List.forall_mem_cons.mpr ⟨legible_word (by simp), legible_guarded hc (Block.legible hb)⟩
  | _, _, .struct _ hx => by
    simpa using ⟨legible_word (s := "struct") (by simp), legible_name hx,
      legible_mark (c := '{') (by decide), legible_mark (c := '}') (by decide)⟩

theorem Block.legible : ∀ {body : List Node} {ls : List Lexeme}, Block body ls → ∀ l ∈ ls, Legible l
  | _, _, .mk hs => legible_enclosed (by decide) (by decide) (Statements.legible hs)

/-- A printed program holds only lexemes that are read back from their source. -/
theorem Statements.legible : ∀ {as : List Node} {ls : List Lexeme}, Statements as ls →
    ∀ l ∈ ls, Legible l
  | _, _, .nil => by simp
  | _, _, .cons ha has => List.forall_mem_append.mpr ⟨Statement.legible ha, Statements.legible has⟩

theorem Branches.legible : ∀ {bs : List Branch} {ls : List Lexeme}, Branches bs ls →
    ∀ l ∈ ls, Legible l
  | _, _, .nil => by simp
  | _, _, .elseIf _ hc hb hbs => by
    have hall := List.forall_mem_append.mpr ⟨Block.legible hb, Branches.legible hbs⟩
    exact List.forall_mem_cons.mpr ⟨legible_word (by simp),
      List.forall_mem_cons.mpr ⟨legible_word (by simp), legible_guarded hc hall⟩⟩
  | _, _, .otherwise _ _ hb =>
    List.forall_mem_cons.mpr ⟨legible_word (by simp), Block.legible hb⟩

end

end Spelling
end ScriptLang
