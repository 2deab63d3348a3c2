import ScriptLang.Proofs.Parser.Places
import ScriptLang.Proofs.Server.Histories

/-! Where symbols point in their text. Every token is placed where it is written, so the symbol of a function
or a struct points at the line of its name, and that of a variable at the line of the operator that gives it
a value. -/
namespace ScriptLang

/-- A name is written as it is. -/
theorem Longest.written_of_identifier {name : String} {written rest : List Char}
    (h : Longest (.identifier name) written rest) : written = name.toList := by
  generalize hl : Lexeme.identifier name = l at h
  cases h with
  | identifier _ _ _ =>
    cases hl
    rw [String.toList_ofList]
  | _ => cases hl

/-- A token that is read from within a text is written there. -/
theorem Cursor.Reaches.writtenBehind {text file : String} {c d : Cursor} {t : Token}
    (hc : (Cursor.ofText text file).Reaches c) (h : readSignificant c = .ok (some t) d) :
    ∃ before, t.WrittenBehind before text.toList := by
  obtain ⟨e, written, he, hplace, hlongest, hfront, -, -⟩ := written_of_readSignificant h
  obtain ⟨passed, hrest, hpos, -⟩ := hc.trans he
  refine ⟨passed, written, d.rest, ?_, hlongest, ?_⟩
  · rw [← hfront]
    exact hrest
  · rw [hplace, hpos, ← Position.start_after]
    rfl

namespace Parser

structure Within (text file : String) (p : Parser) : Prop where
  reaches : (Cursor.ofText text file).Reaches p.lexer.cursor
  ahead : ∀ t, p.lexer.ahead = some (some t) → ∃ before, t.WrittenBehind before text.toList

variable {text file : String} {p q : Parser} {ts : List Token}

theorem within_ofText (text file : String) : (ofText text file).Within text file :=
  ⟨⟨[], rfl, rfl, rfl⟩, nofun⟩

/-- Looking ahead keeps every token in its place in the text. -/
theorem Within.peek {t : Option Token} (h : p.Within text file) (hp : Parse.peek p = .ok t q) :
    q.Within text file := by
  rcases peek_cases p with ⟨u, hu⟩ | ⟨c, hc, hr⟩
  · cases hu.symm.trans hp
    exact h
  · rw [hr] at hp
    cases hs : c.readSignificant with
    | error fault d =>
      rw [hs] at hp
      cases hp
    | ok u d =>
      rw [hs] at hp
      cases hp
      have hread := h.reaches.trans hc
      refine ⟨hread.trans (Cursor.reaches_of_readSignificant hs), ?_⟩
      rintro t ⟨⟩
      exact hread.writtenBehind hs

/-- Every token that is taken is written in the text. -/
theorem Took.writtenBehind (h : p.Took ts q) (hp : p.Within text file) :
    q.Within text file ∧ ∀ t ∈ ts, ∃ before, t.WrittenBehind before text.toList := by
  induction h with
  | refl => exact ⟨hp, List.forall_mem_nil _⟩
  | peek hpeek _ ih => exact ih (hp.peek hpeek)
  | take hs _ ih =>
    obtain ⟨hq, hts⟩ := ih ⟨hp.reaches, nofun⟩
    exact ⟨hq, List.forall_mem_cons.mpr ⟨hp.ahead _ hs.ahead, hts⟩⟩
  | tell needed _ ih => exact ih ⟨hp.reaches, hp.ahead⟩

/-- The tokens `ts` behind `earlier` ones are those of a statement that is read as the node. -/
def Statement (nesting : Nat) (p : Parser) (earlier ts : List Token) (node : Node) : Prop :=
  ∃ q r, p.Took earlier q ∧ Parse.next nesting q = .ok (some node) r ∧ q.Took ts r

/-- Each of the nodes of a text is read from a statement, also where a later one is not a statement at all. -/
theorem exists_statement_of_mem_drainFrom {nesting fuel : Nat} {node : Node}
    (h : node ∈ (drainFrom nesting fuel p).1) :
    ∃ earlier ts us, Statement nesting p earlier (ts ++ us) node ∧ node.StemsFrom ts := by
  induction fuel generalizing p with
  | zero => cases h
  | succ fuel ih =>
    unfold drainFrom at h
    cases hn : Parse.next nesting p with
    | error fault p' =>
      rw [hn] at h
      cases h
    | ok a p' =>
      rw [hn] at h
      cases a with
      | none => cases h
      | some first =>
        obtain ⟨_, htook, hstated⟩ := (Parse.traced_next nesting p).of_ok hn
        rcases List.mem_cons.mp h with rfl | hrest
        · obtain ⟨ts, us, rfl, hstem⟩ := hstated.stems _ rfl
          exact ⟨[], ts, us, ⟨p, p', .refl, hn, htook⟩, hstem⟩
        · obtain ⟨earlier, vs, ws, ⟨q, r, hearlier, hnext, hq⟩, hstem'⟩ := ih hrest
          exact ⟨_, vs, ws, ⟨q, r, htook.trans hearlier, hnext, hq⟩, hstem'⟩

end Parser

namespace Symbol

/-- Where a symbol points: `ts` are the tokens of a statement that declares its name. -/
inductive PointsInto (text : List Char) (s : Symbol) (ts : List Token) : Prop
  /-- Functions and structs are declared where their name is written. -/
  | name {keyword : String} {before : List Char} {rest : List Token} :
    (s.kind = .function ∧ keyword = "let") ∨ (s.kind = .struct ∧ keyword = "struct") →
    Announces keyword s.name (.behind before) rest ts →
    (⟨.identifier s.name, .behind before⟩ : Token).WrittenBehind before text →
    s.line = before.count '\n' → PointsInto text s ts
  /-- Variables count as declared where the operator is written that gives them their value. -/
  | value {before beforeMark : List Char} {closing rest : List Token} : s.kind = .variable →
    Closing closing →
    Announces "let" s.name (.behind before) (closing ++ ⟨.operator "=", .behind beforeMark⟩ :: rest) ts →
    (⟨.identifier s.name, .behind before⟩ : Token).WrittenBehind before text →
    (⟨.operator "=", .behind beforeMark⟩ : Token).WrittenBehind beforeMark text →
    s.line = beforeMark.count '\n' → PointsInto text s ts

end Symbol

theorem Token.WrittenBehind.pos_eq {t : Token} {before text : List Char} (h : t.WrittenBehind before text) :
    t.pos = .behind before := by
  obtain ⟨written, rest, -, -, hpos⟩ := h
  exact hpos

theorem Position.line_behind (before : List Char) : (behind before).line - 1 = before.count '\n' :=
  Nat.add_sub_cancel_left 1 _

theorem Announces.mem {keyword name : String} {pos : Position} {rest ts : List Token}
    (h : Announces keyword name pos rest ts) : ∀ t ∈ ⟨.identifier name, pos⟩ :: rest, t ∈ ts := by
  obtain ⟨opening, keywordPos, -, rfl⟩ := h
  intro t ht
  exact List.mem_append_right _ (List.mem_cons_of_mem _ ht)

namespace Symbol
variable {uri : String} {text : List Char} {s : Symbol} {ts us : List Token}

/-- What is declared at its name points at the line of the name. -/
theorem pointsInto_of_announces {keyword : String} {pos : Position} {rest : List Token}
    (hkind : (s.kind = .function ∧ keyword = "let") ∨ (s.kind = .struct ∧ keyword = "struct"))
    (hannounces : Announces keyword s.name pos rest ts) (hline : s.line = pos.line - 1)
    (hwritten : ∀ t ∈ ts, ∃ before, t.WrittenBehind before text) : s.PointsInto text ts := by
  obtain ⟨before, hname⟩ := hwritten _ (hannounces.mem _ List.mem_cons_self)
  obtain rfl : pos = .behind before := hname.pos_eq
  exact .name hkind hannounces hname (hline.trans (Position.line_behind before))

/-- A symbol of a declaration that stems from tokens of the text points into the text. -/
theorem pointsInto_of_node {node : Node} (hs : ofNode? uri node = some s) (hstem : node.StemsFrom ts)
    (hwritten : ∀ t ∈ ts ++ us, ∃ before, t.WrittenBehind before text) : s.PointsInto text (ts ++ us) := by
  unfold ofNode? at hs
  split at hs
  · cases hs
    obtain ⟨pos, rest, hannounces, rfl⟩ := hstem
    exact pointsInto_of_announces (Or.inl ⟨rfl, rfl⟩) (hannounces.append us) rfl hwritten
  · next line operator line' name right =>
    split at hs
    · next hassign =>
      cases hs
      obtain ⟨pos, closing, mark, rest, hclosing, hannounces, rfl⟩ := hstem
      have hall := hannounces.append us
      rw [List.append_assoc, List.cons_append] at hall
      have hmem : (⟨.operator operator, mark⟩ : Token) ∈ ts ++ us := hall.mem _ (by simp)
      obtain ⟨before, hname⟩ := hwritten _ (hall.mem _ List.mem_cons_self)
      obtain ⟨beforeMark, hmark⟩ := hwritten _ hmem
      obtain rfl : pos = .behind before := hname.pos_eq
      obtain rfl : mark = .behind beforeMark := hmark.pos_eq
      subst hassign
      exact .value rfl hclosing hall hname hmark (Position.line_behind beforeMark)
    · cases hs
  · cases hs
    obtain ⟨pos, rest, hannounces, rfl⟩ := hstem
    exact pointsInto_of_announces (Or.inr ⟨rfl, rfl⟩) (hannounces.append us) rfl hwritten
  · cases hs

end Symbol

/-- Every symbol of a text comes from a statement that declares its name. That of a function or a struct
points at the line on which the name is written, and that of a variable at the line of the operator that gives
the variable its value. -/
theorem symbols_point_into_declarations (nesting : Nat) (uri text : String) (symbols : List Symbol)
    (notices : List Notice) (h : analyze nesting uri text = .ok (symbols, notices)) :
    ∀ s ∈ symbols, s.span.startLine = s.line ∧ s.span.endLine = s.line ∧
      ∃ node earlier ts, Symbol.ofNode? uri node = some s ∧
        Parser.Statement nesting (.ofText text uri) earlier ts node ∧ s.PointsInto text.toList ts := by
  intro s hs
  obtain ⟨node, hnode, hsymbol⟩ := exists_node_of_mem_analyze h hs
  obtain ⟨earlier, ts, us, hstatement, hstem⟩ := Parser.exists_statement_of_mem_drainFrom hnode
  refine ⟨rfl, rfl, node, earlier, ts ++ us, hsymbol, hstatement, ?_⟩
  obtain ⟨q, r, hearlier, -, htook⟩ := hstatement
  obtain ⟨hq, -⟩ := hearlier.writtenBehind (Parser.within_ofText text uri)
  obtain ⟨-, hwritten⟩ := htook.writtenBehind hq
  exact Symbol.pointsInto_of_node hsymbol hstem hwritten

theorem analyze_valueOnNextLine :
    analyze 2 "file:///a.ct" "let x\n= 1;" =
      .ok ([⟨"x", .variable, "file:///a.ct", 1, "let x"⟩], []) := by cbv

/-- A variable with its value on the next line. -/
theorem symbols_point_into_declarations_of_value :
    ∃ ts, (⟨"x", .variable, "file:///a.ct", 1, "let x"⟩ : Symbol).PointsInto "let x\n= 1;".toList ts := by
  obtain ⟨-, -, node, earlier, ts, -, -, hpoints⟩ :=
    symbols_point_into_declarations 2 "file:///a.ct" "let x\n= 1;" _ _ analyze_valueOnNextLine _
      List.mem_cons_self
  exact ⟨ts, hpoints⟩

/-- A symbol may point at a line on which its name is not written. -/
theorem not_name_on_line :
    ¬∀ (nesting : Nat) (uri text : String) (symbols : List Symbol) (notices : List Notice),
      analyze nesting uri text = .ok (symbols, notices) → ∀ s ∈ symbols,
        ∃ before, (⟨.identifier s.name, .behind before⟩ : Token).WrittenBehind before text.toList ∧
          s.line = before.count '\n' := by
  intro hnamed
  obtain ⟨before, ⟨written, rest, htext, hlongest, -⟩, hline⟩ :=
    hnamed _ _ _ _ _ analyze_valueOnNextLine _ List.mem_cons_self
  obtain rfl : written = ['x'] := hlongest.written_of_identifier
  have hlength := congrArg List.length htext
  have hbefore : "let x\n= 1;".toList.take before.length = before := by
    rw [htext, List.take_left]
  have hx : "let x\n= 1;".toList[before.length]? = some 'x' := by
    rw [htext, List.getElem?_append_right (Nat.le_refl _), Nat.sub_self]
    rfl
  have hfirst : ∀ n < 11, "let x\n= 1;".toList[n]? = some 'x' →
      ("let x\n= 1;".toList.take n).count '\n' = 0 := by decide
  have hcount := hfirst before.length (by simp at hlength; omega) hx
  rw [hbefore, ← hline] at hcount
  cases hcount

end ScriptLang
