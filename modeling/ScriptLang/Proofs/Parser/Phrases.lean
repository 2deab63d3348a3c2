import ScriptLang.Proofs.Parser.Declarations
import ScriptLang.Proofs.Parser.Traces
import ScriptLang.Proofs.Tree.WellFormed

/-! What every rule of the grammar makes of the tokens it takes: a well-formed tree, the line of what is
declared, and whether a semicolon is needed behind it. A closing brace waives the semicolon, a closing
parenthesis asks for it again, and no other token tells anything about it. -/
namespace ScriptLang

def Token.needsAfter (needed : Bool) (t : Token) : Bool :=
  if t.lexeme = .punctuation ')' then true
  else if t.lexeme = .punctuation '}' then false
  else needed

def Lexeme.Legal (l : Lexeme) : Prop :=
  ∃ cs rest, Longest l cs rest

theorem Lexeme.Legal.isName {name : String} (h : Lexeme.Legal (.identifier name)) : IsName name := by
  obtain ⟨cs, rest, hl⟩ := h
  cases hl with
  | @identifier c tail _ hc ht _ =>
    exact ⟨c, tail, String.toList_ofList, hc, List.all_eq_true.mpr ht⟩

theorem Lexeme.Legal.contains {n : Nat} (h : Lexeme.Legal (.integer n)) : Range.contains n = true := by
  obtain ⟨cs, rest, hl⟩ := h
  cases hl with
  | integer _ _ _ hr _ => exact hr

def AllLegal (ts : List Token) : Prop :=
  ∀ t ∈ ts, t.lexeme.Legal

section
variable {t : Token} {ts us : List Token}

@[simp] theorem allLegal_cons : AllLegal (t :: ts) ↔ t.lexeme.Legal ∧ AllLegal ts :=
  List.forall_mem_cons

@[simp] theorem allLegal_append : AllLegal (ts ++ us) ↔ AllLegal ts ∧ AllLegal us :=
  List.forall_mem_append

/-- Whatever comes before the tokens, behind them a semicolon is needed as `needed` tells. -/
def Settles (needed : Bool) (ts : List Token) : Prop :=
  ∀ before, ts.foldl Token.needsAfter before = needed

theorem Settles.append {needed : Bool} (h : Settles needed us) (ts : List Token) :
    Settles needed (ts ++ us) := by
  intro before
  rw [List.foldl_append]
  exact h _

theorem settles_parenthesis (pos : Position) : Settles true [⟨.punctuation ')', pos⟩] :=
  fun _ => by simp [Token.needsAfter]

theorem settles_brace (pos : Position) : Settles false [⟨.punctuation '}', pos⟩] :=
  fun _ => by simp [Token.needsAfter]

end

namespace Parse
open ScriptLang.Parser

structure Closes (needed : Bool) (ts : List Token) (q : Parser) : Prop where
  settles : Settles needed ts
  semicolon : q.needsSemicolon = needed

/-- The tokens `ts`, behind those of `before`, are those of the tree. -/
structure Phrase (needed : Bool) (before : List Token) (node : Node) (ts : List Token) (q : Parser) :
    Prop where
  semicolon : q.needsSemicolon = ts.foldl Token.needsAfter needed
  formed : AllLegal (before ++ ts) → node.WellFormed
  stems : node.StemsFrom (before ++ ts)

/-- The tokens `ts` are those of an expression, unless the text ends. -/
structure Expressed (needed : Bool) (a : Option Node) (ts : List Token) (q : Parser) : Prop where
  phrase : ∀ node ∈ a, Phrase needed [] node ts q
  ended : a = none → ts = [] ∧ q.Shows none ∧ q.needsSemicolon = needed

structure Stated (a : Option Node) (ts : List Token) (q : Parser) : Prop where
  semicolon : a.isSome = true → q.needsSemicolon = true
  formed : AllLegal ts → ∀ node ∈ a, node.WellFormed
  stems : ∀ node ∈ a, ∃ us vs, ts = us ++ vs ∧ node.StemsFrom us
  ended : a = none → ts = [] ∧ q.Shows none

structure Linked (needed : Bool) (links : List Link) (ts : List Token) (q : Parser) : Prop where
  semicolon : q.needsSemicolon = ts.foldl Token.needsAfter needed
  formed : AllLegal ts → ∀ link ∈ links, link.WellFormed
  led : LedBy ts links

section
variable {needed : Bool} {node : Node} {before ts us : List Token} {p q : Parser}

theorem Closes.append (h : Closes needed us q) (ts : List Token) : Closes needed (ts ++ us) q :=
  ⟨h.settles.append ts, h.semicolon⟩

/-- Tokens that settle whether a semicolon is asked for do so whatever was asked before them. -/
theorem Closes.semicolon_eq (h : Closes needed ts q) (b : Bool) :
    q.needsSemicolon = ts.foldl Token.needsAfter b := by
  rw [h.settles b, h.semicolon]

/-- A mark closes a form, and then the form tells what the mark does. -/
theorem traced_close {α : Type} {a : α} {c : Char} (hc : ∀ pos, Settles needed [⟨.punctuation c, pos⟩]) :
    Traced (do skip c; setSemicolon needed; return a) p fun b ts q => b = a ∧ Closes needed ts q := by
  refine (traced_skip c).bind ?_
  rintro _ _ q ⟨pos, rfl, -⟩
  exact (traced_setSemicolon needed).bind_nil fun _ r hr => traced_pure ⟨rfl, hc pos, hr⟩

theorem traced_cons {m : Parse (List Node)} (ts : List Token) (hnode : AllLegal ts → node.WellFormed)
    (hm : Traced m p fun nodes us _ => AllLegal us → ∀ n ∈ nodes, n.WellFormed) :
    Traced (do return node :: (← m)) p fun nodes us _ => AllLegal (ts ++ us) →
      ∀ n ∈ nodes, n.WellFormed := by
  refine hm.bind fun nodes us q hnodes => traced_pure ?_
  simp only [List.append_nil, allLegal_append]
  rintro ⟨hts, hus⟩
  exact List.forall_mem_cons.mpr ⟨hnode hts, hnodes hus⟩

/-- A tree without parts that declares nothing. -/
theorem traced_leaf (hformed : AllLegal before → node.Formed) (hparts : node.parts = [])
    (hstems : node.StemsFrom before) :
    Traced (pure node) p (Phrase p.needsSemicolon before) := by
  refine traced_pure ⟨rfl, ?_, ?_⟩
  · rw [List.append_nil]
    exact fun hlegal => Node.wellFormed_of_parts_eq_nil (hformed hlegal) hparts
  · rwa [List.append_nil]

end

section Rules
variable {p : Parser} {sub : Parse (Option Node)}
  (hsub : ∀ p, Traced sub p (Expressed p.needsSemicolon))
include hsub

/-- A statement that is found leaves the parser asking for a semicolon, as it was at the start of it. -/
theorem traced_statement (p : Parser) : Traced (statement sub) p Stated := by
  refine (hsub p).bind fun a ts q ha => ?_
  cases a with
  | none =>
    obtain ⟨rfl, hs, -⟩ := ha.ended rfl
    exact traced_pure ⟨nofun, fun _ => nofun, nofun, fun _ => ⟨rfl, hs⟩⟩
  | some node =>
    have hphrase := ha.phrase node rfl
    have hstated {us : List Token} {r : Parser} (hr : r.needsSemicolon = true) :
        Stated (some node) (ts ++ us) r := by
      refine ⟨fun _ => hr, fun hlegal => ?_, ?_, nofun⟩
      · rintro _ ⟨⟩
        exact hphrase.formed (allLegal_append.mp hlegal).1
      · rintro _ ⟨⟩
        exact ⟨ts, us, rfl, hphrase.stems⟩
    refine .get ?_
    dsimp only
    split
    · next hneeded =>
      refine (traced_skip ';').bind ?_
      rintro _ us r ⟨pos, -, hr⟩
      exact traced_pure (hstated (hr.trans hneeded))
    · exact (traced_setSemicolon true).bind_nil fun _ r hr => traced_pure (hstated hr)

theorem traced_argumentsBefore (fuel : Nat) (p : Parser) :
    Traced (argumentsBefore sub fuel) p fun args ts _ => AllLegal ts → ∀ n ∈ args, n.WellFormed := by
  induction fuel generalizing p with
  | zero => exact traced_unfinished
  | succ fuel ih =>
    refine (traced_atMark ')').bind_nil fun closed p₁ _ => ?_
    cases closed with
    | true => exact traced_pure fun _ => List.forall_mem_nil _
    | false =>
      refine (hsub p₁).bind fun a ts p₂ ha => ?_
      cases a with
      | none => exact traced_refuse _
      | some node =>
        have hnode := (ha.phrase node rfl).formed
        refine (traced_atMark ')').bind_nil fun last p₃ _ => ?_
        cases last with
        | true => exact traced_cons ts hnode (ih p₃)
        | false =>
          refine (traced_skip ',').bind fun _ us p₄ _ => ?_
          simp only [← List.append_assoc]
          exact traced_cons (ts ++ us) (fun hlegal => hnode (allLegal_append.mp hlegal).1) (ih p₄)

/-- Arguments end with a parenthesis, which asks for a semicolon again, and are well formed. -/
theorem traced_arguments (p : Parser) : Traced (arguments sub) p fun args ts q =>
    Closes true ts q ∧ (AllLegal ts → ∀ n ∈ args, n.WellFormed) := by
  refine (traced_skip '(').bind fun _ ts p₁ _ => ?_
  refine Traced.bind (.bounded (traced_argumentsBefore hsub _ p₁)) fun args us p₂ hargs => ?_
  refine (traced_close settles_parenthesis).mono ?_
  rintro _ vs q ⟨rfl, hclose⟩
  refine ⟨(hclose.append us).append ts, fun hlegal => ?_⟩
  simp only [allLegal_append] at hlegal
  exact hargs hlegal.2.1

theorem traced_statementsBefore (fuel : Nat) (p : Parser) :
    Traced (statementsBefore sub fuel) p fun body ts _ => AllLegal ts → ∀ n ∈ body, n.WellFormed := by
  induction fuel generalizing p with
  | zero => exact traced_unfinished
  | succ fuel ih =>
    refine (traced_atMark '}').bind_nil fun closed p₁ _ => ?_
    cases closed with
    | true => exact traced_pure fun _ => List.forall_mem_nil _
    | false =>
      refine (traced_statement hsub p₁).bind fun a ts p₂ ha => ?_
      cases a with
      | none => exact traced_refuse _
      | some node => exact traced_cons ts (fun hlegal => ha.formed hlegal node rfl) (ih p₂)

/-- A block ends with a brace, which waives the semicolon, and its statements are well formed. -/
theorem traced_block (p : Parser) : Traced (block sub) p fun body ts q =>
    Closes false ts q ∧ (AllLegal ts → ∀ n ∈ body, n.WellFormed) := by
  refine (traced_skip '{').bind fun _ ts p₁ _ => ?_
  refine (traced_setSemicolon true).bind_nil fun _ p₂ _ => ?_
  refine Traced.bind (.bounded (traced_statementsBefore hsub _ p₂)) fun body us p₃ hbody => ?_
  refine (traced_close settles_brace).mono ?_
  rintro _ vs q ⟨rfl, hclose⟩
  refine ⟨(hclose.append us).append ts, fun hlegal => ?_⟩
  simp only [allLegal_append] at hlegal
  exact hbody hlegal.2.1

theorem traced_condition (p : Parser) : Traced (condition sub) p fun node ts _ =>
    AllLegal ts → node.WellFormed := by
  refine (traced_skip '(').bind fun _ ts p₁ _ => ?_
  refine (hsub p₁).bind fun a us p₂ ha => ?_
  cases a with
  | none => exact traced_refuse _
  | some node =>
    refine (traced_skip ')').bind fun _ vs q _ => traced_pure fun hlegal => ?_
    simp only [allLegal_append] at hlegal
    exact (ha.phrase node rfl).formed hlegal.2.1

/-- A declaration in parentheses is the same declaration. -/
theorem traced_parenthesis (p : Parser) : Traced (parenthesis sub) p (Phrase p.needsSemicolon []) := by
  refine (traced_skip '(').bind ?_
  rintro _ _ p₁ ⟨opened, rfl, -⟩
  refine (hsub p₁).bind fun a ts p₂ ha => ?_
  cases a with
  | none => exact traced_refuse _
  | some node =>
    have hphrase := ha.phrase node rfl
    refine (traced_skip ')').bind ?_
    rintro _ _ p₃ ⟨closed, rfl, -⟩
    refine (traced_setSemicolon true).bind_nil fun _ q hq => traced_pure ⟨?_, fun hlegal => ?_, ?_⟩
    · simp [hq, Token.needsAfter]
    · simp only [List.nil_append, allLegal_append] at hlegal
      exact hphrase.formed hlegal.2.1
    · exact hphrase.stems.parenthesized opened closed

omit hsub in
/-- Parameters are the names of variables, be they declared or not. -/
theorem traced_parameters (function : String) (nodes : List Node) (p : Parser) :
    Traced (parameters function nodes) p fun names ts _ =>
      ts = [] ∧ ((∀ n ∈ nodes, n.WellFormed) → ∀ name ∈ names, IsName name) := by
  induction nodes with
  | nil => exact traced_pure ⟨rfl, fun _ => List.forall_mem_nil _⟩
  | cons node nodes ih =>
    have hcons {name : String} (hname : node.WellFormed → IsName name) :
        Traced (do return name :: (← parameters function nodes)) p fun names ts q =>
          ts = [] ∧ ((∀ n ∈ node :: nodes, n.WellFormed) → ∀ name ∈ names, IsName name) := by
      refine ih.bind_nil fun names _ hnames => traced_pure ⟨rfl, fun hnodes => ?_⟩
      obtain ⟨hnode, hnodes⟩ := List.forall_mem_cons.mp hnodes
      exact List.forall_mem_cons.mpr ⟨hname hnode, hnames hnodes⟩
    cases node with
    | declaration line name => exact hcons fun hnode => hnode _ (.itself _)
    | reference line name => exact hcons fun hnode => (hnode _ (.itself _)).1
    | _ => exact traced_refuse _

/-- A declaration takes its name, and a function its parameters and its body. -/
theorem traced_letForm (keywordPos : Position) (p : Parser) :
    Traced (letForm sub) p (Phrase p.needsSemicolon [⟨.identifier "let", keywordPos⟩]) := by
  refine traced_advance ⟨_, fun _ => rfl⟩ fun t p₁ hp₁ => ?_
  obtain ⟨l, pos⟩ := t
  cases l with
  | identifier name =>
    have hannounces (ts : List Token) : Announces "let" name pos ts
        (⟨.identifier "let", keywordPos⟩ :: ⟨.identifier name, pos⟩ :: ts) :=
      ⟨[], keywordPos, List.forall_mem_nil _, rfl⟩
    refine (traced_atMark '(').bind_nil fun opened p₂ hp₂ => ?_
    cases opened with
    | false =>
      refine traced_pure ⟨?_, fun hlegal => ?_, pos, [], List.forall_mem_nil _, hannounces _, rfl⟩
      · simp [hp₂.2, hp₁, Token.needsAfter]
      · simp only [List.cons_append, List.nil_append, allLegal_cons] at hlegal
        exact Node.wellFormed_of_parts_eq_nil hlegal.2.1.isName rfl
    | true =>
      refine (traced_arguments hsub p₂).bind fun args ts p₃ hargs => ?_
      refine (traced_parameters name args p₃).bind_nil fun params p₄ hparams => ?_
      refine (traced_block hsub p₄).bind fun body us q hbody => traced_pure ⟨?_, fun hlegal => ?_, ?_⟩
      · rw [List.append_nil, List.foldl_cons]
        exact (hbody.1.append ts).semicolon_eq _
      · simp only [List.cons_append, List.nil_append, List.append_nil, allLegal_cons,
          allLegal_append] at hlegal
        obtain ⟨-, hname, hts, hus⟩ := hlegal
        exact Node.every_of_parts ⟨hname.isName, hparams (hargs.2 hts)⟩ (hbody.2 hus)
      · exact ⟨pos, _, hannounces _, rfl⟩
  | _ => exact traced_refuse _

/-- Whatever branches there are, the last one ends with its block. -/
theorem traced_branchesFrom (fuel : Nat) (test : Node) (p : Parser) :
    Traced (branchesFrom sub fuel test) p fun branches ts q =>
      Closes false ts q ∧ (AllLegal ts → test.WellFormed → BranchesFormed branches) := by
  induction fuel generalizing test p with
  | zero => exact traced_unfinished
  | succ fuel ih =>
    refine (traced_block hsub p).bind fun body ts p₁ hblock => ?_
    have hfirst (hts : AllLegal ts) (htest : test.WellFormed) :
        ∀ n ∈ (Branch.mk test.line test body).parts, n.WellFormed :=
      List.forall_mem_cons.mpr ⟨htest, hblock.2 hts⟩
    refine (traced_atName "else").bind_nil fun more p₂ hp₂ => ?_
    cases more with
    | false =>
      refine traced_pure ⟨⟨?_, hp₂.2.trans hblock.1.semicolon⟩, fun hlegal htest => ?_⟩
      · rw [List.append_nil]
        exact hblock.1.settles
      · rw [List.append_nil] at hlegal
        exact ⟨List.cons_ne_nil _ _, List.forall_mem_singleton.mpr (hfirst hlegal htest)⟩
    | true =>
      obtain ⟨elsePos, helse⟩ := hp₂.1 rfl
      refine traced_advance_of_shows helse ((traced_atName "if").bind_nil fun guarded p₃ hp₃ => ?_)
      cases guarded with
      | true =>
        obtain ⟨ifPos, hif⟩ := hp₃.1 rfl
        refine traced_advance_of_shows hif ((traced_condition hsub _).bind fun next us p₄ hnext => ?_)
        refine (ih next p₄).bind fun rest vs q hrest => traced_pure ⟨?_, fun hlegal htest => ?_⟩
        · simpa using hrest.1.append (ts ++ _ :: _ :: us)
        · simp only [allLegal_append, allLegal_cons] at hlegal
          obtain ⟨hts, -, -, hus, hvs, -⟩ := hlegal
          exact ⟨List.cons_ne_nil _ _,
            List.forall_mem_cons.mpr ⟨hfirst hts htest, (hrest.2 hvs (hnext hus)).2⟩⟩
      | false =>
        refine traced_peek.bind_nil fun u p₄ _ => ?_
        split
        · exact traced_refuse _
        · refine (traced_block hsub p₄).bind fun last us q hlast => traced_pure ⟨?_, fun hlegal htest => ?_⟩
          · simpa using (hlast.1.append [⟨.identifier "else", elsePos⟩]).append ts
          · simp only [allLegal_append, allLegal_cons] at hlegal
            obtain ⟨hts, -, hus, -⟩ := hlegal
            have htrue (line : Nat) : (Node.literal line (.boolean true)).WellFormed :=
              Node.wellFormed_of_parts_eq_nil trivial rfl
            refine ⟨List.cons_ne_nil _ _, List.forall_mem_cons.mpr ⟨hfirst hts htest, ?_⟩⟩
            exact List.forall_mem_singleton.mpr (List.forall_mem_cons.mpr ⟨htrue _, hlast.2 hus⟩)

theorem traced_ifForm (before : List Token) (p : Parser) :
    Traced (ifForm sub) p (Phrase p.needsSemicolon before) := by
  refine (traced_condition hsub p).bind fun test ts p₁ htest => ?_
  refine Traced.bind (.bounded (traced_branchesFrom hsub _ test p₁)) fun branches us p₂ hbranches => ?_
  refine (traced_setSemicolon false).bind_nil fun _ q hq => traced_pure ⟨?_, fun hlegal => ?_, trivial⟩
  · have hclose : Closes false us q := ⟨hbranches.1.settles, hq⟩
    simpa using (hclose.append ts).semicolon_eq p.needsSemicolon
  · simp only [allLegal_append] at hlegal
    obtain ⟨-, hts, hus, -⟩ := hlegal
    have hformed := hbranches.2 hus (htest hts)
    refine Node.every_of_parts hformed.1 fun part hpart => ?_
    obtain ⟨b, hmem, hpart⟩ := List.mem_flatMap.mp hpart
    exact hformed.2 b hmem part hpart

theorem traced_whileForm (before : List Token) (p : Parser) :
    Traced (whileForm sub) p (Phrase p.needsSemicolon before) := by
  refine (traced_condition hsub p).bind fun test ts p₁ htest => ?_
  refine (traced_block hsub p₁).bind fun body us q hbody => traced_pure ⟨?_, fun hlegal => ?_, trivial⟩
  · simpa using (hbody.1.append ts).semicolon_eq p.needsSemicolon
  · simp only [allLegal_append] at hlegal
    obtain ⟨-, hts, hus, -⟩ := hlegal
    exact Node.every_of_parts trivial (List.forall_mem_cons.mpr ⟨htest hts, hbody.2 hus⟩)

omit hsub in
theorem traced_structForm (keywordPos : Position) (p : Parser) :
    Traced structForm p (Phrase p.needsSemicolon [⟨.identifier "struct", keywordPos⟩]) := by
  refine traced_advance ⟨_, fun _ => rfl⟩ fun t p₁ _ => ?_
  obtain ⟨l, pos⟩ := t
  cases l with
  | identifier name =>
    refine (traced_skip '{').bind fun _ ts p₂ _ => ?_
    refine (traced_atMark '}').bind_nil fun closed p₃ _ => ?_
    cases closed with
    | false => exact traced_refuse_bind _
    | true =>
      refine (traced_close settles_brace).mono ?_
      rintro _ us q ⟨rfl, hclose⟩
      refine ⟨(hclose.append ts).semicolon_eq _, fun hlegal => ?_, pos, _, ⟨[], keywordPos, List.forall_mem_nil _, rfl⟩, rfl⟩
      simp only [List.cons_append, List.nil_append, allLegal_cons] at hlegal
      exact Node.wellFormed_of_parts_eq_nil hlegal.2.1.isName rfl
  | _ => exact traced_refuse _

/-- What a name, and an attribute, and arguments are read as declares nothing. -/
theorem traced_nameForm {name : String} {pos : Position}
    (hname : Keyword.ofName? name = none ∨ Keyword.ofName? name = some .elseForm) (p : Parser) :
    Traced (nameForm sub name pos.line) p (Phrase p.needsSemicolon [⟨.identifier name, pos⟩]) := by
  refine (traced_atMark '.').bind_nil fun pointed p₁ hp₁ => ?_
  cases pointed with
  | true =>
    obtain ⟨dotPos, hdot⟩ := hp₁.1 rfl
    refine traced_advance_of_shows hdot (traced_advance ⟨_, fun _ => rfl⟩ fun t p₂ hp₂ => ?_)
    obtain ⟨l, attrPos⟩ := t
    cases l with
    | identifier attr =>
      refine (traced_atMark '(').bind_nil fun opened p₃ hp₃ => ?_
      cases opened with
      | false =>
        refine traced_pure ⟨?_, fun hlegal => ?_, trivial⟩
        · simp [hp₃.2, hp₂, hp₁.2, Token.needsAfter]
        · simp only [List.cons_append, List.nil_append, allLegal_cons] at hlegal
          exact Node.wellFormed_of_parts_eq_nil ⟨⟨hlegal.1.isName, hname⟩, hlegal.2.2.1.isName⟩ rfl
      | true =>
        refine (traced_arguments hsub p₃).bind fun args ts q hargs =>
          traced_pure ⟨?_, fun hlegal => ?_, trivial⟩
        · simpa using (hargs.1.append [_, _]).semicolon_eq p.needsSemicolon
        · simp only [List.cons_append, List.nil_append, List.append_nil, allLegal_cons] at hlegal
          obtain ⟨hreceiver, -, hattr, hts⟩ := hlegal
          exact Node.every_of_parts ⟨⟨hreceiver.isName, hname⟩, hattr.isName⟩ (hargs.2 hts)
    | _ => exact traced_refuse_bind _
  | false =>
    refine (traced_atMark '(').bind_nil fun opened p₂ hp₂ => ?_
    cases opened with
    | false =>
      refine traced_pure ⟨hp₂.2.trans hp₁.2, fun hlegal => ?_, trivial⟩
      simp only [List.cons_append, allLegal_cons] at hlegal
      exact Node.wellFormed_of_parts_eq_nil ⟨hlegal.1.isName, hname⟩ rfl
    | true =>
      refine (traced_arguments hsub p₂).bind fun args ts q hargs =>
        traced_pure ⟨?_, fun hlegal => ?_, trivial⟩
      · simpa using hargs.1.semicolon_eq p.needsSemicolon
      · simp only [List.cons_append, List.nil_append, List.append_nil, allLegal_cons] at hlegal
        exact Node.every_of_parts ⟨hlegal.1.isName, hname⟩ (hargs.2 hlegal.2)

theorem traced_returnForm (before : List Token) (line : Nat) (p : Parser) :
    Traced (returnForm sub line) p (Phrase p.needsSemicolon before) := by
  refine (traced_atMark ';').bind_nil fun ended p₁ hp₁ => ?_
  rw [← hp₁.2]
  cases ended with
  | true => exact traced_leaf (fun _ => trivial) rfl trivial
  | false =>
    refine (hsub p₁).bind fun a ts q ha => traced_pure ⟨?_, fun hlegal => ?_, trivial⟩
    · rw [List.append_nil]
      cases a with
      | none =>
        obtain ⟨rfl, -, hq⟩ := ha.ended rfl
        exact hq
      | some node => exact (ha.phrase node rfl).semicolon
    · simp only [allLegal_append] at hlegal
      refine Node.every_of_parts trivial fun part hpart => ?_
      exact (ha.phrase part (Option.mem_toList.mp hpart)).formed hlegal.2.1

omit hsub in
theorem eq_let_of_keyword {name : String} (h : Keyword.ofName? name = some .letForm) : name = "let" := by
  unfold Keyword.ofName? at h
  split at h <;> first | rfl | cases h

omit hsub in
theorem eq_struct_of_keyword {name : String} (h : Keyword.ofName? name = some .structForm) :
    name = "struct" := by
  unfold Keyword.ofName? at h
  split at h <;> first | rfl | cases h

/-- What a name begins is the form of its keyword, or a reference, a member or a call. -/
theorem traced_namedForm (name : String) (pos : Position) (p : Parser) :
    Traced (namedForm sub name pos.line) p (Phrase p.needsSemicolon [⟨.identifier name, pos⟩]) := by
  unfold namedForm
  split
  · exact traced_leaf (fun _ => trivial) rfl trivial
  · exact traced_leaf (fun _ => trivial) rfl trivial
  · exact traced_returnForm hsub _ pos.line p
  · exact traced_leaf (fun _ => trivial) rfl trivial
  · exact traced_leaf (fun _ => trivial) rfl trivial
  · next hkeyword =>
    rw [eq_let_of_keyword hkeyword]
    exact traced_letForm hsub pos p
  · exact traced_ifForm hsub _ p
  · exact traced_whileForm hsub _ p
  · exact traced_refuse _
  · next hkeyword =>
    rw [eq_struct_of_keyword hkeyword]
    exact traced_structForm pos p
  · next hkeyword => exact traced_nameForm hsub (Or.inr hkeyword) p
  · next hkeyword => exact traced_nameForm hsub (Or.inl hkeyword) p

omit hsub in
/-- A literal is read off the token that shows it. -/
theorem traced_literal {t : Token} {value : Literal} (hs : p.Shows (some t))
    (ht : t.lexeme ≠ .punctuation ')' ∧ t.lexeme ≠ .punctuation '}')
    (hformed : t.lexeme.Legal → (Node.literal t.pos.line value).Formed) :
    Traced (literal t.pos.line value) p (Expressed p.needsSemicolon) := by
  refine traced_advance_of_shows hs (traced_pure ⟨?_, nofun⟩)
  rintro _ ⟨⟩
  refine ⟨?_, fun hlegal => ?_, trivial⟩
  · simp [Token.needsAfter, ht]
  · exact Node.wellFormed_of_parts_eq_nil (hformed (allLegal_cons.mp hlegal).1) rfl

/-- An operand is a literal, what a name begins, or an expression in parentheses. -/
theorem traced_operand (p : Parser) : Traced (operand sub) p (Expressed p.needsSemicolon) := by
  refine traced_peek.bind_nil fun t p₁ hp₁ => ?_
  obtain ⟨hs, hp₁⟩ := hp₁
  rw [← hp₁]
  split
  · exact traced_pure ⟨nofun, fun _ => ⟨rfl, hs, rfl⟩⟩
  · next name pos =>
    refine traced_advance_of_shows hs (Traced.map ?_)
    refine (traced_namedForm hsub name pos p₁.taken).mono fun node ts q hnode => ⟨?_, nofun⟩
    rintro _ ⟨⟩
    refine ⟨?_, hnode.formed, hnode.stems⟩
    rw [hnode.semicolon, List.foldl_cons]
    simp [Token.needsAfter]
  · exact traced_literal hs ⟨by simp, by simp⟩ fun _ => trivial
  · exact traced_literal hs ⟨by simp, by simp⟩ Lexeme.Legal.contains
  · exact traced_literal hs ⟨by simp, by simp⟩ fun _ => trivial
  · refine Traced.map ((traced_parenthesis hsub p₁).mono fun node ts q hnode => ⟨?_, nofun⟩)
    rintro _ ⟨⟩
    exact hnode
  · exact traced_refuse _

/-- The links of a chain take operators and operands in turn. -/
theorem traced_links (fuel floor : Nat) (p : Parser) :
    Traced (links sub fuel floor) p (Linked p.needsSemicolon) := by
  induction fuel generalizing floor p with
  | zero => exact traced_unfinished
  | succ fuel ih =>
    refine traced_operatorAhead.bind_nil fun op p₁ hp₁ => ?_
    rw [← hp₁.1]
    cases op with
    | none => exact traced_pure ⟨rfl, fun _ => List.forall_mem_nil _, rfl⟩
    | some op =>
      obtain ⟨hoperator, mark, hs, hmark⟩ := hp₁.2 op rfl
      dsimp only
      split
      · exact traced_pure ⟨rfl, fun _ => List.forall_mem_nil _, rfl⟩
      · refine traced_advance_of_shows hs ((traced_operand hsub _).bind fun a ts p₂ ha => ?_)
        cases a with
        | none => exact traced_refuse _
        | some right =>
          have hright := ha.phrase right rfl
          -- The operators that bind tighter go to the right operand, the others follow.
          have hrest {inner : List Link} {us : List Token} {p₃ : Parser}
              (hinner : Linked p₂.needsSemicolon inner us p₃) :
              Traced (do return ⟨op.spelling, op.line, right.extend inner⟩ :: (← links sub fuel floor)) p₃
                fun more vs q => Linked p₁.needsSemicolon more
                  (⟨.operator op.spelling, mark⟩ :: (ts ++ (us ++ vs))) q := by
            refine (ih floor p₃).bind fun more vs q hmore => traced_pure ⟨?_, fun hlegal => ?_, mark, _, rfl, hmark⟩
            · simp [hmore.semicolon, hinner.semicolon, hright.semicolon, Token.needsAfter]
            · simp only [allLegal_cons, allLegal_append] at hlegal
              obtain ⟨-, hts, hus, hvs, -⟩ := hlegal
              refine List.forall_mem_cons.mpr ⟨⟨hoperator, ?_⟩, hmore.formed hvs⟩
              exact Node.wellFormed_extend (hright.formed hts) (hinner.formed hus)
          refine traced_operatorAhead.bind_nil fun next p₃ hp₃ => ?_
          rw [← hp₃.1] at hrest
          split
          · exact (ih _ p₃).bind fun inner us p₄ hinner => hrest hinner
          · exact Traced.bind (traced_pure ⟨rfl, fun _ => List.forall_mem_nil _, rfl⟩)
              fun inner us p₄ hinner => hrest hinner

/-- An expression takes the tokens of its operands and of the operators between them. -/
theorem traced_expression (p : Parser) : Traced (expression sub) p (Expressed p.needsSemicolon) := by
  refine (traced_operand hsub p).bind fun a ts p₁ ha => ?_
  cases a with
  | none =>
    obtain ⟨rfl, hs, hp₁⟩ := ha.ended rfl
    exact traced_pure ⟨nofun, fun _ => ⟨rfl, hs, hp₁⟩⟩
  | some left =>
    have hleft := ha.phrase left rfl
    refine Traced.bind (.bounded (traced_links hsub _ 0 p₁)) fun links us q hlinks =>
      traced_pure ⟨?_, nofun⟩
    rintro _ ⟨⟩
    rw [List.append_nil]
    refine ⟨?_, fun hlegal => ?_, hleft.stems.extend hlinks.led⟩
    · rw [hlinks.semicolon, hleft.semicolon, List.foldl_append]
    · simp only [List.nil_append, allLegal_append] at hlegal
      exact Node.wellFormed_extend (hleft.formed hlegal.1) (hlinks.formed hlegal.2)

end Rules

/-- What an expression tells, however deeply expressions are nested in it. -/
theorem traced_primary (nesting : Nat) (p : Parser) :
    Traced (primary nesting) p (Expressed p.needsSemicolon) := by
  induction nesting generalizing p with
  | zero => exact traced_nesting
  | succ nesting ih => exact traced_expression ih p

/-- The next statement, at whatever nesting, takes the tokens of a statement. -/
theorem traced_next (nesting : Nat) (p : Parser) : Traced (next nesting) p Stated :=
  traced_statement (traced_primary nesting) p

/-- Statements parsed of legal tokens are well formed. -/
theorem traced_statements (nesting fuel : Nat) (p : Parser) :
    Traced (statements nesting fuel) p fun nodes ts _ => AllLegal ts → ∀ n ∈ nodes, n.WellFormed := by
  induction fuel generalizing p with
  | zero => exact traced_unfinished
  | succ fuel ih =>
    refine (traced_next nesting p).bind fun a ts q ha => ?_
    cases a with
    | none => exact traced_pure fun _ => List.forall_mem_nil _
    | some node => exact traced_cons ts (fun hlegal => ha.formed hlegal node rfl) (ih q)

end Parse
end ScriptLang
