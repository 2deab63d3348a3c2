import ScriptLang.Proofs.Parser.Simulation

/-! Every rule of the grammar keeps two parsers in step. Each lemma names the pieces of one rule; the
rule for nested expressions enters through `SubRule` and is tied to itself at the end. -/
namespace ScriptLang.Simulation
variable {S : Simulation} {k : Nat} {p q : Parser} {sub : Parse (Option Node)}

inductive Found (S : Simulation) (p q : Parser) : Option Node → Option Node → Parser → Parser → Prop
  | none {p' q'} : S.abreast p' q' → p'.Shows none → Found S p q none none p' q'
  | some {a b p' q'} : a.mapLines S.left = b.mapLines S.right → S.Live p' q' →
    p'.size < p.size → q'.size < q.size → Found S p q (some a) (some b) p' q'

def Formed (S : Simulation) (a b : Node) (p q : Parser) : Prop :=
  a.mapLines S.left = b.mapLines S.right ∧ S.Live p q

def Listed (S : Simulation) (as bs : List Node) (p q : Parser) : Prop :=
  as.map (Node.mapLines S.left) = bs.map (Node.mapLines S.right) ∧ S.abreast p q

/-- The rule for nested expressions keeps two parsers in step, and finds nothing at the end. -/
structure SubRule (S : Simulation) (k : Nat) (sub : Parse (Option Node)) : Prop where
  runs : ∀ {p q}, S.abreast p q → S.Runs k p q sub sub (S.Found p q)
  ended : ∀ {p p' : Parser} {node : Node}, p.Ended → sub p ≠ .ok (some node) p'

inductive Stated (S : Simulation) (p q : Parser) : Option Node → Option Node → Parser → Parser → Prop
  | none {p' q'} : S.abreast p' q' → p'.Shows none → Stated S p q none none p' q'
  | some {a b p' q'} : a.mapLines S.left = b.mapLines S.right → S.abreast p' q' ∨ S.past p' q' →
    p'.size < p.size → q'.size < q.size → Stated S p q (some a) (some b) p' q'

/-- From parsers abreast a statement is found by both, by neither, or refused alike. -/
theorem runs_statement (hsub : S.SubRule k sub) (h : S.abreast p q) :
    S.Runs k p q (Parse.statement sub) (Parse.statement sub) (S.Stated p q) := by
  refine Runs.bind (hsub.runs h) fun a b p₁ q₁ _ _ hf => ?_
  cases hf with
  | none ha hn => exact Runs.pure (.none ha hn)
  | @some a b _ _ hab hl hlp hlq =>
    refine Runs.get ?_
    simp only [← hl.semicolon_eq]
    split
    · rcases hl with ha | hc
      · -- This semicolon may be the last token on the left.
        refine Runs.bind (runs_skip ha ';') fun _ _ p₂ q₂ _ _ hs => Runs.pure ?_
        obtain ⟨hafter, hp, hq⟩ := hs
        refine .some hab ?_ (by omega) (by omega)
        rcases hafter with ha | ⟨hl, -⟩ | ⟨-, ho⟩
        · exact Or.inl ha
        · cases hl
        · exact Or.inr ho
      · exact Runs.bind (runs_skip_of_closed hc ';') fun _ _ _ _ _ _ hs => hs.elim
    · refine Runs.bind (runs_setSemicolon hl true) fun _ _ p₂ q₂ hp hq hs => Runs.pure ?_
      obtain ⟨-, -, hl'⟩ := hs
      exact .some hab (hl'.imp id S.past_of_closed) (by omega) (by omega)

/-- At the end of the text no statement is found. -/
theorem statement_of_ended (hsub : S.SubRule k sub) (h : p.Ended) {p' : Parser} {node : Node} :
    Parse.statement sub p ≠ .ok (some node) p' := by
  intro hs
  cases hr : sub p with
  | ok a p₁ =>
    cases a with
    | none =>
      have hn : Parse.statement sub p = .ok none p₁ := bind_of_ok hr
      rw [hn] at hs
      cases hs
    | some node' => exact hsub.ended h hr
  | error e p₁ =>
    have hn : Parse.statement sub p = .error e p₁ := bind_of_error hr
    rw [hn] at hs
    cases hs

theorem runs_argumentsBefore (hsub : S.SubRule k sub) (h : S.abreast p q) {fuel fuel' : Nat}
    (hp : p.size < fuel) (hq : q.size < fuel') :
    S.Runs k p q (Parse.argumentsBefore sub fuel) (Parse.argumentsBefore sub fuel') S.Listed := by
  -- The bounds on both sides are above the sizes, which every argument makes smaller.
  induction fuel generalizing fuel' p q with
  | zero => omega
  | succ fuel ih =>
    cases fuel' with
    | zero => omega
    | succ fuel' =>
      refine Runs.bind (runs_atMark h ')') fun b b' p₁ q₁ hp₁ hq₁ hb => ?_
      obtain rfl := hb.1
      cases b with
      | true => exact Runs.pure ⟨rfl, hb.abreast⟩
      | false =>
        refine Runs.bind (hsub.runs hb.abreast) fun a a' p₂ q₂ _ _ hf => ?_
        cases hf with
        | none ha _ => exact Runs.refuse _ rfl fun _ => S.stopped_of_abreast ha
        | @some a a' _ _ haa hl hlp hlq =>
          have hrest {p₃ q₃} (h₃ : S.abreast p₃ q₃) (hp₃ : p₃.size ≤ p₂.size)
              (hq₃ : q₃.size ≤ q₂.size) : S.Runs k p₃ q₃
              (do return a :: (← Parse.argumentsBefore sub fuel))
              (do return a' :: (← Parse.argumentsBefore sub fuel')) S.Listed := by
            refine Runs.bind (ih h₃ (by omega) (by omega)) fun as as' _ _ _ _ has => Runs.pure ?_
            exact ⟨by simp [haa, has.1], has.2⟩
          rcases hl with ha | hc
          · refine Runs.bind (runs_atMark ha ')') fun c c' p₃ q₃ hp₃ hq₃ hc => ?_
            obtain rfl := hc.1
            cases c with
            | true => exact hrest hc.abreast hp₃ hq₃
            | false =>
              refine Runs.bind (runs_skip_inner hc.abreast ',' (by decide) (by decide))
                fun _ _ p₄ q₄ hp₄ hq₄ hs => ?_
              exact hrest hs.1 (by omega) (by omega)
          · have ho := S.past_of_closed hc
            obtain ⟨p₃, hm, he₃⟩ := Parse.atMark_of_ended (S.ended_of_past ho) ')'
            obtain ⟨e, p₄, he⟩ := Parse.skip_of_ended he₃ ','
            exact Runs.of_left_error (S.not_strict_of_past ho)
              ((bind_of_ok hm).trans (bind_of_error he))

theorem runs_arguments (hsub : S.SubRule k sub) (h : S.abreast p q) :
    S.Runs k p q (Parse.arguments sub) (Parse.arguments sub) (fun as bs p' q' =>
      S.Listed as bs p' q' ∧ p'.size < p.size ∧ q'.size < q.size) := by
  refine Runs.bind (runs_skip_inner h '(' (by decide) (by decide)) fun _ _ p₁ q₁ _ _ h₁ => ?_
  refine Runs.bind (Runs.bounded (runs_argumentsBefore hsub h₁.1 (by omega) (by omega)))
    fun as bs p₂ q₂ _ _ h₂ => ?_
  refine Runs.bind (runs_skip_inner h₂.2 ')' (by decide) (by decide)) fun _ _ p₃ q₃ _ _ h₃ => ?_
  refine Runs.bind (runs_setSemicolon (Or.inl h₃.1) true) fun _ _ p₄ q₄ hp₄ hq₄ h₄ => Runs.pure ?_
  obtain ⟨rfl, rfl, -⟩ := h₄
  exact ⟨⟨h₂.1, S.abreast_withSemicolon true h₃.1⟩, by omega, by omega⟩

theorem runs_statementsBefore (hsub : S.SubRule k sub) (h : S.abreast p q ∨ S.past p q)
    {fuel fuel' : Nat} (hp : p.size < fuel) (hq : q.size < fuel') :
    S.Runs k p q (Parse.statementsBefore sub fuel) (Parse.statementsBefore sub fuel') S.Listed := by
  induction fuel generalizing fuel' p q with
  | zero => omega
  | succ fuel ih =>
    cases fuel' with
    | zero => omega
    | succ fuel' =>
      rcases h with h | ho
      · refine Runs.bind (runs_atMark h '}') fun b b' p₁ q₁ hp₁ hq₁ hb => ?_
        obtain rfl := hb.1
        cases b with
        | true => exact Runs.pure ⟨rfl, hb.abreast⟩
        | false =>
          refine Runs.bind (runs_statement hsub hb.abreast) fun a a' p₂ q₂ _ _ hf => ?_
          cases hf with
          | none ha _ => exact Runs.refuse _ rfl fun _ => S.stopped_of_abreast ha
          | some haa hs hlp hlq =>
            refine Runs.bind (ih hs (by omega) (by omega)) fun as as' _ _ _ _ has => Runs.pure ?_
            exact ⟨by simp [haa, has.1], has.2⟩
      · obtain ⟨p₁, hm, he⟩ := Parse.atMark_of_ended (S.ended_of_past ho) '}'
        have hbody : Parse.statementsBefore sub (fuel + 1) p = _ := bind_of_ok hm
        cases hst : Parse.statement sub p₁ with
        | ok a p₂ =>
          cases a with
          | none =>
            exact Runs.of_left_error (S.not_strict_of_past ho) (hbody.trans (bind_of_ok hst))
          | some node => exact absurd hst (statement_of_ended hsub he)
        | error e p₂ =>
          exact Runs.of_left_error (S.not_strict_of_past ho) (hbody.trans (bind_of_error hst))

theorem runs_block (hsub : S.SubRule k sub) (h : S.abreast p q) :
    S.Runs k p q (Parse.block sub) (Parse.block sub) (fun as bs p' q' =>
      as.map (Node.mapLines S.left) = bs.map (Node.mapLines S.right) ∧ S.Live p' q' ∧
        p'.size < p.size ∧ q'.size < q.size) := by
  refine Runs.bind (runs_skip_inner h '{' (by decide) (by decide)) fun _ _ p₁ q₁ _ _ h₁ => ?_
  refine Runs.bind (runs_setSemicolon (Or.inl h₁.1) true) fun _ _ p₂ q₂ _ _ h₂ => ?_
  have ha : S.abreast p₂ q₂ := by
    obtain ⟨rfl, rfl, -⟩ := h₂
    exact S.abreast_withSemicolon true h₁.1
  refine Runs.bind (Runs.bounded (runs_statementsBefore hsub (Or.inl ha) (by omega) (by omega)))
    fun as bs p₃ q₃ _ _ h₃ => ?_
  refine Runs.bind (runs_skip h₃.2 '}') fun _ _ p₄ q₄ _ _ h₄ => ?_
  refine Runs.bind (runs_setSemicolon h₄.1.live false) fun _ _ p₅ q₅ hp₅ hq₅ h₅ => Runs.pure ?_
  exact ⟨h₃.1, h₅.2.2, by omega, by omega⟩

theorem runs_condition (hsub : S.SubRule k sub) (h : S.abreast p q) :
    S.Runs k p q (Parse.condition sub) (Parse.condition sub) (fun a b p' q' =>
      a.mapLines S.left = b.mapLines S.right ∧ S.abreast p' q' ∧
        p'.size < p.size ∧ q'.size < q.size) := by
  refine Runs.bind (runs_skip_inner h '(' (by decide) (by decide)) fun _ _ p₁ q₁ _ _ h₁ => ?_
  refine Runs.bind (hsub.runs h₁.1) fun a b p₂ q₂ _ _ hf => ?_
  cases hf with
  | none ha _ => exact Runs.refuse _ rfl fun _ => S.stopped_of_abreast ha
  | some hab hl hlp hlq =>
    refine Runs.bind (runs_skip_of_live hl ')' (by decide) (by decide)) fun _ _ p₃ q₃ _ _ h₃ => ?_
    exact Runs.pure ⟨hab, h₃.1, by omega, by omega⟩

theorem runs_parenthesis (hsub : S.SubRule k sub) (h : S.abreast p q) :
    S.Runs (k + 1) p q (Parse.parenthesis sub) (Parse.parenthesis sub) (fun a b p' q' =>
      S.Formed a b p' q' ∧ p'.size < p.size ∧ q'.size < q.size) := by
  refine Runs.bind_taken (runs_skip_inner h '(' (by decide) (by decide)) fun _ _ p₁ q₁ _ _ h₁ => ?_
  refine ⟨h₁.2.1, h₁.2.2, ?_⟩
  refine Runs.bind (hsub.runs h₁.1) fun a b p₂ q₂ _ _ hf => ?_
  cases hf with
  | none ha _ => exact Runs.refuse _ rfl fun _ => S.stopped_of_abreast ha
  | some hab hl hlp hlq =>
    refine Runs.bind (runs_skip_of_live hl ')' (by decide) (by decide)) fun _ _ p₃ q₃ _ _ h₃ => ?_
    refine Runs.bind (runs_setSemicolon (Or.inl h₃.1) true) fun _ _ p₄ q₄ _ _ h₄ => ?_
    exact Runs.pure ⟨⟨hab, h₄.2.2⟩, by omega, by omega⟩

theorem parameters_eq {as bs : List Node} (function : String)
    (h : as.map (Node.mapLines S.left) = bs.map (Node.mapLines S.right)) :
    Parse.parameters function as = Parse.parameters function bs := by
  rw [← Parse.parameters_mapLines function S.left as, h, Parse.parameters_mapLines]

theorem runs_parameters (h : S.abreast p q) (function : String) (nodes : List Node) :
    S.Runs k p q (Parse.parameters function nodes) (Parse.parameters function nodes)
      (fun names names' p' q' => names = names' ∧ S.abreast p' q') := by
  induction nodes with
  | nil => exact Runs.pure ⟨rfl, h⟩
  | cons node nodes ih =>
    have hcons (name : String) : S.Runs k p q
        (do return name :: (← Parse.parameters function nodes))
        (do return name :: (← Parse.parameters function nodes))
        (fun names names' p' q' => names = names' ∧ S.abreast p' q') :=
      Runs.bind ih fun names names' p' q' _ _ hn => Runs.pure ⟨by rw [hn.1], hn.2⟩
    cases node with
    | declaration line name => exact hcons name
    | reference line name => exact hcons name
    | _ => exact Runs.refuse _ rfl fun _ => S.stopped_of_abreast h

theorem runs_letForm (hsub : S.SubRule k sub) (h : S.abreast p q) :
    S.Runs k p q (Parse.letForm sub) (Parse.letForm sub) S.Formed := by
  refine Runs.bind (runs_advance h) fun t t' p₁ q₁ _ _ ht => ?_
  cases ht with
  | none hs => exact Runs.refuse _ rfl fun _ => hs
  | @some t t' _ _ hseen hafter _ _ =>
    obtain ⟨l, pos⟩ := t
    obtain ⟨l', pos'⟩ := t'
    simp only [Token.seen, Prod.mk.injEq] at hseen hafter
    obtain ⟨rfl, hline⟩ := hseen
    cases l with
    | identifier name =>
      have h₁ := hafter.abreast (by simp) (by simp)
      refine Runs.bind (runs_atMark h₁ '(') fun b b' p₂ q₂ _ _ hb => ?_
      obtain rfl := hb.1
      cases b with
      | false => exact Runs.pure ⟨by simp [Node.mapLines, hline], Or.inl hb.abreast⟩
      | true =>
        refine Runs.bind (runs_arguments hsub hb.abreast) fun as bs p₃ q₃ _ _ has => ?_
        obtain ⟨⟨heq, h₃⟩, -⟩ := has
        rw [parameters_eq name heq]
        refine Runs.bind (runs_parameters h₃ name bs) fun ns ns' p₄ q₄ _ _ hn => ?_
        obtain ⟨rfl, h₄⟩ := hn
        refine Runs.bind (runs_block hsub h₄) fun body body' p₅ q₅ _ _ hbody => Runs.pure ?_
        exact ⟨by simp [Node.mapLines, Header.mapLines, hline, hbody.1], hbody.2.1⟩
    | _ => exact Runs.refuse _ rfl hafter.stopped

/-- The word `else` is looked for behind a block, where the parser on the left may be at its end. -/
theorem runs_atElse (h : S.Live p q) :
    S.Runs k p q (Parse.atName "else") (Parse.atName "else") (fun b b' p' q' =>
      b = b' ∧ S.Live p' q' ∧ (b = true → S.Tested (.identifier "else") b b' p' q')) := by
  rcases h with h | h
  · exact (runs_atName h "else").mono fun b b' p' q' hb => ⟨hb.1, Or.inl hb.abreast, fun _ => hb⟩
  · obtain ⟨p', t', q', hp, hq, hc, ht⟩ := S.closed_peek h
    have hl : Parse.atName "else" p = .ok false p' := bind_of_ok hp
    have hr : Parse.atName "else" q = .ok (t'.any (·.lexeme == .identifier "else")) q' :=
      bind_of_ok hq
    have hne : t'.any (·.lexeme == .identifier "else") = false := by
      cases t' with
      | none => rfl
      | some t => simpa using (ht t rfl).2
    unfold Runs
    rw [hl]
    rw [hne] at hr
    exact ⟨Parse.size_peek_le hp, false, q', hr, Parse.size_peek_le hq, rfl, Or.inr hc,
      fun hb => by cases hb⟩

def Branched (S : Simulation) (as bs : List Branch) (p q : Parser) : Prop :=
  as.map (Branch.mapLines S.left) = bs.map (Branch.mapLines S.right) ∧ S.Live p q

theorem runs_branchesFrom (hsub : S.SubRule k sub) (h : S.abreast p q) {a b : Node}
    (hab : a.mapLines S.left = b.mapLines S.right) {fuel fuel' : Nat} (hp : p.size < fuel)
    (hq : q.size < fuel') :
    S.Runs k p q (Parse.branchesFrom sub fuel a) (Parse.branchesFrom sub fuel' b) S.Branched := by
  induction fuel generalizing fuel' p q a b with
  | zero => omega
  | succ fuel ih =>
    cases fuel' with
    | zero => omega
    | succ fuel' =>
      have hline := Node.line_eq_of_mapLines_eq hab
      refine Runs.bind (runs_block hsub h) fun body body' p₁ q₁ _ _ hbody => ?_
      obtain ⟨hbody, hl, hlp, hlq⟩ := hbody
      have hbranch : (Branch.mk a.line a body).mapLines S.left =
          (Branch.mk b.line b body').mapLines S.right := by
        simp [Branch.mapLines, hline, hab, hbody]
      refine Runs.bind (runs_atElse hl) fun c c' p₂ q₂ _ _ hc => ?_
      obtain ⟨rfl, hl₂, hc⟩ := hc
      cases c with
      | false => exact Runs.pure ⟨by simp [hbranch], hl₂⟩
      | true =>
        obtain ⟨t, t', hpk, htl⟩ := (hc rfl).shows
        refine Runs.bind (runs_take hpk (by simp [htl]) (by simp [htl])) fun u u' p₃ q₃ _ _ hu => ?_
        obtain ⟨rfl, rfl, h₃, hlp₃, hlq₃⟩ := hu
        have helse : S.left t.pos.line = S.right t'.pos.line :=
          congrArg Prod.snd (Option.some.inj hpk.seen)
        refine Runs.bind (runs_atName h₃ "if") fun d d' p₄ q₄ _ _ hd => ?_
        obtain rfl := hd.1
        cases d with
        | true =>
          obtain ⟨v, v', hpk', hvl⟩ := hd.shows
          refine Runs.bind (runs_take hpk' (by simp [hvl]) (by simp [hvl])) fun w w' p₅ q₅ _ _ hw => ?_
          obtain ⟨rfl, rfl, h₅, -⟩ := hw
          refine Runs.bind (runs_condition hsub h₅) fun e e' p₆ q₆ _ _ he => ?_
          refine Runs.bind (ih he.2.1 he.1 (by omega) (by omega)) fun bs bs' _ _ _ _ hbs => ?_
          exact Runs.pure ⟨by simp [hbranch, hbs.1], hbs.2⟩
        | false =>
          refine Runs.bind (runs_peek hd.abreast) fun v v' p₅ q₅ _ _ hv => ?_
          have hlast : S.Runs k p₅ q₅
              (do return [Branch.mk a.line a body, Branch.mk t.pos.line
                (.literal t.pos.line (.boolean true)) (← Parse.block sub)])
              (do return [Branch.mk b.line b body', Branch.mk t'.pos.line
                (.literal t'.pos.line (.boolean true)) (← Parse.block sub)]) S.Branched := by
            refine Runs.bind (runs_block hsub hv.abreast) fun as as' _ _ _ _ has => Runs.pure ?_
            exact ⟨by simp [Branch.mapLines, Node.mapLines, hline, hab, hbody, helse, has.1], has.2.1⟩
          rcases Token.seen_cases hv.seen with ⟨rfl, rfl⟩ | ⟨l, pos, pos', rfl, rfl, -⟩
          · exact hlast
          · cases l with
            | identifier name => exact Runs.refuse _ rfl fun _ => S.stopped_of_abreast hv.abreast
            | _ => exact hlast

theorem runs_ifForm (hsub : S.SubRule k sub) (h : S.abreast p q) :
    S.Runs k p q (Parse.ifForm sub) (Parse.ifForm sub) S.Formed := by
  refine Runs.bind (runs_condition hsub h) fun a b p₁ q₁ _ _ hab => ?_
  have hline := Node.line_eq_of_mapLines_eq hab.1
  refine Runs.bind (Runs.bounded (runs_branchesFrom hsub hab.2.1 hab.1 (by omega) (by omega)))
    fun bs bs' p₂ q₂ _ _ hbs => ?_
  refine Runs.bind (runs_setSemicolon hbs.2 false) fun _ _ p₃ q₃ _ _ h₃ => Runs.pure ?_
  exact ⟨by simp [Node.mapLines, hline, hbs.1], h₃.2.2⟩

theorem runs_whileForm (hsub : S.SubRule k sub) (h : S.abreast p q) :
    S.Runs k p q (Parse.whileForm sub) (Parse.whileForm sub) S.Formed := by
  refine Runs.bind (runs_condition hsub h) fun a b p₁ q₁ _ _ hab => ?_
  have hline := Node.line_eq_of_mapLines_eq hab.1
  refine Runs.bind (runs_block hsub hab.2.1) fun as bs p₂ q₂ _ _ hbody => Runs.pure ?_
  exact ⟨by simp [Node.mapLines, hline, hab.1, hbody.1], hbody.2.1⟩

theorem runs_structForm (h : S.abreast p q) :
    S.Runs k p q Parse.structForm Parse.structForm S.Formed := by
  refine Runs.bind (runs_advance h) fun t t' p₁ q₁ _ _ ht => ?_
  cases ht with
  | none hs => exact Runs.refuse _ rfl fun _ => hs
  | @some t t' _ _ hseen hafter _ _ =>
    obtain ⟨l, pos⟩ := t
    obtain ⟨l', pos'⟩ := t'
    simp only [Token.seen, Prod.mk.injEq] at hseen hafter
    obtain ⟨rfl, hline⟩ := hseen
    cases l with
    | identifier name =>
      have h₁ := hafter.abreast (by simp) (by simp)
      refine Runs.bind (runs_skip_inner h₁ '{' (by decide) (by decide)) fun _ _ p₂ q₂ _ _ h₂ => ?_
      refine Runs.bind (runs_atMark h₂.1 '}') fun b b' p₃ q₃ _ _ hb => ?_
      obtain rfl := hb.1
      cases b with
      | false => exact Runs.refuse_bind _ rfl fun _ => S.stopped_of_abreast hb.abreast
      | true =>
        refine Runs.bind (runs_skip hb.abreast '}') fun _ _ p₄ q₄ _ _ h₄ => ?_
        refine Runs.bind (runs_setSemicolon h₄.1.live false) fun _ _ p₅ q₅ _ _ h₅ => Runs.pure ?_
        exact ⟨by simp [Node.mapLines, hline], h₅.2.2⟩
    | _ => exact Runs.refuse _ rfl hafter.stopped

theorem runs_nameForm (hsub : S.SubRule k sub) (h : S.abreast p q) (name : String) {line line' : Nat}
    (hline : S.left line = S.right line') :
    S.Runs k p q (Parse.nameForm sub name line) (Parse.nameForm sub name line') S.Formed := by
  refine Runs.bind (runs_atMark h '.') fun b b' p₁ q₁ _ _ hb => ?_
  obtain rfl := hb.1
  cases b with
  | true =>
    obtain ⟨t, t', hpk, htl⟩ := hb.shows
    refine Runs.bind (runs_take hpk (by simp [htl]) (by simp [htl])) fun u u' p₂ q₂ _ _ hu => ?_
    obtain ⟨rfl, rfl, h₂, -⟩ := hu
    refine Runs.bind (runs_advance h₂) fun v v' p₃ q₃ _ _ hv => ?_
    cases hv with
    | none hs => exact Runs.refuse_bind _ rfl fun _ => hs
    | @some v v' _ _ hseen hafter _ _ =>
      obtain ⟨l, pos⟩ := v
      obtain ⟨l', pos'⟩ := v'
      simp only [Token.seen, Prod.mk.injEq] at hseen hafter
      obtain ⟨rfl, -⟩ := hseen
      cases l with
      | identifier attr =>
        have h₃ := hafter.abreast (by simp) (by simp)
        refine Runs.bind (runs_atMark h₃ '(') fun c c' p₄ q₄ _ _ hc => ?_
        obtain rfl := hc.1
        cases c with
        | true =>
          refine Runs.bind (runs_arguments hsub hc.abreast) fun as bs p₅ q₅ _ _ has => Runs.pure ?_
          exact ⟨by simp [Node.mapLines, hline, has.1.1], Or.inl has.1.2⟩
        | false => exact Runs.pure ⟨by simp [Node.mapLines, hline], Or.inl hc.abreast⟩
      | _ => exact Runs.refuse_bind _ rfl hafter.stopped
  | false =>
    refine Runs.bind (runs_atMark hb.abreast '(') fun c c' p₂ q₂ _ _ hc => ?_
    obtain rfl := hc.1
    cases c with
    | true =>
      refine Runs.bind (runs_arguments hsub hc.abreast) fun as bs p₃ q₃ _ _ has => Runs.pure ?_
      exact ⟨by simp [Node.mapLines, hline, has.1.1], Or.inl has.1.2⟩
    | false => exact Runs.pure ⟨by simp [Node.mapLines, hline], Or.inl hc.abreast⟩

theorem runs_returnForm (hsub : S.SubRule k sub) (h : S.abreast p q) {line line' : Nat}
    (hline : S.left line = S.right line') :
    S.Runs k p q (Parse.returnForm sub line) (Parse.returnForm sub line') S.Formed := by
  refine Runs.bind (runs_atMark h ';') fun b b' p₁ q₁ _ _ hb => ?_
  obtain rfl := hb.1
  cases b with
  | true => exact Runs.pure ⟨by simp [Node.mapLines, hline], Or.inl hb.abreast⟩
  | false =>
    refine Runs.bind (hsub.runs hb.abreast) fun a a' p₂ q₂ _ _ hf => Runs.pure ?_
    cases hf with
    | none ha _ => exact ⟨by simp [Node.mapLines, hline], Or.inl ha⟩
    | some haa hl _ _ => exact ⟨by simp [Node.mapLines, hline, haa], hl⟩

/-- Whatever a name begins is read abreast. -/
theorem runs_namedForm (hsub : S.SubRule k sub) (h : S.abreast p q) (name : String)
    {line line' : Nat} (hline : S.left line = S.right line') :
    S.Runs k p q (Parse.namedForm sub name line) (Parse.namedForm sub name line') S.Formed := by
  unfold Parse.namedForm
  split
  · exact Runs.pure ⟨by simp [Node.mapLines, hline], Or.inl h⟩
  · exact Runs.pure ⟨by simp [Node.mapLines, hline], Or.inl h⟩
  · exact runs_returnForm hsub h hline
  · exact Runs.pure ⟨by simp [Node.mapLines, hline], Or.inl h⟩
  · exact Runs.pure ⟨by simp [Node.mapLines, hline], Or.inl h⟩
  · exact runs_letForm hsub h
  · exact runs_ifForm hsub h
  · exact runs_whileForm hsub h
  · exact Runs.refuse _ rfl fun _ => S.stopped_of_abreast h
  · exact runs_structForm h
  · exact runs_nameForm hsub h name hline
  · exact runs_nameForm hsub h name hline

theorem runs_identifier (hsub : S.SubRule k sub) {t t' : Token} {name : String}
    (h : S.Peeked (some t) (some t') p q) (hl : t.lexeme = .identifier name) :
    S.Runs (k + 1) p q (Parse.identifier sub) (Parse.identifier sub) (S.Found p q) := by
  have hseen : t.seen S.left = t'.seen S.right := Option.some.inj h.seen
  have hlex : t.lexeme = t'.lexeme := congrArg Prod.fst hseen
  have hline : S.left t.pos.line = S.right t'.pos.line := congrArg Prod.snd hseen
  refine Runs.bind_taken (runs_take h (by simp [hl]) (by simp [hl])) fun u u' p₁ q₁ _ _ hu => ?_
  obtain ⟨rfl, rfl, h₁, hlp, hlq⟩ := hu
  refine ⟨hlp, hlq, ?_⟩
  simp only [← hlex]
  refine Runs.map (runs_namedForm hsub h₁ t.lexeme.shown hline) fun a b p₂ q₂ hp₂ hq₂ hab => ?_
  exact .some hab.1 hab.2 (by omega) (by omega)

theorem runs_literal {t t' : Token} {value : Literal} (h : S.Peeked (some t) (some t') p q)
    (hb : t.lexeme ≠ .punctuation '}') (hs : t.lexeme ≠ .punctuation ';') :
    S.Runs k p q (Parse.literal t.pos.line value) (Parse.literal t'.pos.line value)
      (S.Found p q) := by
  have hseen : t.seen S.left = t'.seen S.right := Option.some.inj h.seen
  have hline : S.left t.pos.line = S.right t'.pos.line := congrArg Prod.snd hseen
  refine Runs.bind (runs_take h hb hs) fun u u' p₁ q₁ _ _ hu => Runs.pure ?_
  obtain ⟨rfl, rfl, h₁, hlp, hlq⟩ := hu
  exact .some (by simp [Node.mapLines, hline]) (Or.inl h₁) hlp hlq

theorem runs_operand (hsub : S.SubRule k sub) (h : S.abreast p q) :
    S.Runs (k + 1) p q (Parse.operand sub) (Parse.operand sub) (S.Found p q) := by
  refine Runs.bind (runs_peek h) fun t t' p₁ q₁ hp hq hpk => ?_
  have hfar {a b p' q'} (hf : S.Found p₁ q₁ a b p' q') : S.Found p q a b p' q' := by
    cases hf with
    | none ha hn => exact .none ha hn
    | some hab hl hlp hlq => exact .some hab hl (by omega) (by omega)
  rcases Token.seen_cases hpk.seen with ⟨rfl, rfl⟩ | ⟨l, pos, pos', rfl, rfl, hline⟩
  · exact Runs.pure (.none hpk.abreast hpk.left)
  · cases l with
    | identifier name => exact (runs_identifier hsub hpk rfl).mono fun _ _ _ _ => hfar
    | text s => exact (runs_literal hpk (by simp) (by simp)).mono fun _ _ _ _ => hfar
    | integer n => exact (runs_literal hpk (by simp) (by simp)).mono fun _ _ _ _ => hfar
    | float x => exact (runs_literal hpk (by simp) (by simp)).mono fun _ _ _ _ => hfar
    | operator s => exact Runs.refuse _ rfl fun _ => S.stopped_of_abreast hpk.abreast
    | punctuation c =>
      by_cases hc : c = '('
      · subst hc
        refine Runs.map (runs_parenthesis hsub hpk.abreast) fun a b p₂ q₂ hp₂ hq₂ hab => ?_
        exact .some hab.1.1 hab.1.2 (by omega) (by omega)
      · split
        case h_7 heq =>
          cases heq
          split
          case h_7 heq =>
            cases heq
            exact Runs.refuse _ rfl fun _ => S.stopped_of_abreast hpk.abreast
          all_goals simp_all
        all_goals simp_all

inductive Met (S : Simulation) : Option Parse.Ahead → Option Parse.Ahead → Parser → Parser → Prop
  | none {p' q'} : S.Live p' q' → Met S none none p' q'
  | some {s power line line' t t' p' q'} : S.left line = S.right line' → t.lexeme = .operator s →
    S.Peeked (some t) (some t') p' q' → Met S (some ⟨s, power, line⟩) (some ⟨s, power, line'⟩) p' q'

theorem Met.live {op op' : Option Parse.Ahead} (h : S.Met op op' p q) : S.Live p q := by
  cases h with
  | none hl => exact hl
  | some _ _ hpk => exact Or.inl hpk.abreast

theorem Met.any_power {op op' : Option Parse.Ahead} (h : S.Met op op' p q) (test : Nat → Bool) :
    op.any (fun next => test next.power) = op'.any (fun next => test next.power) := by
  cases h <;> rfl

theorem runs_operatorAhead (h : S.Live p q) :
    S.Runs k p q Parse.operatorAhead Parse.operatorAhead S.Met := by
  rcases h with h | h
  · refine Runs.bind (runs_peek h) fun t t' p₁ q₁ _ _ hpk => ?_
    rcases Token.seen_cases hpk.seen with ⟨rfl, rfl⟩ | ⟨l, pos, pos', rfl, rfl, hline⟩
    · exact Runs.pure (.none (Or.inl hpk.abreast))
    · cases l with
      | operator s =>
        refine Runs.pure ?_
        cases Operator.power? s with
        | none => exact .none (Or.inl hpk.abreast)
        | some power => exact .some hline rfl hpk
      | _ => exact Runs.pure (.none (Or.inl hpk.abreast))
  · obtain ⟨p', t', q', hp, hq, hc, ht⟩ := S.closed_peek h
    have hl : Parse.operatorAhead p = .ok none p' := bind_of_ok hp
    have hr : Parse.operatorAhead q = .ok none q' := by
      refine (bind_of_ok hq).trans ?_
      cases t' with
      | none => rfl
      | some t =>
        obtain ⟨l, pos⟩ := t
        have hsep := (ht _ rfl).1
        cases l with
        | operator s => cases hsep
        | _ => rfl
    unfold Runs
    rw [hl]
    exact ⟨Parse.size_peek_le hp, none, q', hr, Parse.size_peek_le hq, .none (Or.inr hc)⟩

def Linked (S : Simulation) (as bs : List Link) (p q : Parser) : Prop :=
  as.map (Link.mapLines S.left) = bs.map (Link.mapLines S.right) ∧ S.Live p q

/-- Chains of operators are read abreast, link by link. -/
theorem runs_links (hsub : S.SubRule k sub) (h : S.Live p q) {fuel fuel' : Nat} (floor : Nat)
    (hp : p.size < fuel) (hq : q.size < fuel') :
    S.Runs (k + 1) p q (Parse.links sub fuel floor) (Parse.links sub fuel' floor) S.Linked := by
  induction fuel generalizing fuel' p q floor with
  | zero => omega
  | succ fuel ih =>
    cases fuel' with
    | zero => omega
    | succ fuel' =>
      refine Runs.bind (runs_operatorAhead h) fun op op' p₁ q₁ hp₁ hq₁ hop => ?_
      cases hop with
      | none hl => exact Runs.pure ⟨rfl, hl⟩
      | @some s power line line' t t' _ _ hline hlex hpk =>
        simp only
        split
        · exact Runs.pure ⟨rfl, Or.inl hpk.abreast⟩
        · refine Runs.bind (runs_take hpk (by simp [hlex]) (by simp [hlex]))
            fun u u' p₂ q₂ _ _ hu => ?_
          obtain ⟨rfl, rfl, h₂, hlp, hlq⟩ := hu
          refine Runs.bind (runs_operand hsub h₂) fun a b p₃ q₃ _ _ hf => ?_
          cases hf with
          | none ha _ => exact Runs.refuse _ rfl fun _ => S.stopped_of_abreast ha
          | @some a b _ _ hab hl₃ _ _ =>
            refine Runs.bind (runs_operatorAhead hl₃) fun next next' p₄ q₄ _ _ hnext => ?_
            rw [hnext.any_power fun n => decide (power < n)]
            -- The operators that bind tighter go to the right operand, the others follow.
            have hrest {inner inner' : List Link} {p₅ q₅} (hi : S.Linked inner inner' p₅ q₅)
                (hp₅ : p₅.size ≤ p₄.size) (hq₅ : q₅.size ≤ q₄.size) :
                S.Runs (k + 1) p₅ q₅
                  (do return ⟨s, line, a.extend inner⟩ :: (← Parse.links sub fuel floor))
                  (do return ⟨s, line', b.extend inner'⟩ :: (← Parse.links sub fuel' floor))
                  S.Linked := by
              refine Runs.bind (ih hi.2 floor (by omega) (by omega)) fun ls ls' _ _ _ _ hls => ?_
              refine Runs.pure ⟨?_, hls.2⟩
              have he : (a.extend inner).mapLines S.left = (b.extend inner').mapLines S.right := by
                rw [Node.extend_mapLines, Node.extend_mapLines, hab, hi.1]
              simp [Link.mapLines, hline, he, hls.1]
            split
            · refine Runs.bind (ih hnext.live (power + 1) (by omega) (by omega))
                fun inner inner' p₅ q₅ hp₅ hq₅ hi => ?_
              exact hrest hi hp₅ hq₅
            · exact hrest ⟨rfl, hnext.live⟩ (Nat.le_refl _) (Nat.le_refl _)

/-- Expressions are read abreast. -/
theorem runs_expression (hsub : S.SubRule k sub) (h : S.abreast p q) :
    S.Runs (k + 1) p q (Parse.expression sub) (Parse.expression sub) (S.Found p q) := by
  refine Runs.bind (runs_operand hsub h) fun a b p₁ q₁ _ _ hf => ?_
  cases hf with
  | none ha hn => exact Runs.pure (.none ha hn)
  | @some a b _ _ hab hl hlp hlq =>
    refine Runs.bind (Runs.bounded (runs_links hsub hl 0 (by omega) (by omega)))
      fun ls ls' p₂ q₂ hp₂ hq₂ hls => Runs.pure ?_
    refine .some ?_ hls.2 (by omega) (by omega)
    rw [Node.extend_mapLines, Node.extend_mapLines, hab, hls.1]

theorem expression_of_ended (sub : Parse (Option Node)) (h : p.Ended) :
    ∃ p', Parse.expression sub p = .ok none p' := by
  obtain ⟨p', hp⟩ := h
  have ho : Parse.operand sub p = .ok none p' := bind_of_ok hp
  exact ⟨p', bind_of_ok ho⟩

/-- Expressions keep two parsers in step, however deeply they may nest. -/
theorem primary_subRule (S : Simulation) (k : Nat) : S.SubRule k (Parse.primary k) := by
  induction k with
  | zero =>
    constructor
    · intro p q h hs
      exact ⟨fun _ => ⟨Nat.zero_le _, Nat.zero_le _⟩, .nesting, q, rfl, S.faults_nesting,
        S.stopped_of_abreast h⟩
    · intro p p' node _ hn
      cases hn
  | succ k ih =>
    constructor
    · intro p q h
      exact runs_expression ih h
    · intro p p' node h hn
      obtain ⟨p₁, hp⟩ := expression_of_ended (Parse.primary k) h
      have hn' : Parse.expression (Parse.primary k) p = .ok (some node) p' := hn
      rw [hp] at hn'
      cases hn'

/-- The next statement is read abreast, at whatever nesting. -/
theorem runs_next (nesting : Nat) (h : S.abreast p q) :
    S.Runs nesting p q (Parse.next nesting) (Parse.next nesting) (S.Stated p q) :=
  runs_statement (primary_subRule S nesting) h

/-- Under a strict simulation, whole programs are read side by side. -/
theorem runs_statements (hs : S.strict) (nesting : Nat) (h : S.abreast p q) {fuel fuel' : Nat}
    (hp : p.size < fuel) (hq : q.size < fuel') :
    S.Runs nesting p q (Parse.statements nesting fuel) (Parse.statements nesting fuel') S.Listed := by
  induction fuel generalizing fuel' p q with
  | zero => omega
  | succ fuel ih =>
    cases fuel' with
    | zero => omega
    | succ fuel' =>
      refine Runs.bind (runs_next nesting h) fun a b p₁ q₁ _ _ hst => ?_
      cases hst with
      | none ha _ => exact Runs.pure ⟨rfl, ha⟩
      | some hab hao hlp hlq =>
        have ha : S.abreast p₁ q₁ := hao.resolve_right fun ho => S.not_strict_of_past ho hs
        refine Runs.bind (ih ha (by omega) (by omega)) fun as bs p₂ q₂ _ _ has => Runs.pure ?_
        exact ⟨by simp [hab, has.1], has.2⟩

end ScriptLang.Simulation
