import ScriptLang.Proofs.Lexer.Splitting
import ScriptLang.Proofs.Parser.Phrases

/-! The trees that come from the parser are well formed, since every token it takes was read from a text. -/
namespace ScriptLang

/-- Every token read from a text is a legal one. -/
theorem Cursor.legal_of_readSignificant {c d : Cursor} {t : Token}
    (h : c.readSignificant = .ok (some t) d) : t.lexeme.Legal := by
  fun_induction readSignificant c with
  | case1 c u d' hread hc ih => exact ih h
  | case2 c u d' hread hc =>
    cases h
    obtain ⟨space, written, -, hl, -⟩ := longest_of_read hread
    exact ⟨written, _, hl⟩
  | case3 c d' hread => cases h
  | case4 c fault d' hread => cases h

namespace Parser

def Legal (p : Parser) : Prop :=
  ∀ t, p.lexer.ahead = some (some t) → t.lexeme.Legal

variable {nesting : Nat} {text file : String} {p q : Parser}

theorem legal_ofText (text file : String) : (ofText text file).Legal :=
  nofun

theorem Legal.peek {t : Option Token} (hp : p.Legal) (h : Parse.peek p = .ok t q) : q.Legal := by
  have hread {c : Cursor} (hr : p.resume c.readSignificant = .ok t q) : q.Legal := by
    cases hc : c.readSignificant with
    | error fault d =>
      rw [hc] at hr
      cases hr
    | ok u d =>
      rw [hc] at hr
      cases hr
      rintro t ⟨⟩
      exact Cursor.legal_of_readSignificant hc
  rw [Parse.peek_eq] at h
  split at h
  · exact hread h
  · split at h
    · exact hread h
    · cases h
      exact hp

/-- Every token that is taken was read from a text. -/
theorem Took.legal {ts : List Token} (h : p.Took ts q) (hp : p.Legal) : q.Legal ∧ AllLegal ts := by
  induction h with
  | refl => exact ⟨hp, List.forall_mem_nil _⟩
  | peek hpeek _ ih => exact ih (hp.peek hpeek)
  | take hs _ ih =>
    obtain ⟨hq, hts⟩ := ih nofun
    exact ⟨hq, List.forall_mem_cons.mpr ⟨hp _ hs.ahead, hts⟩⟩
  | tell needed _ ih => exact ih hp

/-- Every statement of a text is well formed, also where a later one is not a statement at all. -/
theorem wellFormed_of_mem_drainFrom {fuel : Nat} (hp : p.Legal) :
    ∀ n ∈ (drainFrom nesting fuel p).1, n.WellFormed := by
  induction fuel generalizing p with
  | zero => exact List.forall_mem_nil _
  | succ fuel ih =>
    unfold drainFrom
    cases hn : Parse.next nesting p with
    | error fault q => exact List.forall_mem_nil _
    | ok a q =>
      obtain ⟨ts, htook, hstated⟩ := (Parse.traced_next nesting p).of_ok hn
      obtain ⟨hq, hts⟩ := htook.legal hp
      cases a with
      | none => exact List.forall_mem_nil _
      | some node => exact List.forall_mem_cons.mpr ⟨hstated.formed hts node rfl, ih hq⟩

/-- Every statement that a text is drained of is well formed. -/
theorem wellFormed_of_mem_drain : ∀ n ∈ ((ofText text file).drain nesting).1, n.WellFormed :=
  wellFormed_of_mem_drainFrom (legal_ofText text file)

/-- A text that is parsed gives well-formed statements only. -/
theorem wellFormed_of_parse {nodes : List Node} (h : parse nesting text file = .ok nodes) :
    ∀ n ∈ nodes, n.WellFormed := by
  rw [parse_eq] at h
  split at h
  · next nodes' q hq =>
    cases h
    obtain ⟨ts, htook, hformed⟩ := (Parse.traced_statements _ _ _).of_ok hq
    exact hformed (htook.legal (legal_ofText text file)).2
  · cases h

end Parser
end ScriptLang
