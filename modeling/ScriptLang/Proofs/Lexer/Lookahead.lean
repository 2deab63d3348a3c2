import ScriptLang.Proofs.Lexer.Splitting
import ScriptLang.Proofs.Steps

/-! Looking ahead. A lexer holds the tokens that are left to be taken, whether or not the first of them was
looked at already. Whatever it is asked for, it answers with the first token it holds, and only taking drops
this token, so a look can be put in anywhere without a change to what is taken. -/
namespace ScriptLang

namespace Cursor
variable {c d : Cursor} {tokens : List Token}

/-- Reading on from a cursor gives these tokens and then the end of the text. -/
inductive Holds : Cursor → List Token → Prop
  | ended {c d : Cursor} : read c = .ok none d → Holds c []
  | cons {c d : Cursor} {t : Token} {tokens : List Token} : read c = .ok (some t) d →
    Holds d tokens → Holds c (t :: tokens)

/-- The end of the text stays where it was found. -/
theorem read_behind_end (h : read c = .ok none d) : read d = .ok none d := by
  have hrest : d.rest = [] := read_none h
  cases d with
  | mk rest pos file =>
    cases hrest
    rfl

/-- A cursor reads the first token it holds, and at the end it goes on finding the end. -/
theorem Holds.read (h : c.Holds tokens) :
    ∃ d, Cursor.read c = .ok tokens.head? d ∧ d.Holds tokens.tail := by
  cases h with
  | ended hread => exact ⟨_, hread, .ended (read_behind_end hread)⟩
  | cons hread hrest => exact ⟨_, hread, hrest⟩

end Cursor

namespace Lexer
variable {lexer : Lexer} {tokens : List Token} {text file : String}

/-- These tokens are left to be taken from a lexer. What it has looked ahead to, a token or the end, is the
first of them and stands behind its cursor. -/
inductive Holds : Lexer → List Token → Prop
  | unread {c : Cursor} {tokens : List Token} : c.Holds tokens → Holds ⟨c, none⟩ tokens
  | ahead {c : Cursor} {tokens : List Token} : c.Holds tokens.tail → Holds ⟨c, some tokens.head?⟩ tokens

inductive Question
  | next
  | peek
deriving DecidableEq

namespace Question

def ask : Question → EStateM Fault Lexer (Option Token)
  | next => Lexer.next
  | peek => Lexer.peek

def left (tokens : List Token) : Question → List Token
  | next => tokens.tail
  | peek => tokens

/-- The answers that the list of tokens gives: each question is answered with the token behind those that
the questions before it have taken. -/
def answers (tokens : List Token) (questions : List Question) : List (Option Token) :=
  (List.range questions.length).map fun i => tokens[(questions.take i).count next]?

theorem left_eq_drop (question : Question) (tokens : List Token) (taken : Nat) :
    (question.left tokens).drop taken = tokens.drop ([question].count next + taken) := by
  cases question with
  | next =>
    have hcount : [next].count next = 1 := rfl
    rw [hcount, left, ← List.drop_one, List.drop_drop]
  | peek =>
    have hcount : [peek].count next = 0 := rfl
    rw [hcount, left, Nat.zero_add]

/-- The first question is answered with the next token, the others with what it leaves. -/
theorem answers_cons (question : Question) (questions : List Question) (tokens : List Token) :
    answers tokens (question :: questions) =
      tokens.head? :: answers (question.left tokens) questions := by
  have hlater (i : Nat) : tokens[((question :: questions).take (i + 1)).count next]? =
      (question.left tokens)[(questions.take i).count next]? := by
    have hcount : ((question :: questions).take (i + 1)).count next =
        [question].count next + (questions.take i).count next := by
      rw [List.take_succ_cons, ← List.singleton_append, List.count_append]
    rw [hcount, ← List.head?_drop, ← List.head?_drop, left_eq_drop]
  unfold answers
  rw [List.length_cons, List.range_succ_eq_map, List.map_cons, List.map_map]
  apply congrArg₂ List.cons
  · exact List.head?_eq_getElem?.symm
  · apply List.map_congr_left
    intro i _
    exact hlater i

end Question

/-- Either way of asking is answered with the first token, and taking alone drops it. -/
theorem Holds.ask (h : lexer.Holds tokens) (question : Question) :
    ∃ after, question.ask lexer = .ok tokens.head? after ∧ after.Holds (question.left tokens) := by
  cases h with
  | @unread c _ hc =>
    obtain ⟨d, hread, hd⟩ := hc.read
    cases question with
    | next =>
      refine ⟨⟨d, none⟩, ?_, .unread hd⟩
      simp only [Question.ask, next, hread]
    | peek =>
      refine ⟨⟨d, some tokens.head?⟩, ?_, .ahead hd⟩
      simp only [Question.ask, peek, hread]
  | @ahead c _ hc =>
    cases question with
    | next => exact ⟨⟨c, none⟩, rfl, .unread hc⟩
    | peek => exact ⟨_, rfl, .ahead hc⟩

/-- Questions one after another are answered by the list of the tokens, and leave those that none of them
has taken. -/
theorem Holds.answers (h : lexer.Holds tokens) (questions : List Question) :
    ∃ after, questions.mapM Question.ask lexer = .ok (Question.answers tokens questions) after ∧
      after.Holds (tokens.drop (questions.count .next)) := by
  induction questions generalizing lexer tokens with
  | nil => exact ⟨lexer, rfl, h⟩
  | cons question questions ih =>
    obtain ⟨middle, hfirst, hmiddle⟩ := h.ask question
    obtain ⟨after, hrest, hafter⟩ := ih hmiddle
    refine ⟨after, ?_, ?_⟩
    · rw [Question.answers_cons, List.mapM_cons]
      exact (bind_of_ok hfirst).trans (bind_of_ok hrest)
    · rw [← List.singleton_append, List.count_append, ← Question.left_eq_drop]
      exact hafter

/-- Where all tokens from a cursor on can be listed, the cursor holds them. -/
theorem holds_of_tokensFrom {fuel : Nat} {c : Cursor} (h : tokensFrom fuel c = .ok tokens) :
    c.Holds tokens := by
  induction fuel generalizing c tokens with
  | zero => cases h
  | succ fuel ih =>
    cases hread : Cursor.read c with
    | error fault d =>
      rw [tokensFrom_of_read_error hread] at h
      cases h
    | ok t d =>
      cases t with
      | none =>
        rw [tokensFrom_of_read_none hread] at h
        cases h
        exact .ended hread
      | some t =>
        rw [tokensFrom_of_read_some hread] at h
        cases hrest : tokensFrom fuel d with
        | error fault =>
          rw [hrest] at h
          cases h
        | ok rest =>
          rw [hrest] at h
          cases h
          exact .cons hread (ih hrest)

/-- Questions to one lexer, in any number and order, are all answered, each with the token behind those
taken so far, or with none behind the last one. Looking then shows just what taking would give. -/
theorem lookahead_keeps_tokens (h : tokenize text file = .ok tokens) (questions : List Question) :
    ∃ after,
      questions.mapM Question.ask (ofText text file) = .ok (Question.answers tokens questions) after ∧
      ∀ question : Question, ∃ last, question.ask after = .ok tokens[questions.count .next]? last := by
  have hstart : (ofText text file).Holds tokens := .unread (holds_of_tokensFrom h)
  obtain ⟨after, hrun, hafter⟩ := hstart.answers questions
  refine ⟨after, hrun, fun question => ?_⟩
  obtain ⟨last, hlast, -⟩ := hafter.ask question
  rw [List.head?_drop] at hlast
  exact ⟨last, hlast⟩

/-- Two tokens on three lines are looked at and taken, and the end behind them too. -/
theorem lookahead_keeps_tokens_of_openLine :
    let first : Token := ⟨.text "a\nb", ⟨1, 1⟩⟩
    let second : Token := ⟨.operator "+//", ⟨3, 0⟩⟩
    tokenize " \"a\nb\"\n+//" "f" = .ok [first, second] ∧
      ∃ after, [Question.peek, .next, .peek, .peek, .next, .peek, .next, .next].mapM Question.ask
        (ofText " \"a\nb\"\n+//" "f") =
          .ok [first, first, second, second, second, none, none, none] after := by
  intro first second
  have htokens : tokenize " \"a\nb\"\n+//" "f" = .ok [first, second] := by cbv
  obtain ⟨after, hrun, -⟩ := lookahead_keeps_tokens htokens
    [.peek, .next, .peek, .peek, .next, .peek, .next, .next]
  exact ⟨htokens, after, hrun⟩

end Lexer
end ScriptLang
