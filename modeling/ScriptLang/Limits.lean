/-!
Limits on what is worked on before it is given up. Reading and evaluating are bounded by them alone:
a program that stays within its limits is not changed by wider ones.
-/
namespace ScriptLang

structure Limits where
  /-- How deeply the expressions of a text may nest. -/
  expressions : Nat
  /-- How deeply evaluations may nest. -/
  evaluations : Nat
  /-- How many rounds a loop may take. -/
  rounds : Nat
  /-- How many levels a tree may have that is listed. -/
  listings : Nat

def Limits.standard : Limits :=
  ⟨500, 1000, 1000000000000000000, 330⟩

end ScriptLang
