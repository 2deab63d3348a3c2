/-!
Binary operators and keywords. Every operator associates to the left; a higher power binds tighter.
-/
namespace ScriptLang

inductive Comparison
  | lt | gt | le | ge | eq | ne
deriving DecidableEq, Repr

/-- Whether the comparison holds of two things that compare so; things that do not compare are only
unequal. -/
def Comparison.holds : Comparison → Option Ordering → Bool
  | lt, o => o == some .lt
  | gt, o => o == some .gt
  | le, o => o == some .lt || o == some .eq
  | ge, o => o == some .gt || o == some .eq
  | eq, o => o == some .eq
  | ne, o => o != some .eq

inductive Arithmetic
  | add | sub | mul | div | mod
deriving DecidableEq, Repr

inductive Operator
  | assign | addAssign | subAssign | or | and
  | comparison (c : Comparison)
  | arithmetic (a : Arithmetic)
deriving DecidableEq, Repr

namespace Operator

def all : List Operator :=
  [assign, addAssign, subAssign, or, and, comparison .lt, comparison .gt, comparison .le,
    comparison .ge, comparison .eq, comparison .ne, arithmetic .add, arithmetic .sub,
    arithmetic .mul, arithmetic .div, arithmetic .mod]

def spelling : Operator → String
  | assign => "="
  | addAssign => "+="
  | subAssign => "-="
  | or => "||"
  | and => "&&"
  | comparison .lt => "<"
  | comparison .gt => ">"
  | comparison .le => "<="
  | comparison .ge => ">="
  | comparison .eq => "=="
  | comparison .ne => "!="
  | arithmetic .add => "+"
  | arithmetic .sub => "-"
  | arithmetic .mul => "*"
  | arithmetic .div => "/"
  | arithmetic .mod => "%"

def power : Operator → Nat
  | assign | addAssign | subAssign => 1
  | or => 5
  | and => 6
  | comparison _ => 10
  | arithmetic .add | arithmetic .sub => 20
  | arithmetic _ => 30

def ofSpelling? (s : String) : Option Operator :=
  all.find? (·.spelling == s)

def power? (s : String) : Option Nat :=
  (ofSpelling? s).map power

theorem mem_all (o : Operator) : o ∈ all := by
  cases o with
  | comparison c => cases c <;> simp [all]
  | arithmetic a => cases a <;> simp [all]
  | _ => simp [all]

/-- Reading a spelling gives its operator back. -/
theorem ofSpelling?_spelling (o : Operator) : ofSpelling? o.spelling = some o := by
  cases o with
  | comparison c => cases c <;> decide
  | arithmetic a => cases a <;> decide
  | _ => decide

theorem ofSpelling?_eq_some_iff (s : String) (o : Operator) :
    ofSpelling? s = some o ↔ s = o.spelling := by
  constructor
  · intro h
    have := List.find?_some h
    simpa using (beq_iff_eq.mp this).symm
  · rintro rfl
    exact ofSpelling?_spelling o

end Operator

inductive Keyword
  | letForm | ifForm | elseForm | forForm | whileForm | returnForm | breakForm | continueForm
  | trueForm | falseForm | structForm
deriving DecidableEq, Repr

namespace Keyword

def ofName? : String → Option Keyword
  | "let" => some letForm
  | "if" => some ifForm
  | "else" => some elseForm
  | "for" => some forForm
  | "while" => some whileForm
  | "return" => some returnForm
  | "break" => some breakForm
  | "continue" => some continueForm
  | "true" => some trueForm
  | "false" => some falseForm
  | "struct" => some structForm
  | _ => none

end Keyword
end ScriptLang
