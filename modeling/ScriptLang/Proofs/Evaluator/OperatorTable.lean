import ScriptLang.Proofs.Evaluator.Arithmetic
import ScriptLang.Proofs.Evaluator.Operations

/-! The table of operators: which operators there are for which types of operands, and the type of what
they give. An operator applies exactly where it is in the table, whatever its result is. -/
namespace ScriptLang

namespace Binary64

theorem exists_ratio_one {e : Int} (h : e ≤ 0) : ∃ k, ratio 1 e = (1, 2 ^ k) := by
  unfold ratio
  by_cases he : 0 ≤ e
  · obtain rfl : e = 0 := by omega
    exact ⟨0, rfl⟩
  · exact ⟨(-e).toNat, by rw [if_neg he, Nat.one_shiftLeft]⟩

theorem roundDiv_one (n : Nat) : roundDiv n 1 = n := by
  simp [roundDiv, Nat.mod_one]

/-- Integers that the mantissa has room for are not rounded to zero. -/
theorem isZero_round {n : Nat} (hn : n ≠ 0) (h : n < 2 ^ 53) (negative : Bool) :
    (round negative n 1).isZero = false := by
  have hlog : n.log2 < 53 := (Nat.log2_lt hn).mpr h
  have hfloor := floorLog_le_log2 n
  obtain ⟨k, hk⟩ := exists_ratio_one (e := max (floorLog n 1 - 52) leastExponent) (by
    unfold leastExponent
    omega)
  have hpos : n * 2 ^ k ≠ 0 := Nat.mul_ne_zero hn (Nat.two_pow_pos k).ne'
  unfold round
  simp only [if_neg hn, hk, Nat.one_mul, roundDiv_one]
  split
  · split <;> rfl
  · split
    · rfl
    · exact decide_eq_false hpos

end Binary64

def Value.Fits (v : Value) : Prop :=
  ∀ n, v = .integer n → -2 ^ 31 ≤ n ∧ n ≤ 2 ^ 31 - 1

def Value.IsZero (v : Value) : Prop :=
  v = .integer 0 ∨ ∃ x, v = .float x ∧ x.isZero = true

namespace Operation

/-- Operators that stand between operands of the same types and give results of one type. -/
structure Row where
  operands : List (String × String)
  operators : List String
  result : String

def comparisons : List String :=
  ["<", ">", "<=", ">=", "==", "!="]

def arithmetics : List String :=
  ["+", "-", "*", "/", "%"]

def integers : List (String × String) :=
  [("int", "int")]

def floats : List (String × String) :=
  [("float", "float"), ("int", "float"), ("float", "int")]

def table : List Row :=
  [⟨integers, comparisons, "bool"⟩,
    ⟨integers, arithmetics, "int"⟩,
    ⟨floats, comparisons, "bool"⟩,
    ⟨floats, arithmetics, "float"⟩,
    ⟨[("bool", "bool")], ["==", "!=", "&&", "||"], "bool"⟩,
    ⟨[("String", "String")], comparisons, "bool"⟩,
    ⟨[("String", "String")], ["+"], "String"⟩]

def resultType? (left op right : String) : Option String :=
  (table.find? fun row => (left, right) ∈ row.operands ∧ op ∈ row.operators).map Row.result

def FailsWith (family : Family) (outcome : Except Fault Value) : Prop :=
  ∃ d, outcome = .error (.diagnostic d) ∧ d.family = family

/-- What an operator comes to where the table has it: a value of the type that the table tells, unless the
divisor is zero, the exact result of integers is beyond 32 bits, or an infinite number is to leave a
remainder. -/
inductive Applied (site : Site) (op : String) (left right : Value) (type : String) :
    Except Fault Value → Prop
  | gives {v : Value} : v.typeName = type → Applied site op left right type (.ok v)
  | divisionByZero : op = "/" → right.IsZero →
    Applied site op left right type (.error (.atSite .divisionByZero site))
  | moduloByZero : op = "%" → right.IsZero →
    Applied site op left right type (.error (.atSite .moduloByZero site))
  | overflow {a b exact : Int} : left = .integer a → right = .integer b →
    (op, exact) ∈ [("+", a + b), ("-", a - b), ("*", a * b), ("/", a.tdiv b), ("%", a.tmod b)] →
    ¬(-2 ^ 31 ≤ exact ∧ exact ≤ 2 ^ 31 - 1) →
    Applied site op left right type (.error (.atSite (.overflow op a b) site))
  | infinite {negative : Bool} : op = "%" → left = .float (.infinite negative) →
    Applied site op left right type (.error .remainderDomain)

variable {site : Site} {op : String} {left right : Value} {type : String}

/-- An operator of the table is never reported as unknown. -/
theorem Applied.not_unknown {outcome : Except Fault Value} (h : Applied site op left right type outcome) :
    ¬FailsWith .unknownOperator outcome := by
  rintro ⟨d, hd, hfamily⟩
  cases h <;> cases hd <;> cases hfamily

/-- The outcome is what the table tells: an unknown operator in no row, and what a row tells otherwise. -/
structure Follows (site : Site) (op : String) (left right : Value) (outcome : Except Fault Value) :
    Prop where
  unknown : resultType? left.typeName op right.typeName = none → FailsWith .unknownOperator outcome
  applied : ∀ type, resultType? left.typeName op right.typeName = some type →
    Applied site op left right type outcome

/-- No row of the table is found for two kinds just when none lists them with the operator. -/
theorem resultType_eq_none_iff {l r : String} :
    resultType? l op r = none ↔ ∀ row ∈ table, ¬((l, r) ∈ row.operands ∧ op ∈ row.operators) := by
  simp only [resultType?, Option.map_eq_none_iff, List.find?_eq_none, decide_eq_true_eq]

/-- What is not listed together has no operator. -/
theorem resultType_eq_none_of_operands {l r : String} (h : (l, r) ∉ table.flatMap Row.operands) :
    resultType? l op r = none := by
  rw [resultType_eq_none_iff]
  rintro row hrow ⟨hin, -⟩
  exact h (List.mem_flatMap.mpr ⟨row, hrow, hin⟩)

/-- What is no operator of the language is in no row. -/
theorem resultType_eq_none_of_unspelled {l r : String} (h : Operator.ofSpelling? op = none) :
    resultType? l op r = none := by
  have hspelled : ∀ row ∈ table, ∀ s ∈ row.operators, (Operator.ofSpelling? s).isSome = true := by
    decide
  rw [resultType_eq_none_iff]
  rintro row hrow ⟨-, hin⟩
  have hsome := hspelled row hrow op hin
  rw [h] at hsome
  cases hsome

inductive Told (site : Site) (op : String) (left right : Value) : Option (Except Fault Value) → Prop
  | unknown : resultType? left.typeName op right.typeName = none → Told site op left right none
  | applied {type : String} {outcome : Except Fault Value} :
    resultType? left.typeName op right.typeName = some type → Applied site op left right type outcome →
      Told site op left right (some outcome)

/-- Every operator does what the table tells, given what it means for the operands put beside each other. -/
theorem follows_of_meaning {l r : Value} (hleft : isNothing left = false) (hright : isNothing right = false)
    (hu : unify left right = .ok (l, r))
    (h : ∀ o : Operator, Told site o.spelling left right (meaning site o l r)) :
    Follows site op left right (apply site op left right) := by
  have happly : apply site op left right =
      ((Operator.ofSpelling? op).bind fun o => meaning site o l r).getD
        (.error (.atSite (.unknownOperator op left.display right.display) site)) := by
    unfold apply
    simp only [hleft, hright, Bool.or_self, Bool.false_eq_true, if_false, hu, bind, Except.bind]
    cases (Operator.ofSpelling? op).bind fun o => meaning site o l r <;> rfl
  cases ho : Operator.ofSpelling? op with
  | none =>
    rw [ho] at happly
    refine ⟨fun _ => ⟨_, happly, rfl⟩, fun type ht => ?_⟩
    rw [resultType_eq_none_of_unspelled ho] at ht
    cases ht
  | some o =>
    rw [ho, Option.bind_some] at happly
    obtain rfl := (Operator.ofSpelling?_eq_some_iff op o).mp ho
    have htold := h o
    cases hm : meaning site o l r with
    | none =>
      rw [hm] at happly htold
      cases htold with
      | unknown hnone =>
        refine ⟨fun _ => ⟨_, happly, rfl⟩, fun type ht => ?_⟩
        cases hnone.symm.trans ht
    | some outcome =>
      rw [hm, Option.getD_some] at happly
      rw [hm] at htold
      cases htold with
      | applied htype happlied =>
        rw [happly]
        refine ⟨fun hnone => ?_, fun type' ht => ?_⟩
        · cases htype.symm.trans hnone
        · cases htype.symm.trans ht
          exact happlied

theorem applied_ranged {o : Arithmetic} {a b exact : Int}
    (h : ((Operator.arithmetic o).spelling, exact) ∈
      [("+", a + b), ("-", a - b), ("*", a * b), ("/", a.tdiv b), ("%", a.tmod b)]) :
    Applied site (Operator.arithmetic o).spelling (.integer a) (.integer b) "int"
      (ranged site o a b exact) := by
  unfold ranged
  split
  · exact .gives rfl
  · next hout => exact .overflow rfl rfl h (hout ∘ (Range.contains_iff exact).mpr)

/-- Two integers come to what their row of the table says. -/
theorem applied_computeInt (o : Arithmetic) (a b : Int) :
    Applied site (Operator.arithmetic o).spelling (.integer a) (.integer b) "int"
      (computeInt site o a b) := by
  cases o with
  | add | sub | mul => exact applied_ranged (by simp [Operator.spelling])
  | div =>
    simp only [computeInt]
    split
    · next hb => exact .divisionByZero rfl (Or.inl (congrArg Value.integer hb))
    · exact applied_ranged (by simp [Operator.spelling])
  | mod =>
    simp only [computeInt]
    split
    · next hb => exact .moduloByZero rfl (Or.inl (congrArg Value.integer hb))
    · exact applied_ranged (by simp [Operator.spelling])

end Operation

inductive Value.Counts : Value → Binary64 → Prop
  | float (x : Binary64) : Counts (.float x) x
  | integer {n : Int} {x : Binary64} :
    -2 ^ 31 ≤ n → n ≤ 2 ^ 31 - 1 → Binary64.ofInt? n = some x → Counts (.integer n) x

namespace Value.Counts
variable {v : Value} {x : Binary64}

theorem isZero (h : v.Counts x) (hx : x.isZero = true) : v.IsZero := by
  cases h with
  | float => exact Or.inr ⟨x, rfl, hx⟩
  | @integer n _ hlow hhigh hn =>
    refine Or.inl (congrArg Value.integer (by_contra fun hne => ?_))
    have hnonzero := Binary64.isZero_round (Int.natAbs_ne_zero.mpr hne) (by omega) (n < 0)
    unfold Binary64.ofInt? at hn
    split at hn
    · cases hn
    · cases hn
      cases hx.symm.trans hnonzero

theorem eq_infinite {negative : Bool} (h : v.Counts (.infinite negative)) :
    v = .float (.infinite negative) := by
  cases h with
  | float => rfl
  | integer hlow hhigh hn =>
    unfold Binary64.ofInt? at hn
    split at hn
    · cases hn
    · next hfinite => exact absurd (Option.some.inj hn) (hfinite negative)

end Value.Counts

namespace Operation
variable {site : Site} {op : String} {left right : Value} {l r : Binary64}

/-- Two values that count as floats come to what their row of the table says. -/
theorem applied_computeFloat (hl : left.Counts l) (hr : right.Counts r) (o : Arithmetic) :
    Applied site (Operator.arithmetic o).spelling left right "float" (computeFloat site o l r) := by
  cases o with
  | add | sub | mul => exact .gives rfl
  | div =>
    simp only [computeFloat]
    split
    · next hzero => exact .divisionByZero rfl (hr.isZero hzero)
    · exact .gives rfl
  | mod =>
    cases hc : computeFloat site .mod l r with
    | ok v =>
      simp only [computeFloat] at hc
      split at hc
      · cases hc
      · split at hc <;> cases hc
        exact .gives rfl
    | error e =>
      rcases fault_of_computeFloat hc with hsite | ⟨rfl, -, negative, rfl⟩
      · simp only [computeFloat] at hc
        split at hc
        · next hzero =>
          cases hc
          exact .moduloByZero rfl (hr.isZero hzero)
        · split at hc <;> cases hc
          cases hsite
      · exact .infinite rfl hl.eq_infinite

def numberType (result : String) : Operator → Option String
  | .comparison _ => some "bool"
  | .arithmetic _ => some result
  | _ => none

def booleanType : Operator → Option String
  | .comparison .eq | .comparison .ne | .and | .or => some "bool"
  | _ => none

def textType : Operator → Option String
  | .comparison _ => some "bool"
  | .arithmetic .add => some "String"
  | _ => none

/-- The rows of the table, read by operators. -/
theorem resultType_spelling (o : Operator) :
    resultType? "int" o.spelling "int" = numberType "int" o ∧
      (∀ pair ∈ floats, resultType? pair.1 o.spelling pair.2 = numberType "float" o) ∧
      resultType? "bool" o.spelling "bool" = booleanType o ∧
      resultType? "String" o.spelling "String" = textType o := by
  have hall : ∀ o ∈ Operator.all, resultType? "int" o.spelling "int" = numberType "int" o ∧
      (∀ pair ∈ floats, resultType? pair.1 o.spelling pair.2 = numberType "float" o) ∧
      resultType? "bool" o.spelling "bool" = booleanType o ∧
      resultType? "String" o.spelling "String" = textType o := by
    decide
  exact hall o (Operator.mem_all o)

theorem follows_integers (a b : Int) :
    Follows site op (.integer a) (.integer b) (apply site op (.integer a) (.integer b)) := by
  refine follows_of_meaning rfl rfl rfl fun o => ?_
  obtain ⟨htype, -⟩ := resultType_spelling o
  cases o with
  | comparison c => exact .applied htype (.gives rfl)
  | arithmetic o => exact .applied htype (applied_computeInt o a b)
  | _ => exact .unknown htype

/-- Operands brought to floats follow the rows for floats. -/
theorem follows_floats (hl : left.Counts l) (hr : right.Counts r)
    (hu : unify left right = .ok (.float l, .float r))
    (hpair : (left.typeName, right.typeName) ∈ floats) :
    Follows site op left right (apply site op left right) := by
  refine follows_of_meaning ?_ ?_ hu fun o => ?_
  · cases hl <;> rfl
  · cases hr <;> rfl
  have htype := (resultType_spelling o).2.1 _ hpair
  cases o with
  | comparison c => exact .applied htype (.gives rfl)
  | arithmetic o => exact .applied htype (applied_computeFloat hl hr o)
  | _ => exact .unknown htype

theorem follows_booleans (a b : Bool) :
    Follows site op (.boolean a) (.boolean b) (apply site op (.boolean a) (.boolean b)) := by
  refine follows_of_meaning rfl rfl rfl fun o => ?_
  obtain ⟨-, -, htype, -⟩ := resultType_spelling o
  cases o with
  | comparison c =>
    cases c with
    | eq | ne => exact .applied htype (.gives rfl)
    | lt | gt | le | ge => exact .unknown htype
  | and | or => exact .applied htype (.gives rfl)
  | _ => exact .unknown htype

theorem follows_texts (a b : String) :
    Follows site op (.text a) (.text b) (apply site op (.text a) (.text b)) := by
  refine follows_of_meaning rfl rfl rfl fun o => ?_
  obtain ⟨-, -, -, htype⟩ := resultType_spelling o
  cases o with
  | comparison c => exact .applied htype (.gives rfl)
  | arithmetic o =>
    cases o with
    | add => exact .applied htype (.gives rfl)
    | sub | mul | div | mod => exact .unknown htype
  | _ => exact .unknown htype

/-- Operands that no row has beside each other. -/
theorem follows_others (hleft : isNothing left = false) (hright : isNothing right = false)
    (hu : unify left right = .ok (left, right)) (hm : ∀ o, meaning site o left right = none)
    (hpair : (left.typeName, right.typeName) ∉ table.flatMap Row.operands) :
    Follows site op left right (apply site op left right) := by
  refine follows_of_meaning hleft hright hu fun o => ?_
  rw [hm]
  exact .unknown (resultType_eq_none_of_operands hpair)

/-- An integer that fits counts as the float nearest to it. -/
theorem exists_counts {n : Int} (h : (Value.integer n).Fits) :
    ∃ x, toFloat n = .ok x ∧ (Value.integer n).Counts x := by
  obtain ⟨hlow, hhigh⟩ := h n rfl
  obtain ⟨x, hx⟩ := Option.isSome_iff_exists.mp
    (Binary64.isSome_ofInt_of_contains ((Range.contains_iff n).mpr ⟨hlow, hhigh⟩))
  exact ⟨x, by rw [toFloat, hx], .integer hlow hhigh hx⟩

/-- Every operator does what the table tells, between any two values. -/
theorem follows_apply (hleft : isNothing left = false) (hright : isNothing right = false)
    (hl : left.Fits) (hr : right.Fits) : Follows site op left right (apply site op left right) := by
  -- Pairs of numbers, of truth values and of texts have operators; elsewhere the types rule them all out.
  cases left with
  | nothing => cases hleft
  | integer a =>
    cases right with
    | nothing => cases hright
    | integer b => exact follows_integers a b
    | float y =>
      obtain ⟨x, hx, hcounts⟩ := exists_counts hl
      exact follows_floats hcounts (.float y) (by simp only [unify, hx, bind, Except.bind]; rfl)
        (by simp only [Value.typeName]; decide)
    | boolean | text | failure | function | quoted =>
      exact follows_others rfl rfl rfl (fun _ => rfl) (by simp only [Value.typeName]; decide)
  | float x =>
    cases right with
    | nothing => cases hright
    | integer b =>
      obtain ⟨y, hy, hcounts⟩ := exists_counts hr
      exact follows_floats (.float x) hcounts (by simp only [unify, hy, bind, Except.bind]; rfl)
        (by simp only [Value.typeName]; decide)
    | float y => exact follows_floats (.float x) (.float y) rfl (by simp only [Value.typeName]; decide)
    | boolean | text | failure | function | quoted =>
      exact follows_others rfl rfl rfl (fun _ => rfl) (by simp only [Value.typeName]; decide)
  | boolean a =>
    cases right with
    | nothing => cases hright
    | boolean b => exact follows_booleans a b
    | integer | float | text | failure | function | quoted =>
      exact follows_others rfl rfl rfl (fun _ => rfl) (by simp only [Value.typeName]; decide)
  | text a =>
    cases right with
    | nothing => cases hright
    | text b => exact follows_texts a b
    | integer | float | boolean | failure | function | quoted =>
      exact follows_others rfl rfl rfl (fun _ => rfl) (by simp only [Value.typeName]; decide)
  | failure | function | quoted =>
    cases right with
    | nothing => cases hright
    | integer | float | boolean | text | failure | function | quoted =>
      exact follows_others rfl rfl rfl (fun _ => rfl) (by simp only [Value.typeName]; decide)

/-- An operator is unknown for two values just when the table has no row for their kinds. -/
theorem Follows.unknown_iff {outcome : Except Fault Value} (h : Follows site op left right outcome) :
    FailsWith .unknownOperator outcome ↔ resultType? left.typeName op right.typeName = none := by
  refine ⟨fun hfails => ?_, h.unknown⟩
  cases htype : resultType? left.typeName op right.typeName with
  | none => rfl
  | some type => exact absurd hfails (h.applied type htype).not_unknown

/-- With nothing as an operand every operator fails as an evaluation does. -/
theorem fails_of_nothing (h : left = .nothing ∨ right = .nothing) :
    FailsWith .evaluation (apply site op left right) := by
  have hnothing : (isNothing left || isNothing right) = true := by
    rcases h with rfl | rfl
    · rfl
    · exact Bool.or_true _
  unfold apply
  rw [if_pos hnothing]
  exact ⟨_, rfl, rfl⟩

/-- No operator takes a function, an error or syntax. -/
theorem resultType_eq_none_of_kind {kind : String} (h : kind ∈ ["fun", "err", "null"]) (op other : String) :
    resultType? kind op other = none ∧ resultType? other op kind = none := by
  have habsent : ∀ pair ∈ table.flatMap Row.operands, ∀ kind ∈ ["fun", "err", "null"],
      pair.1 ≠ kind ∧ pair.2 ≠ kind := by
    decide
  exact ⟨resultType_eq_none_of_operands fun hin => (habsent _ hin kind h).1 rfl,
    resultType_eq_none_of_operands fun hin => (habsent _ hin kind h).2 rfl⟩

/-- Assignments are no operators of values. -/
theorem resultType_eq_none_of_assignment (h : op ∈ ["=", "+=", "-="]) (l r : String) :
    resultType? l op r = none := by
  have habsent : ∀ row ∈ table, ∀ op ∈ ["=", "+=", "-="], op ∉ row.operators := by
    decide
  rw [resultType_eq_none_iff]
  rintro row hrow ⟨-, hin⟩
  exact habsent row hrow op h hin

theorem isNothing_eq_false {v : Value} (h : v ≠ .nothing) : isNothing v = false := by
  cases v with
  | nothing => exact absurd rfl h
  | _ => rfl

/-- An operator fails where a value is missing, is unknown exactly where the table does not have it, and
else gives a value of the type that the table tells, or fails for the reasons of arithmetic only. -/
theorem operators_follow_table (site : Site) (op : String) (left right : Value) (hl : left.Fits)
    (hr : right.Fits) :
    (left = .nothing ∨ right = .nothing → FailsWith .evaluation (apply site op left right)) ∧
    (left ≠ .nothing → right ≠ .nothing →
      (FailsWith .unknownOperator (apply site op left right) ↔
        resultType? left.typeName op right.typeName = none) ∧
      ∀ type, resultType? left.typeName op right.typeName = some type →
        Applied site op left right type (apply site op left right)) ∧
    (∀ kind ∈ ["fun", "err", "null"], ∀ other, resultType? kind op other = none ∧
      resultType? other op kind = none) ∧
    (op ∈ ["=", "+=", "-="] → ∀ l r, resultType? l op r = none) := by
  refine ⟨fails_of_nothing, fun hleft hright => ?_,
    fun kind hkind other => resultType_eq_none_of_kind hkind op other,
    resultType_eq_none_of_assignment⟩
  have hfollows : Follows site op left right (apply site op left right) :=
    follows_apply (isNothing_eq_false hleft) (isNothing_eq_false hright) hl hr
  exact ⟨hfollows.unknown_iff, hfollows.applied⟩

/-- A zero is the result of a difference like any number, and no text is added to a number. -/
theorem operators_follow_table_of_zero :
    apply ⟨some 1, "m.ct"⟩ "-" (.integer 2) (.integer 2) = .ok (.integer 0) ∧
      Applied ⟨some 1, "m.ct"⟩ "-" (.integer 2) (.integer 2) "int"
        (apply ⟨some 1, "m.ct"⟩ "-" (.integer 2) (.integer 2)) ∧
      FailsWith .unknownOperator (apply ⟨some 1, "m.ct"⟩ "+" (.integer 2) (.text "a")) := by
  have hinteger : (Value.integer 2).Fits := by
    rintro n ⟨⟩
    decide
  have htext : (Value.text "a").Fits := by
    rintro n ⟨⟩
  obtain ⟨-, hzero, -⟩ :=
    operators_follow_table ⟨some 1, "m.ct"⟩ "-" (.integer 2) (.integer 2) hinteger hinteger
  obtain ⟨-, hunknown, -⟩ :=
    operators_follow_table ⟨some 1, "m.ct"⟩ "+" (.integer 2) (.text "a") hinteger htext
  exact ⟨rfl, (hzero Value.noConfusion Value.noConfusion).2 "int" (by decide),
    (hunknown Value.noConfusion Value.noConfusion).1.mpr (by decide)⟩

end Operation
end ScriptLang
