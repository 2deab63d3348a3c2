import ScriptLang.Proofs.Evaluator.Kinds
import ScriptLang.Proofs.Parser.Courses

/-! What operators fail with: diagnostics, but for the remainder of an infinite number and for an integer that
is to stand beside a float and is beyond all floats. -/
namespace ScriptLang

namespace Binary64

theorem floorLog_le_log2 (n : Nat) : floorLog n 1 ≤ n.log2 := by
  have hone : Nat.log2 1 = 0 := by decide
  unfold floorLog
  simp only [hone]
  split <;> omega

/-- What fits into 64 bits is not rounded to an infinity. -/
theorem round_ne_infinite {n : Nat} (h : n < 2 ^ 64) (negative t : Bool) :
    round negative n 1 ≠ infinite t := by
  by_cases hn : n = 0
  · simp [round, hn]
  · have hlog : n.log2 < 64 := (Nat.log2_lt hn).mpr h
    have hfloor := floorLog_le_log2 n
    have he : max (floorLog n 1 - 52) leastExponent ≤ 11 := by
      unfold leastExponent
      omega
    have hgreatest : ¬greatestExponent < max (floorLog n 1 - 52) leastExponent := by
      unfold greatestExponent
      omega
    have hgreatest' : ¬greatestExponent < max (floorLog n 1 - 52) leastExponent + 1 := by
      unfold greatestExponent
      omega
    unfold round
    rw [if_neg hn]
    simp only
    split
    · exact Binary64.noConfusion
    · exact Binary64.noConfusion

/-- Every integer of 64 bits has a nearest float. -/
theorem isSome_ofInt {n : Int} (h : n.natAbs < 2 ^ 64) : (ofInt? n).isSome = true := by
  unfold ofInt?
  cases hr : round (n < 0) n.natAbs 1 with
  | infinite t => exact absurd hr (round_ne_infinite h _ t)
  | nan => rfl
  | finite s m q => rfl

theorem ne_infinite_of_ofInt {n : Int} {x : Binary64} (h : ofInt? n = some x) (negative : Bool) :
    x ≠ .infinite negative := by
  rintro rfl
  unfold ofInt? at h
  split at h
  · cases h
  · next hfinite => exact hfinite _ (Option.some.inj h)

theorem isSome_ofInt_of_contains {n : Int} (h : Range.contains n = true) :
    (ofInt? n).isSome = true := by
  have hleast : Range.least ≤ n := by simpa using (Bool.and_eq_true_iff.mp h).1
  have hgreatest : n ≤ Range.greatest := by simpa using (Bool.and_eq_true_iff.mp h).2
  apply isSome_ofInt
  unfold Range.least at hleast
  unfold Range.greatest at hgreatest
  omega

end Binary64

inductive Fault.OfOperator (site : Site) : Fault → Prop
  | incomplete (expression : String) : OfOperator site (.atSite (.incomplete expression) site)
  | unknown (operator left right : String) :
    OfOperator site (.atSite (.unknownOperator operator left right) site)
  | overflow (operator : String) (left right : Int) :
    OfOperator site (.atSite (.overflow operator left right) site)
  | divisionByZero : OfOperator site (.atSite .divisionByZero site)
  | moduloByZero : OfOperator site (.atSite .moduloByZero site)

theorem Fault.OfOperator.isDiagnostic {site : Site} {e : Fault} (h : e.OfOperator site) :
    e.IsDiagnostic := by
  cases h <;> exact ⟨_, rfl⟩

namespace Operation
variable {site : Site} {e : Fault}

/-- Integers fail with diagnostics only. -/
theorem fault_of_computeInt {a : Arithmetic} {l r : Int} (h : computeInt site a l r = .error e) :
    e.OfOperator site := by
  have hranged {result : Int} (h : ranged site a l r result = .error e) : e.OfOperator site := by
    unfold ranged at h
    split at h <;> cases h
    exact .overflow _ _ _
  unfold computeInt at h
  split at h
  · exact hranged h
  · exact hranged h
  · exact hranged h
  · split at h
    · cases h
      exact .divisionByZero
    · exact hranged h
  · split at h
    · cases h
      exact .moduloByZero
    · exact hranged h

/-- Only the remainder of an infinite number is not reported at the operator. -/
theorem fault_of_computeFloat {a : Arithmetic} {l r : Binary64}
    (h : computeFloat site a l r = .error e) :
    e.OfOperator site ∨ (e = .remainderDomain ∧ a = .mod ∧ ∃ negative, l = .infinite negative) := by
  unfold computeFloat at h
  split at h
  · cases h
  · cases h
  · cases h
  · split at h <;> cases h
    exact Or.inl .divisionByZero
  · split at h
    · cases h
      exact Or.inl .moduloByZero
    · next hzero =>
      split at h <;> cases h
      next hrem =>
      refine Or.inr ⟨rfl, rfl, ?_⟩
      unfold Binary64.rem? at hrem
      split at hrem
      · cases hrem
      · cases hrem
      · exact ⟨_, rfl⟩
      · cases hrem
      · split at hrem
        · next hn => exact absurd (by simp [Binary64.isZero, hn]) hzero
        · cases hrem

/-- An operator fails with a diagnostic, except the remainder of an infinite float. -/
theorem fault_of_meaning {op : Operator} {left right : Value}
    (h : meaning site op left right = some (.error e)) :
    e.OfOperator site ∨ (e = .remainderDomain ∧ op = .arithmetic .mod ∧
      ∃ negative, left = .float (.infinite negative)) := by
  unfold meaning at h
  split at h
  · unfold onInts at h
    split at h
    · cases h
    · exact Or.inl (fault_of_computeInt (Option.some.inj h))
    · cases h
  · unfold onFloats at h
    split at h
    · cases h
    · next a =>
      refine (fault_of_computeFloat (Option.some.inj h)).imp_right ?_
      rintro ⟨he, ha, negative, rfl⟩
      exact ⟨he, congrArg Operator.arithmetic ha, negative, rfl⟩
    · cases h
  · obtain ⟨b, -, hb⟩ := Option.map_eq_some_iff.mp h
    cases hb
  · obtain ⟨s, -, hs⟩ := Option.map_eq_some_iff.mp h
    cases hs
  · cases h

end Operation

def Value.Convertible (v : Value) : Prop :=
  ∀ n, v = .integer n → (Binary64.ofInt? n).isSome = true

namespace Operation
variable {site : Site} {e : Fault} {left right : Value}

/-- Only an integer beyond all floats cannot be put beside a float. -/
theorem fault_of_unify (h : unify left right = .error e) :
    e = .beyondFloats ∧ ¬(left.Convertible ∧ right.Convertible) := by
  have hfloat {n : Int} (h : toFloat n = .error e) :
      e = .beyondFloats ∧ ¬(Value.integer n).Convertible := by
    unfold toFloat at h
    split at h
    · cases h
    · next hnone =>
      cases h
      refine ⟨rfl, fun hconvertible => ?_⟩
      have hsome := hconvertible n rfl
      rw [hnone] at hsome
      cases hsome
  unfold unify at h
  split at h
  · next l r =>
    cases hl : toFloat l with
    | ok x =>
      rw [hl] at h
      cases h
    | error e' =>
      rw [hl] at h
      cases h
      exact (hfloat hl).imp_right fun hno hboth => hno hboth.1
  · next l r =>
    cases hr : toFloat r with
    | ok x =>
      rw [hr] at h
      cases h
    | error e' =>
      rw [hr] at h
      cases h
      exact (hfloat hr).imp_right fun hno hboth => hno hboth.2
  · cases h

/-- An infinite number beside another was one before. -/
theorem left_infinite_of_unify {l r : Value} {negative : Bool} (h : unify left right = .ok (l, r))
    (hl : l = .float (.infinite negative)) : left = .float (.infinite negative) := by
  subst hl
  unfold unify at h
  split at h
  · next n x =>
    unfold toFloat at h
    split at h
    · next y hy =>
      cases h
      exact absurd rfl (Binary64.ne_infinite_of_ofInt hy negative)
    · cases h
  · next x n =>
    unfold toFloat at h
    split at h
    · cases h
      rfl
    · cases h
  · cases h
    rfl

/-- An operator that does not apply is reported where it stands, unless it is the remainder of an infinite
number or its operands cannot be put beside each other. -/
theorem fault_of_apply {spelling : String} (h : apply site spelling left right = .error e) :
    e.OfOperator site ∨
      (e = .remainderDomain ∧ spelling = "%" ∧ ∃ negative, left = .float (.infinite negative)) ∨
      (e = .beyondFloats ∧ ¬(left.Convertible ∧ right.Convertible)) := by
  unfold apply at h
  split at h
  · cases h
    exact Or.inl (.incomplete _)
  · cases hu : unify left right with
    | error e' =>
      rw [hu] at h
      cases h
      exact Or.inr (Or.inr (fault_of_unify hu))
    | ok operands =>
      obtain ⟨l, r⟩ := operands
      simp only [hu, bind, Except.bind] at h
      split at h
      · next result hmeaning =>
        obtain ⟨op, hop, hm⟩ := Option.bind_eq_some_iff.mp hmeaning
        rw [h] at hm
        rcases fault_of_meaning hm with hd | ⟨he, rfl, negative, hl⟩
        · exact Or.inl hd
        · have hspelling := (Operator.ofSpelling?_eq_some_iff spelling _).mp hop
          exact Or.inr (Or.inl ⟨he, hspelling, negative, left_infinite_of_unify hu hl⟩)
      · cases h
        exact Or.inl (.unknown _ _ _)

end Operation

end ScriptLang
