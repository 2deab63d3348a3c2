import ScriptLang.Number.Shortest
import ScriptLang.Proofs.Number.Rounding

/-! The shortest decimal of a number is nearest to it. Whatever a grid gives is, and the last grid that is tried
gives something, since it is finer than the numbers lie apart. -/
namespace ScriptLang.Binary64

def Decimal.value (x : Decimal) : ℚ :=
  x.digits * 10 ^ x.exponent

/-- A power is the quotient of two, one of which is one. -/
theorem zpow_eq_div (b : ℚ) (n : Int) : b ^ n = b ^ n.toNat / b ^ (-n).toNat := by
  rcases Int.le_total 0 n with hn | hn
  · obtain ⟨k, rfl⟩ := Int.eq_ofNat_of_zero_le hn
    have hneg : (-(k : Int)).toNat = 0 := by omega
    rw [hneg, pow_zero, div_one, Int.toNat_natCast, zpow_natCast]
  · obtain ⟨k, rfl⟩ : ∃ k : Nat, n = -k := ⟨(-n).toNat, by omega⟩
    have hneg : (-(k : Int)).toNat = 0 := by omega
    rw [neg_neg, hneg, pow_zero, Int.toNat_natCast, zpow_neg, zpow_natCast, one_div]

/-- The factors compare multiples of a power of ten with multiples of a power of two. -/
theorem factors_eq (p q : Int) :
    0 < (factors p q).1 ∧ 0 < (factors p q).2 ∧
      ((factors p q).1 : ℚ) / (factors p q).2 = 10 ^ p / 2 ^ q := by
  have hten (n : Nat) : 0 < Nat.pow 10 n := Nat.pow_pos (by decide)
  unfold factors
  simp only [Nat.shiftLeft_eq]
  refine ⟨Nat.mul_pos (hten _) (Nat.two_pow_pos _), Nat.mul_pos (hten _) (Nat.two_pow_pos _), ?_⟩
  rw [zpow_eq_div 10 p, zpow_eq_div 2 q, div_div_div_eq]
  push_cast [Nat.pow_eq]
  rfl

section
variable {p q : Int} {c d : Nat}

/-- The factors compare a decimal with a bound without a fraction. -/
theorem factors_le_iff : c * (factors p q).2 ≤ d * (factors p q).1 ↔ (c : ℚ) ≤ d * 10 ^ p / 2 ^ q := by
  obtain ⟨-, hb, hfactors⟩ := factors_eq p q
  have hb' : (0 : ℚ) < (factors p q).2 := by exact_mod_cast hb
  rw [mul_div_assoc, ← hfactors, ← mul_div_assoc, le_div_iff₀ hb']
  exact_mod_cast Iff.rfl

theorem le_factors_iff : d * (factors p q).1 ≤ c * (factors p q).2 ↔ (d : ℚ) * 10 ^ p / 2 ^ q ≤ c := by
  obtain ⟨-, hb, hfactors⟩ := factors_eq p q
  have hb' : (0 : ℚ) < (factors p q).2 := by exact_mod_cast hb
  rw [mul_div_assoc, ← hfactors, ← mul_div_assoc, div_le_iff₀ hb']
  exact_mod_cast Iff.rfl

end

def isInside (m : Nat) (q p : Int) (d : Nat) : Bool :=
  let (a, b) := factors p (q - 2)
  if m % 2 = 0 then (4 * m - gap m q) * b ≤ d * a && d * a ≤ (4 * m + 2) * b
  else (4 * m - gap m q) * b < d * a && d * a < (4 * m + 2) * b

def floorOnGrid (m : Nat) (q p : Int) : Nat :=
  4 * m * (factors p (q - 2)).2 / (factors p (q - 2)).1

variable {m d : Nat} {q p : Int}

/-- The test for a decimal is whether the float is the nearest to it. -/
theorem isInside_iff : isInside m q p d = true ↔ Nearest m q (d * 10 ^ p) := by
  unfold isInside
  simp only
  split
  · next heven =>
    rw [Bool.and_eq_true_iff, decide_eq_true_iff, decide_eq_true_iff, factors_le_iff, le_factors_iff]
    refine ⟨fun h => ⟨h.1, h.2, by omega⟩, fun h => ⟨h.low, h.high⟩⟩
  · next hodd =>
    rw [Bool.and_eq_true_iff, decide_eq_true_iff, decide_eq_true_iff, ← not_le, ← not_le, factors_le_iff,
      le_factors_iff, not_le, not_le]
    exact ⟨fun h => ⟨h.1.le, h.2.le, fun _ => h⟩, fun h => h.strict (by omega)⟩

/-- A grid gives one of the two multiples around a number, if one of them rounds to it. -/
theorem onGrid_cases (m : Nat) (q p : Int) :
    (∃ d, onGrid? m q p = some d ∧ isInside m q p d = true) ∨
      (onGrid? m q p = none ∧ isInside m q p (floorOnGrid m q p) = false ∧
        isInside m q p (floorOnGrid m q p + 1) = false) := by
  unfold onGrid?
  dsimp only
  split
  · next hd hd' => exact Or.inr ⟨rfl, hd, hd'⟩
  · next hd _ => exact Or.inl ⟨_, rfl, hd⟩
  · next _ hd' => exact Or.inl ⟨_, rfl, hd'⟩
  · next hd hd' =>
    refine Or.inl ⟨_, rfl, ?_⟩
    split
    · exact hd
    · split
      · exact hd'
      · rcases Nat.mod_two_eq_zero_or_one (floorOnGrid m q p) with hmod | hmod
        · exact (congrArg (isInside m q p) (congrArg _ hmod)).trans hd
        · exact (congrArg (isInside m q p) (congrArg _ hmod)).trans hd'

/-- A decimal found on a grid is one that the float is nearest to. -/
theorem nearest_of_onGrid (h : onGrid? m q p = some d) : Nearest m q (d * 10 ^ p) := by
  rcases onGrid_cases m q p with ⟨d', hd, hin⟩ | ⟨hnone, -⟩
  · cases hd.symm.trans h
    exact isInside_iff.mp hin
  · cases hnone.symm.trans h

/-- A number is between two multiples. -/
theorem floorOnGrid_spec (m : Nat) (q p : Int) :
    (floorOnGrid m q p : ℚ) * 10 ^ p / 2 ^ (q - 2) ≤ (4 * m : Nat) ∧
      ((4 * m : Nat) : ℚ) < (floorOnGrid m q p + 1 : Nat) * 10 ^ p / 2 ^ (q - 2) := by
  obtain ⟨ha, -, -⟩ := factors_eq p (q - 2)
  rw [← le_factors_iff, ← not_le, ← le_factors_iff, not_le]
  exact ⟨Nat.div_mul_le_self _ _, Nat.lt_mul_of_div_lt (Nat.lt_succ_self _) ha⟩

theorem cast_low (hm : 0 < m) (q : Int) : ((4 * m - gap m q : Nat) : ℚ) = 4 * m - gap m q := by
  have hle : gap m q ≤ 4 * m := by
    rcases gap_cases m q with ⟨-, -, hg⟩ | ⟨-, hg⟩ <;> omega
  rw [Nat.cast_sub hle]
  push_cast
  rfl

/-- What does not round to a number is beyond one of the middles. -/
theorem far_of_isInside_eq_false (h : isInside m q p d = false) (hm : 0 < m) :
    (d : ℚ) * 10 ^ p / 2 ^ (q - 2) ≤ 4 * m - gap m q ∨ 4 * m + 2 ≤ (d : ℚ) * 10 ^ p / 2 ^ (q - 2) := by
  by_contra hno
  obtain ⟨hlow, hhigh⟩ := not_or.mp hno
  rw [not_le] at hlow hhigh
  rw [← cast_low hm] at hlow
  have hhigh' : (d : ℚ) * 10 ^ p / 2 ^ (q - 2) < (4 * m + 2 : Nat) := by
    push_cast
    exact hhigh
  have hnear : Nearest m q (d * 10 ^ p) := ⟨hlow.le, hhigh'.le, fun _ => ⟨hlow, hhigh'⟩⟩
  rw [isInside_iff.mpr hnear] at h
  cases h

/-- A grid with seventeen digits is finer than the numbers lie apart. -/
theorem exists_onGrid (hc : Canonical m q) (hm : 0 < m) (hp : (10 : ℚ) ^ (p + 16) ≤ m * 2 ^ q) :
    ∃ d, onGrid? m q p = some d := by
  rcases onGrid_cases m q p with ⟨d, hd, -⟩ | ⟨-, hin, hin'⟩
  · exact ⟨d, hd⟩
  · exfalso
    have hstep : (10 : ℚ) ^ p / 2 ^ (q - 2) * 10 ^ 16 ≤ 4 * m := by
      have hquarters := zpow_quarters q 2
      rw [Nat.cast_ofNat, sub_add_cancel] at hquarters
      rw [zpow_add₀ (by norm_num), hquarters] at hp
      rw [div_mul_eq_mul_div, div_le_iff₀ (zpow_pos two_pos _)]
      norm_num at hp ⊢
      linarith
    have hlt : (m : ℚ) < 2 ^ 53 := by exact_mod_cast hc.lt
    obtain ⟨hfloor, hceil⟩ := floorOnGrid_spec m q p
    push_cast at hfloor hceil
    have hgap : (0 : ℚ) ≤ gap m q := Nat.cast_nonneg _
    have hbelow := (far_of_isInside_eq_false hin hm).resolve_right (by linarith)
    have habove := far_of_isInside_eq_false hin' hm
    push_cast at habove
    rw [add_one_mul, add_div] at hceil habove
    -- The two multiples are one step apart, and one of the middles would be between them.
    have hwide : 2 + (gap m q : ℚ) ≤ 10 ^ p / 2 ^ (q - 2) := by
      have hfar := habove.resolve_left (by linarith)
      linarith
    rcases gap_cases m q with ⟨rfl, -, hg⟩ | ⟨-, hg⟩
    · rw [hg] at hwide
      push_cast at hwide hstep
      linarith
    · rw [hg] at hwide
      push_cast at hwide
      linarith

/-- A number of so many digits is at least the power of ten with as many. -/
theorem pow_digitCount_le {n : Nat} (hn : 0 < n) : (10 : ℚ) ^ ((digitCount n : Int) - 1) ≤ n := by
  have hlength : digitCount n = (Nat.toDigits 10 n).length := String.length_ofList
  have hpos : 0 < digitCount n := by
    rw [hlength]
    exact Nat.length_toDigits_pos
  obtain ⟨k, hk⟩ : ∃ k, digitCount n = k + 1 := ⟨digitCount n - 1, by omega⟩
  have hle : 10 ^ k ≤ n := by
    rcases Nat.eq_zero_or_pos k with rfl | hkpos
    · exact hn
    · by_contra hlt
      have hcount := (Nat.length_toDigits_le_iff (by decide) hkpos).mpr (not_le.mp hlt)
      omega
  rw [hk, Nat.cast_succ, add_sub_cancel_right, zpow_natCast]
  exact_mod_cast hle

/-- The leading digit of a number has the exponent that is tried first. -/
theorem pow_decimalLog_le (hm : 0 < m) (q : Int) : (10 : ℚ) ^ decimalLog m q ≤ m * 2 ^ q := by
  unfold decimalLog
  split
  · next hq =>
    obtain ⟨k, rfl⟩ := Int.eq_ofNat_of_zero_le hq
    have hpos : 0 < m <<< k := by
      rw [Nat.shiftLeft_eq]
      positivity
    refine (pow_digitCount_le hpos).trans_eq ?_
    rw [zpow_natCast, Nat.shiftLeft_eq]
    push_cast
    rfl
  · next hq =>
    obtain ⟨k, rfl⟩ : ∃ k : Nat, q = -k := ⟨(-q).toNat, by omega⟩
    have hpos : 0 < m * Nat.pow 5 k := Nat.mul_pos hm (Nat.pow_pos (by decide))
    have hten : (10 : ℚ) ^ (-(k : Int)) * 5 ^ k = 2 ^ (-(k : Int)) := by
      rw [show (10 : ℚ) = 2 * 5 by norm_num, mul_zpow, mul_assoc, zpow_neg 5, zpow_natCast,
        inv_mul_cancel₀ (by positivity), mul_one]
    rw [neg_neg, Int.toNat_natCast, zpow_add₀ (by norm_num)]
    calc (10 : ℚ) ^ ((digitCount (m * Nat.pow 5 k) : Int) - 1) * 10 ^ (-(k : Int))
        ≤ (m * Nat.pow 5 k : Nat) * 10 ^ (-(k : Int)) := by gcongr; exact pow_digitCount_le hpos
      _ = m * (10 ^ (-(k : Int)) * 5 ^ k) := by
        push_cast [Nat.pow_eq]
        ring
      _ = m * 2 ^ (-(k : Int)) := by rw [hten]

/-- If a grid has a decimal inside, the search ends with one that the float is nearest to. -/
theorem nearest_searchGrids {fuel : Nat} (h : ∃ d, onGrid? m q (p - fuel) = some d) :
    Nearest m q (searchGrids m q fuel p).value := by
  induction fuel generalizing p with
  | zero =>
    obtain ⟨d, hd⟩ := h
    rw [Nat.cast_zero, sub_zero] at hd
    unfold searchGrids
    rw [hd]
    exact nearest_of_onGrid hd
  | succ fuel ih =>
    unfold searchGrids
    cases hg : onGrid? m q p with
    | some d => exact nearest_of_onGrid hg
    | none =>
      refine ih ?_
      rwa [Nat.cast_succ, add_comm, ← sub_sub] at h

/-- Zeros at the end of a decimal may be dropped. -/
theorem Decimal.value_reduce (fuel : Nat) (x : Decimal) : (x.reduce fuel).value = x.value := by
  induction fuel generalizing x with
  | zero => rfl
  | succ fuel ih =>
    unfold reduce
    split
    · next h =>
      rw [ih]
      unfold value
      have hten : (x.digits : ℚ) = (x.digits / 10 : Nat) * 10 := by
        exact_mod_cast (Nat.div_mul_cancel (Nat.dvd_of_mod_eq_zero h.1)).symm
      rw [zpow_add_one₀ (by norm_num), hten]
      simp only
      ring
    · rfl

/-- The shortest decimal of a number is nearest to it. -/
theorem nearest_shortest (hc : Canonical m q) (hm : 0 < m) : Nearest m q (shortest m q).value := by
  unfold shortest
  rw [if_neg hm.ne', Decimal.value_reduce]
  refine nearest_searchGrids (exists_onGrid hc hm ?_)
  have h := pow_decimalLog_le hm q
  rwa [Nat.cast_ofNat, sub_add_cancel]

end ScriptLang.Binary64
