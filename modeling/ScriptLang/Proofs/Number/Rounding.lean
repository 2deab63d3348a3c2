import Mathlib.Algebra.Order.Field.Power
import Mathlib.Data.Int.Log
import Mathlib.Data.Rat.Floor
import Mathlib.Tactic
import ScriptLang.Number.Binary64

/-! What rounding comes to. The result is a mantissa and an exponent in their bounds, and all rational numbers
between the middles to the two neighbours of a number are rounded to it, those middles included where
its mantissa is even. -/
namespace ScriptLang.Binary64

/-- `n` is the integer nearest to `y`, and the even one of two that are equally near. -/
structure Rounded (n : Nat) (y : ℚ) : Prop where
  low : (n : ℚ) - 1 / 2 ≤ y
  high : y ≤ n + 1 / 2
  strict : n % 2 = 1 → (n : ℚ) - 1 / 2 < y ∧ y < n + 1 / 2

/-- A number is rounded to one integer only. -/
theorem Rounded.eq {n n' : Nat} {y : ℚ} (h : Rounded n y) (h' : Rounded n' y) : n = n' := by
  have hdist {n n' : Nat} (h : Rounded n y) (h' : Rounded n' y) : ¬n < n' := by
    intro hlt
    have hstep : (n : ℚ) + 1 ≤ n' := by exact_mod_cast hlt
    have hlow := h'.low
    have hhigh := h.high
    have htie : (n : ℚ) + 1 = n' := by linarith
    have hsucc : n + 1 = n' := by exact_mod_cast htie
    rcases Nat.mod_two_eq_zero_or_one n with hn | hn
    · have hodd := (h'.strict (by omega)).1
      linarith
    · have hodd := (h.strict hn).2
      linarith
  exact Nat.le_antisymm (not_lt.mp (hdist h' h)) (not_lt.mp (hdist h h'))

theorem Rounded.le {n k : Nat} {y : ℚ} (h : Rounded n y) (hy : y < k) : n ≤ k := by
  have hlow := h.low
  have hlt : (n : ℚ) < (k + 1 : Nat) := by
    push_cast
    linarith
  exact Nat.lt_succ_iff.mp (by exact_mod_cast hlt)

theorem Rounded.ge {n k : Nat} {y : ℚ} (h : Rounded n y) (hy : k ≤ y) : k ≤ n := by
  have hhigh := h.high
  have hlt : (k : ℚ) < (n + 1 : Nat) := by
    push_cast
    linarith
  exact Nat.lt_succ_iff.mp (by exact_mod_cast hlt)

/-- The quotient computed is the exact one rounded to the nearest integer, ties to even. -/
theorem rounded_roundDiv (num : Nat) {den : Nat} (hden : 0 < den) :
    Rounded (roundDiv num den) ((num : ℚ) / den) := by
  have hd : (0 : ℚ) < den := by exact_mod_cast hden
  have hsplit : (num : ℚ) = den * (num / den : Nat) + (num % den : Nat) := by
    exact_mod_cast (Nat.div_add_mod num den).symm
  have hquot : (num : ℚ) / den = (num / den : Nat) + ((num % den : Nat) : ℚ) / den := by
    rw [div_eq_iff hd.ne', add_mul, div_mul_cancel₀ _ hd.ne', mul_comm]
    exact hsplit
  have hlt : ((num % den : Nat) : ℚ) / den < 1 := by
    rw [div_lt_one hd]
    exact_mod_cast Nat.mod_lt num hden
  have hnonneg : (0 : ℚ) ≤ ((num % den : Nat) : ℚ) / den := by positivity
  have hsucc : ((num / den + 1 : Nat) : ℚ) = (num / den : Nat) + 1 := Nat.cast_succ _
  rw [hquot]
  unfold roundDiv
  simp only
  split
  · next h =>
    have hhalf : ((num % den : Nat) : ℚ) / den < 1 / 2 := by
      rw [div_lt_div_iff₀ hd two_pos, one_mul, mul_comm]
      exact_mod_cast h
    exact ⟨by linarith, by linarith, fun _ => ⟨by linarith, by linarith⟩⟩
  · next h =>
    split
    · next h' =>
      have hhalf : 1 / 2 < ((num % den : Nat) : ℚ) / den := by
        rw [div_lt_div_iff₀ two_pos hd, one_mul, mul_comm]
        exact_mod_cast h'
      exact ⟨by linarith, by linarith, fun _ => ⟨by linarith, by linarith⟩⟩
    · next h' =>
      have hhalf : ((num % den : Nat) : ℚ) / den = 1 / 2 := by
        rw [div_eq_div_iff hd.ne' two_ne_zero, one_mul, mul_comm]
        exact_mod_cast Nat.le_antisymm (not_lt.mp h') (not_lt.mp h)
      rcases Nat.mod_two_eq_zero_or_one (num / den) with hn | hn
      · rw [hhalf, hn, Nat.add_zero]
        exact ⟨by linarith, le_refl _, by omega⟩
      · rw [hhalf, hn]
        exact ⟨by linarith, by linarith, by omega⟩

/-- The fraction that stands for `m * 2 ^ q`. -/
theorem ratio_eq (m : Nat) (q : Int) :
    0 < (ratio m q).2 ∧ ((ratio m q).1 : ℚ) / (ratio m q).2 = m * 2 ^ q := by
  unfold ratio
  split
  · next hq =>
    obtain ⟨k, rfl⟩ := Int.eq_ofNat_of_zero_le hq
    refine ⟨Nat.one_pos, ?_⟩
    simp [Nat.shiftLeft_eq]
  · next hq =>
    obtain ⟨k, rfl⟩ : ∃ k : Nat, q = -k := ⟨(-q).toNat, by omega⟩
    refine ⟨by simp [Nat.shiftLeft_eq], ?_⟩
    simp [Nat.shiftLeft_eq, div_eq_mul_inv]

/-- Powers of two around a number tell its exponent. -/
theorem log_eq_of_le_of_lt {x : ℚ} {k : Int} (hlow : 2 ^ k ≤ x) (hhigh : x < 2 ^ (k + 1)) :
    Int.log 2 x = k := by
  have hx : 0 < x := (zpow_pos two_pos k).trans_le hlow
  have h := (Int.zpow_le_iff_le_log (b := 2) (by decide) hx).mp (by exact_mod_cast hlow)
  have h' := (Int.lt_zpow_iff_log_lt (b := 2) (by decide) hx).mp (by exact_mod_cast hhigh)
  omega

/-- A quotient lies within two powers of two, which one comparison tells apart. -/
theorem floorLog_eq {num den : Nat} (hnum : 0 < num) (hden : 0 < den) :
    floorLog num den = Int.log 2 ((num : ℚ) / den) := by
  have hd : (0 : ℚ) < den := by exact_mod_cast hden
  have hnlow : (2 : ℚ) ^ (num.log2 : Int) ≤ num := by exact_mod_cast Nat.log2_self_le hnum.ne'
  have hnhigh : (num : ℚ) < 2 ^ ((num.log2 : Int) + 1) := by exact_mod_cast Nat.lt_log2_self
  have hdlow : (2 : ℚ) ^ (den.log2 : Int) ≤ den := by exact_mod_cast Nat.log2_self_le hden.ne'
  have hdhigh : (den : ℚ) < 2 ^ ((den.log2 : Int) + 1) := by exact_mod_cast Nat.lt_log2_self
  unfold floorLog
  generalize hk : (num.log2 : Int) - den.log2 = k
  simp only
  have hhigh : (num : ℚ) / den < 2 ^ (k + 1) := by
    rw [div_lt_iff₀ hd]
    calc (num : ℚ) < 2 ^ ((num.log2 : Int) + 1) := hnhigh
      _ = 2 ^ (k + 1 + den.log2) := by congr 1; omega
      _ = 2 ^ (k + 1) * 2 ^ (den.log2 : Int) := zpow_add₀ two_ne_zero _ _
      _ ≤ 2 ^ (k + 1) * den := by gcongr
  have hlow : (2 : ℚ) ^ (k - 1) ≤ num / den := by
    rw [le_div_iff₀ hd]
    calc (2 : ℚ) ^ (k - 1) * den ≤ 2 ^ (k - 1) * 2 ^ ((den.log2 : Int) + 1) := by gcongr
      _ = 2 ^ (k - 1 + (den.log2 + 1)) := (zpow_add₀ two_ne_zero _ _).symm
      _ = 2 ^ (num.log2 : Int) := by congr 1; omega
      _ ≤ num := hnlow
  obtain ⟨hpos, hratio⟩ := ratio_eq 1 k
  have hq : (0 : ℚ) < (ratio 1 k).2 := by exact_mod_cast hpos
  rw [Nat.cast_one, one_mul, div_eq_iff hq.ne'] at hratio
  have hiff : den * (ratio 1 k).1 ≤ num * (ratio 1 k).2 ↔ (2 : ℚ) ^ k ≤ num / den := by
    rw [le_div_iff₀ hd, ← mul_le_mul_iff_left₀ hq, mul_right_comm, ← hratio, mul_comm]
    exact_mod_cast Iff.rfl
  symm
  split
  · next h => exact log_eq_of_le_of_lt (hiff.mp h) hhigh
  · next h =>
    refine log_eq_of_le_of_lt hlow ?_
    rw [Int.sub_add_cancel]
    exact not_le.mp (mt hiff.mpr h)

def unitExponent (x : ℚ) : Int :=
  max (Int.log 2 x - 52) leastExponent

/-- The number of a rounded mantissa; the one that is too large by one is carried over into the exponent. -/
def carried (negative : Bool) (m : Nat) (e : Int) : Binary64 :=
  let (m, e) := if m = 1 <<< 53 then (1 <<< 52, e + 1) else (m, e)
  if greatestExponent < e then infinite negative else finite negative m e

/-- Rounding counts units and carries. -/
theorem round_eq_carried (negative : Bool) {num den : Nat} (hnum : 0 < num) (hden : 0 < den) :
    ∃ n, Rounded n ((num : ℚ) / den / 2 ^ unitExponent ((num : ℚ) / den)) ∧
      round negative num den = carried negative n (unitExponent ((num : ℚ) / den)) := by
  have he : max (floorLog num den - 52) leastExponent = unitExponent ((num : ℚ) / den) := by
    rw [floorLog_eq hnum hden]
    rfl
  rw [round, if_neg hnum.ne', he]
  generalize unitExponent ((num : ℚ) / den) = e
  obtain ⟨hpos, hratio⟩ := ratio_eq 1 e
  rw [Nat.cast_one, one_mul] at hratio
  have hp : 0 < (ratio 1 e).1 := by
    by_contra hzero
    rw [Nat.eq_zero_of_not_pos hzero, Nat.cast_zero, zero_div] at hratio
    exact (zpow_pos two_pos e).ne hratio
  refine ⟨roundDiv (num * (ratio 1 e).2) (den * (ratio 1 e).1), ?_, rfl⟩
  rw [← hratio, div_div_div_eq]
  exact_mod_cast rounded_roundDiv (num * (ratio 1 e).2) (Nat.mul_pos hden hp)

structure Canonical (m : Nat) (q : Int) : Prop where
  lt : m < 2 ^ 53
  least_le : leastExponent ≤ q
  le_greatest : q ≤ greatestExponent
  normal : 2 ^ 52 ≤ m ∨ q = leastExponent

/-- There are fewer than 2 ^ 53 units, and at least half as many but for the least exponent. -/
theorem units_bounds {x : ℚ} (hx : 0 < x) :
    (2 ^ 52 ≤ x / 2 ^ unitExponent x ∨ unitExponent x = leastExponent) ∧
      x / 2 ^ unitExponent x < 2 ^ 53 := by
  have hlow := Int.zpow_log_le_self (b := 2) (by decide) hx
  have hhigh := Int.lt_zpow_succ_log_self (b := 2) (by decide) x
  push_cast at hlow hhigh
  have hunit : (0 : ℚ) < 2 ^ unitExponent x := zpow_pos two_pos _
  have hle : Int.log 2 x - 52 ≤ unitExponent x := le_max_left _ _
  constructor
  · rcases max_choice (Int.log 2 x - 52) leastExponent with he | he
    · left
      have he' : unitExponent x = Int.log 2 x - 52 := he
      rw [le_div_iff₀ hunit, he']
      calc (2 : ℚ) ^ 52 * 2 ^ (Int.log 2 x - 52) = 2 ^ ((52 : Int) + (Int.log 2 x - 52)) :=
            (zpow_add₀ two_ne_zero 52 _).symm
        _ = 2 ^ Int.log 2 x := by rw [add_sub_cancel]
        _ ≤ x := hlow
    · exact Or.inr he
  · rw [div_lt_iff₀ hunit]
    calc x < 2 ^ (Int.log 2 x + 1) := hhigh
      _ ≤ 2 ^ ((53 : Int) + unitExponent x) := zpow_le_zpow_right₀ one_le_two (by omega)
      _ = 2 ^ 53 * 2 ^ unitExponent x := zpow_add₀ two_ne_zero 53 _

/-- A rounded significand that is carried gives infinity or a float in its canonical form. -/
theorem carried_cases (negative : Bool) {n : Nat} {e : Int} (hle : n ≤ 2 ^ 53) (hleast : leastExponent ≤ e)
    (hnormal : 2 ^ 52 ≤ n ∨ e = leastExponent) :
    carried negative n e = infinite negative ∨
      ∃ m q, Canonical m q ∧ carried negative n e = finite negative m q := by
  unfold carried
  by_cases hcarry : n = 1 <<< 53
  · rw [if_pos hcarry]
    dsimp only
    split
    · exact Or.inl rfl
    · next hgreatest =>
      exact Or.inr ⟨_, _, ⟨by decide, by omega, by omega, Or.inl (by decide)⟩, rfl⟩
  · rw [if_neg hcarry]
    dsimp only
    split
    · exact Or.inl rfl
    · next hgreatest =>
      have hne : n ≠ 2 ^ 53 := hcarry
      exact Or.inr ⟨n, e, ⟨by omega, hleast, by omega, hnormal⟩, rfl⟩

/-- Rounding gives an infinity, or a number with its mantissa and exponent in their bounds. -/
theorem round_cases (negative : Bool) (num : Nat) {den : Nat} (hden : 0 < den) :
    round negative num den = infinite negative ∨
      ∃ m q, Canonical m q ∧ round negative num den = finite negative m q := by
  rcases Nat.eq_zero_or_pos num with rfl | hnum
  · exact Or.inr ⟨0, leastExponent, ⟨by decide, le_refl _, by decide, Or.inr rfl⟩, rfl⟩
  · obtain ⟨n, hn, hround⟩ := round_eq_carried negative hnum hden
    have hx : (0 : ℚ) < (num : ℚ) / den := div_pos (by exact_mod_cast hnum) (by exact_mod_cast hden)
    obtain ⟨hlow, hhigh⟩ := units_bounds hx
    rw [hround]
    exact carried_cases negative (hn.le (by exact_mod_cast hhigh)) (le_max_right _ _)
      (hlow.imp_left fun hlow => hn.ge (by exact_mod_cast hlow))

/-- How many quarters of a unit a number is above the middle to the next smaller one, whose unit is half as
large below a power of two. -/
def gap (m : Nat) (q : Int) : Nat :=
  if m = 1 <<< 52 ∧ q ≠ leastExponent then 1 else 2

/-- Counted in quarters of its unit, `m * 2 ^ q` has `x` between the middles to its neighbours. -/
structure Nearest (m : Nat) (q : Int) (x : ℚ) : Prop where
  low : ((4 * m - gap m q : Nat) : ℚ) ≤ x / 2 ^ (q - 2)
  high : x / 2 ^ (q - 2) ≤ (4 * m + 2 : Nat)
  strict : m % 2 = 1 →
    ((4 * m - gap m q : Nat) : ℚ) < x / 2 ^ (q - 2) ∧ x / 2 ^ (q - 2) < (4 * m + 2 : Nat)

/-- Below a power of two the floats are twice as close as above it. -/
theorem gap_cases (m : Nat) (q : Int) :
    (m = 2 ^ 52 ∧ q ≠ leastExponent ∧ gap m q = 1) ∨
      (¬(m = 2 ^ 52 ∧ q ≠ leastExponent) ∧ gap m q = 2) := by
  unfold gap
  split
  · next h => exact Or.inl ⟨h.1, h.2, rfl⟩
  · next h => exact Or.inr ⟨h, rfl⟩

theorem zpow_quarters (q : Int) (k : Nat) : (2 : ℚ) ^ (q - 2 + k) = 2 ^ k * 2 ^ (q - 2) := by
  rw [zpow_add₀ two_ne_zero, zpow_natCast, mul_comm]

theorem div_quarters (x : ℚ) (q : Int) (k : Nat) : x / 2 ^ (q - 2 + k) = x / 2 ^ (q - 2) / 2 ^ k := by
  rw [zpow_quarters, mul_comm, div_div]

section
variable {m num den : Nat} {q : Int} {x : ℚ}

theorem Nearest.pos (h : Nearest m q x) (hm : 0 < m) : 0 < x := by
  have hgap : 0 < 4 * m - gap m q := by
    rcases gap_cases m q with ⟨-, -, hg⟩ | ⟨-, hg⟩ <;> omega
  have hy : 0 < x / 2 ^ (q - 2) := lt_of_lt_of_le (by exact_mod_cast hgap) h.low
  exact (div_pos_iff_of_pos_right (zpow_pos two_pos _)).mp hy

/-- What is nearest to a number is rounded to the same unit, or to half of it right below a power of two. -/
theorem Nearest.unitExponent_cases (h : Nearest m q x) (hc : Canonical m q) (hm : 0 < m) :
    unitExponent x = q ∨ (m = 2 ^ 52 ∧ gap m q = 1 ∧ unitExponent x = q - 1 ∧ x / 2 ^ (q - 2) < 2 ^ 54) := by
  have hx := h.pos hm
  have hu : (0 : ℚ) < 2 ^ (q - 2) := zpow_pos two_pos _
  have hbelow (k : Nat) : x / 2 ^ (q - 2) < 2 ^ k ↔ Int.log 2 x < q - 2 + k := by
    rw [← Int.lt_zpow_iff_log_lt (b := 2) (by decide) hx, div_lt_iff₀ hu, ← zpow_quarters]
    exact_mod_cast Iff.rfl
  have hlt := hc.lt
  have hleast := hc.least_le
  have htop : Int.log 2 x < q - 2 + 55 := by
    refine (hbelow 55).mp (h.high.trans_lt ?_)
    exact_mod_cast (show 4 * m + 2 < 2 ^ 55 by omega)
  by_cases hq : q = leastExponent
  · left
    unfold unitExponent
    omega
  · have hnormal := hc.normal.resolve_right hq
    by_cases hlog : x / 2 ^ (q - 2) < 2 ^ 54
    · right
      have hlow : 4 * m - gap m q < 2 ^ 54 := by exact_mod_cast h.low.trans_lt hlog
      obtain ⟨hpow, -, hg⟩ : m = 2 ^ 52 ∧ q ≠ leastExponent ∧ gap m q = 1 := by
        rcases gap_cases m q with hg | ⟨hno, hg⟩
        · exact hg
        · exact absurd ⟨by omega, hq⟩ hno
      have habove : ¬x / 2 ^ (q - 2) < 2 ^ 53 := by
        have hfar : 2 ^ 53 ≤ 4 * m - gap m q := by omega
        exact not_lt.mpr (le_trans (by exact_mod_cast hfar) h.low)
      rw [hbelow] at habove
      refine ⟨hpow, hg, ?_, hlog⟩
      rw [hbelow] at hlog
      unfold unitExponent
      omega
    · left
      rw [hbelow] at hlog
      unfold unitExponent
      omega

/-- A number that a float is nearest to is rounded to its significand. -/
theorem Nearest.rounded (h : Nearest m q x) : Rounded m (x / 2 ^ q) := by
  have hgap : 4 * m ≤ 4 * m - gap m q + 2 := by
    rcases gap_cases m q with ⟨-, -, hg⟩ | ⟨-, hg⟩ <;> omega
  have hgap' : (4 * m : ℚ) ≤ (4 * m - gap m q : Nat) + 2 := by exact_mod_cast hgap
  obtain ⟨hlow, hhigh, hstrict⟩ := h
  push_cast at hhigh hstrict
  have hunit := div_quarters x q 2
  rw [Nat.cast_ofNat, sub_add_cancel] at hunit
  rw [hunit]
  refine ⟨by linarith, by linarith, fun hodd => ?_⟩
  obtain ⟨hlt, hlt'⟩ := hstrict hodd
  constructor <;> linarith

/-- What is nearest to a number is rounded to it. -/
theorem round_of_nearest (negative : Bool) (h : Nearest m q ((num : ℚ) / den)) (hden : 0 < den)
    (hc : Canonical m q) (hm : 0 < m) : round negative num den = finite negative m q := by
  have hnum : 0 < num := by
    have hx := h.pos hm
    rwa [div_pos_iff_of_pos_right (by exact_mod_cast hden), Nat.cast_pos] at hx
  obtain ⟨n, hn, hround⟩ := round_eq_carried negative hnum hden
  have hcases := h.unitExponent_cases hc hm
  rw [hround]
  generalize (num : ℚ) / den = x at h hn hcases
  have hgreatest := not_lt.mpr hc.le_greatest
  rcases hcases with he | ⟨rfl, hg, he, hlt⟩
  · rw [he] at hn ⊢
    obtain rfl := hn.eq h.rounded
    have hcarry : n ≠ 1 <<< 53 := hc.lt.ne
    rw [carried, if_neg hcarry]
    exact if_neg hgreatest
  · rw [he] at hn ⊢
    -- Less than a quarter of the smaller unit is missing to the power of two.
    have hrounded : Rounded (2 ^ 53) (x / 2 ^ (q - 1)) := by
      have hunit := div_quarters x q 1
      have hone : q - 2 + ((1 : Nat) : Int) = q - 1 := by omega
      rw [hone] at hunit
      rw [hunit]
      have hlow := h.low
      rw [hg] at hlow
      generalize x / 2 ^ (q - 2) = y at hlow hlt
      norm_num at hlow
      refine ⟨?_, ?_, fun hodd => by cases hodd⟩
      · push_cast
        linarith
      · push_cast
        linarith
    obtain rfl := hn.eq hrounded
    rw [carried, if_pos (by decide), sub_add_cancel]
    exact if_neg hgreatest

end

end ScriptLang.Binary64
