import Mathlib.Data.Rat.Floor
import Mathlib.Tactic.Linarith
import Mathlib.Tactic.NormNum
import ScriptLang.Evaluator.Operation

/-! Integer arithmetic. Operators compute on the integers themselves, whatever their size, and only the
result is checked: it is exact, or an overflow is reported. Quotients are rounded towards zero. -/
namespace ScriptLang

def truncated (x : ℚ) : Int :=
  if 0 ≤ x then ⌊x⌋ else ⌈x⌉

/-- `q` is the quotient of `a` and `b`, rounded towards zero, and `r` is what it leaves: zero, or of the
sign of `a`. -/
structure Divided (a b q r : Int) : Prop where
  rounded : q = truncated (a / b)
  exact : a = b * q + r
  smaller : |r| < |b|
  sign : r = 0 ∨ r.sign = a.sign

section
variable {a b q r q' r' : Int}

/-- A division with remainder has one quotient and one remainder. -/
theorem Divided.unique (h : Divided a b q r) (h' : Divided a b q' r') : q = q' ∧ r = r' := by
  have hq : q = q' := h.rounded.trans h'.rounded.symm
  have hr := h.exact.symm.trans h'.exact
  rw [hq] at hr
  exact ⟨hq, add_left_cancel hr⟩

/-- A quotient with a remainder of its own sign that is not negative is the exact one with its
fraction cut off. -/
theorem truncated_of_nonneg (hb : 0 < b) (hr : 0 ≤ r) (hrb : r < b) (ha : 0 ≤ b * q + r) :
    truncated ((b * q + r : Int) / b) = q := by
  have hpos : (0 : ℚ) < b := by exact_mod_cast hb
  have hx : (0 : ℚ) ≤ ((b * q + r : Int) : ℚ) / b := div_nonneg (by exact_mod_cast ha) hpos.le
  have hlow : q * b ≤ b * q + r := by linarith
  have hhigh : b * q + r < (q + 1) * b := by linarith
  rw [truncated, if_pos hx, Int.floor_eq_iff, le_div_iff₀ hpos, div_lt_iff₀ hpos]
  exact ⟨by exact_mod_cast hlow, by exact_mod_cast hhigh⟩

theorem truncated_of_neg (hb : 0 < b) (hr : r ≤ 0) (hrb : -b < r) (ha : b * q + r < 0) :
    truncated ((b * q + r : Int) / b) = q := by
  have hpos : (0 : ℚ) < b := by exact_mod_cast hb
  have hx : ((b * q + r : Int) : ℚ) / b < 0 := div_neg_of_neg_of_pos (by exact_mod_cast ha) hpos
  have hlow : (q - 1) * b < b * q + r := by linarith
  have hhigh : b * q + r ≤ q * b := by linarith
  rw [truncated, if_neg hx.not_ge, Int.ceil_eq_iff, lt_div_iff₀ hpos, div_le_iff₀ hpos]
  exact ⟨by exact_mod_cast hlow, by exact_mod_cast hhigh⟩

theorem tmod_nonpos (b : Int) (ha : a ≤ 0) : a.tmod b ≤ 0 := by
  have h := Int.tmod_nonneg b (Int.neg_nonneg_of_nonpos ha)
  rw [Int.neg_tmod] at h
  exact Int.nonpos_of_neg_nonneg h

theorem tdiv_eq_truncated_of_pos (a : Int) (hb : 0 < b) : a.tdiv b = truncated (a / b) := by
  have hsplit := Int.mul_tdiv_add_tmod a b
  rcases lt_or_ge a 0 with ha | ha
  · have h := truncated_of_neg (q := a.tdiv b) hb (tmod_nonpos b ha.le) (Int.lt_tmod_of_pos a hb)
      (hsplit.symm ▸ ha)
    rw [hsplit] at h
    exact h.symm
  · have h := truncated_of_nonneg (q := a.tdiv b) hb (Int.tmod_nonneg b ha) (Int.tmod_lt_of_pos a hb)
      (hsplit.symm ▸ ha)
    rw [hsplit] at h
    exact h.symm

/-- Integer division of a program is the exact quotient rounded towards zero. -/
theorem tdiv_eq_truncated (a : Int) (hb : b ≠ 0) : a.tdiv b = truncated (a / b) := by
  rcases lt_or_gt_of_ne hb with hneg | hpos
  · have h := tdiv_eq_truncated_of_pos (-a) (Int.neg_pos_of_neg hneg)
    rw [Int.neg_tdiv, Int.tdiv_neg, neg_neg] at h
    rw [h, Int.cast_neg, Int.cast_neg, neg_div_neg_eq]
  · exact tdiv_eq_truncated_of_pos a hpos

/-- The quotient and the remainder that programs compute belong together, and the remainder has
the sign of the dividend. -/
theorem divided_tdiv_tmod (a : Int) (hb : b ≠ 0) : Divided a b (a.tdiv b) (a.tmod b) where
  rounded := tdiv_eq_truncated a hb
  exact := (Int.mul_tdiv_add_tmod a b).symm
  smaller := by
    rw [Int.abs_eq_natAbs, Int.abs_eq_natAbs, Int.natAbs_tmod]
    exact_mod_cast Nat.mod_lt _ (Int.natAbs_pos.mpr hb)
  sign := by
    rw [Int.sign_tmod]
    by_cases hdvd : b ∣ a
    · exact Or.inl (Int.tmod_eq_zero_of_dvd hdvd)
    · exact Or.inr (if_neg hdvd)

/-- A divisor of 32 bits leaves a remainder of 32 bits. -/
theorem Divided.remainder_fits (h : Divided a b q r) (hb : -2 ^ 31 ≤ b ∧ b ≤ 2 ^ 31 - 1) :
    -2 ^ 31 ≤ r ∧ r ≤ 2 ^ 31 - 1 := by
  have habs : |b| ≤ 2 ^ 31 := abs_le.mpr ⟨hb.1, by omega⟩
  have hr := abs_lt.mp (h.smaller.trans_le habs)
  omega

/-- A dividend of 32 bits has a quotient of 32 bits, unless the least one is divided by minus one. -/
theorem Divided.quotient_fits_iff (h : Divided a b q r) (ha : -2 ^ 31 ≤ a ∧ a ≤ 2 ^ 31 - 1)
    (hb : b ≠ 0) : (-2 ^ 31 ≤ q ∧ q ≤ 2 ^ 31 - 1) ↔ ¬(a = -2 ^ 31 ∧ b = -1) := by
  obtain ⟨rfl, -⟩ := h.unique (divided_tdiv_tmod a hb)
  have habs := Int.natAbs_tdiv_le_natAbs a b
  constructor
  · rintro hq ⟨rfl, rfl⟩
    norm_num at hq
  · intro hne
    refine ⟨by omega, ?_⟩
    by_contra hq
    have hleast : a = -2 ^ 31 := by omega
    have hwhole : b.natAbs < 2 := by
      by_contra htwo
      have hhalf : a.natAbs / b.natAbs ≤ a.natAbs / 2 :=
        Nat.div_le_div_left (Nat.le_of_not_lt htwo) (by decide)
      have hdiv : (a.tdiv b).natAbs = a.natAbs / b.natAbs := Int.natAbs_tdiv a b
      omega
    have hone : b = 1 := by omega
    rw [hone, Int.tdiv_one] at hq
    omega

end

theorem Range.contains_iff (n : Int) : contains n = true ↔ -2 ^ 31 ≤ n ∧ n ≤ 2 ^ 31 - 1 := by
  rw [contains, Bool.and_eq_true, decide_eq_true_iff, decide_eq_true_iff]
  norm_num [least, greatest]

def Comparison.orders (a b : Int) : Comparison → Bool
  | lt => a < b
  | gt => a > b
  | le => a ≤ b
  | ge => a ≥ b
  | eq => a = b
  | ne => a ≠ b

theorem Comparison.holds_compare (c : Comparison) (a b : Int) :
    c.holds (some (compare a b)) = c.orders a b := by
  rcases lt_trichotomy a b with h | rfl | h
  · rw [compare_lt_iff_lt.mpr h]
    cases c <;> simp [holds, orders, h, h.le, h.ne, h.not_gt, h.not_ge]
  · rw [compare_eq_iff_eq.mpr rfl]
    cases c <;> simp [holds, orders]
  · rw [compare_gt_iff_gt.mpr h]
    cases c <;> simp [holds, orders, h, h.le, h.ne', h.not_gt, h.not_ge]

def Fault.Tells (site : Site) (text : String) (e : Fault) : Prop :=
  ∃ cause, e = .atSite cause site ∧ cause.family = .evaluation ∧ cause.message = text

def overflowText (op : String) (a b : Int) : String :=
  s!"Integer overflow: {a} {op} {b}"

/-- No other text of a fault reads like the one about an overflow. -/
theorem overflowText_ne {op text : String} (a b : Int) (h : text.toList.head? ≠ some 'I') :
    text ≠ overflowText op a b := by
  rintro rfl
  have hfirst : (toString "Integer overflow: ").toList.head? = some 'I' := rfl
  refine h ?_
  unfold overflowText
  simp [hfirst]

namespace Operation
variable (site : Site) (a b : Int)

def Fails (op : String) (text : String) : Prop :=
  ∃ e, apply site op (.integer a) (.integer b) = .error e ∧ e.Tells site text

/-- The operation on two integers has this result: it gives the result if that has 32 bits, and reports
an overflow otherwise. -/
structure Computes (op : String) (result : Int) : Prop where
  fits : -2 ^ 31 ≤ result → result ≤ 2 ^ 31 - 1 →
    apply site op (.integer a) (.integer b) = .ok (.integer result)
  overflows : result < -2 ^ 31 ∨ 2 ^ 31 - 1 < result → Fails site a b op (overflowText op a b)

variable {site a b} {op text : String} {result : Int}

theorem Fails.text_unique {text' : String} (h : Fails site a b op text) (h' : Fails site a b op text') :
    text = text' := by
  obtain ⟨e, he, cause, rfl, -, rfl⟩ := h
  obtain ⟨e', he', cause', rfl, -, rfl⟩ := h'
  cases he.symm.trans he'
  rfl

/-- What is computed fails only with the text of an overflow, and only where it is beyond 32 bits. -/
theorem Computes.fails_iff (h : Computes site a b op result) :
    Fails site a b op text ↔
      ¬(-2 ^ 31 ≤ result ∧ result ≤ 2 ^ 31 - 1) ∧ text = overflowText op a b := by
  constructor
  · intro hf
    by_cases hr : -2 ^ 31 ≤ result ∧ result ≤ 2 ^ 31 - 1
    · obtain ⟨e, he, -⟩ := hf
      cases he.symm.trans (h.fits hr.1 hr.2)
    · exact ⟨hr, hf.text_unique (h.overflows (by omega))⟩
  · rintro ⟨hr, rfl⟩
    exact h.overflows (by omega)

theorem apply_integers {o : Operator} {outcome : Except Fault Value}
    (h : onInts site o a b = some outcome) :
    apply site o.spelling (.integer a) (.integer b) = outcome := by
  have hm : ((Operator.ofSpelling? o.spelling).bind fun o =>
      meaning site o (.integer a) (.integer b)) = some outcome := by
    rw [Operator.ofSpelling?_spelling]
    exact h
  unfold apply
  simp only [isNothing, Bool.or_self, Bool.false_eq_true, if_false, unify, bind, Except.bind, hm]

/-- An operation that checks its exact result for the range gives it, or reports the overflow. -/
theorem computes_of_ranged {o : Arithmetic} (h : computeInt site o a b = ranged site o a b result) :
    Computes site a b (Operator.arithmetic o).spelling result := by
  have happly : apply site (Operator.arithmetic o).spelling (.integer a) (.integer b) =
      ranged site o a b result := apply_integers (congrArg some h)
  constructor
  · intro hlow hhigh
    rw [happly, ranged, if_pos ((Range.contains_iff result).mpr ⟨hlow, hhigh⟩)]
  · intro hout
    have hno : ¬Range.contains result = true := by
      rw [Range.contains_iff]
      omega
    exact ⟨_, by rw [happly, ranged, if_neg hno], _, rfl, rfl, rfl⟩

/-- A divisor of zero is reported, and nothing is computed. -/
theorem fails_zero (site : Site) (a : Int) :
    Fails site a 0 "/" "Division by zero" ∧ Fails site a 0 "%" "Modulo by zero" :=
  ⟨⟨_, apply_integers (o := .arithmetic .div) rfl, _, rfl, rfl, rfl⟩,
    ⟨_, apply_integers (o := .arithmetic .mod) rfl, _, rfl, rfl, rfl⟩⟩

theorem computes_of_divided (site : Site) {q r : Int} (hb : b ≠ 0) (h : Divided a b q r) :
    Computes site a b "/" q ∧ Computes site a b "%" r := by
  obtain ⟨rfl, rfl⟩ := h.unique (divided_tdiv_tmod a hb)
  exact ⟨computes_of_ranged (o := .div) (if_neg hb), computes_of_ranged (o := .mod) (if_neg hb)⟩

/-- Only a divisor of zero is told as one. -/
theorem fails_zero_iff (site : Site) (a b : Int) :
    (Fails site a b "/" "Division by zero" ↔ b = 0) ∧ (Fails site a b "%" "Modulo by zero" ↔ b = 0) := by
  by_cases hb : b = 0
  · subst hb
    have hzero := fails_zero site a
    exact ⟨⟨fun _ => rfl, fun _ => hzero.1⟩, ⟨fun _ => rfl, fun _ => hzero.2⟩⟩
  · obtain ⟨hq, hr⟩ := computes_of_divided site hb (divided_tdiv_tmod a hb)
    rw [hq.fails_iff, hr.fails_iff]
    exact ⟨⟨fun hf => absurd hf.2 (overflowText_ne a b (by decide)), fun h => absurd h hb⟩,
      ⟨fun hf => absurd hf.2 (overflowText_ne a b (by decide)), fun h => absurd h hb⟩⟩

/-- Of integers of 32 bits, no remainder overflows, and one quotient only. -/
theorem overflows_of_fitting (site : Site) (ha : -2 ^ 31 ≤ a ∧ a ≤ 2 ^ 31 - 1)
    (hb : -2 ^ 31 ≤ b ∧ b ≤ 2 ^ 31 - 1) :
    ¬Fails site a b "%" (overflowText "%" a b) ∧
      (Fails site a b "/" (overflowText "/" a b) ↔ a = -2 ^ 31 ∧ b = -1) := by
  by_cases hb0 : b = 0
  · subst hb0
    obtain ⟨hdivision, hmodulo⟩ := fails_zero site a
    refine ⟨fun hf => overflowText_ne a 0 (by decide) (hmodulo.text_unique hf), fun hf => ?_, ?_⟩
    · exact absurd (hdivision.text_unique hf) (overflowText_ne a 0 (by decide))
    · rintro ⟨-, hone⟩
      omega
  · have hd := divided_tdiv_tmod a hb0
    obtain ⟨hq, hr⟩ := computes_of_divided site hb0 hd
    have hremainder := hd.remainder_fits hb
    have hquotient := hd.quotient_fits_iff ha hb0
    rw [hq.fails_iff, hr.fails_iff]
    exact ⟨fun hf => hf.1 hremainder, fun hf => not_not.mp fun hne => hf.1 (hquotient.mpr hne),
      fun hone => ⟨fun hfits => hquotient.mp hfits hone, rfl⟩⟩

/-- Operators compute on integers of any size exactly, or fail: for a divisor of zero, or where the
result is beyond 32 bits. Integers of 32 bits have one quotient that is beyond them, and no remainder. -/
theorem integers_compute_exactly_or_fail (site : Site) (a b : Int) :
    Computes site a b "+" (a + b) ∧ Computes site a b "-" (a - b) ∧ Computes site a b "*" (a * b) ∧
    (Fails site a b "/" "Division by zero" ↔ b = 0) ∧
    (Fails site a b "%" "Modulo by zero" ↔ b = 0) ∧
    (b ≠ 0 → ∃ q r, Divided a b q r ∧ (∀ q' r', Divided a b q' r' → q' = q ∧ r' = r) ∧
      Computes site a b "/" q ∧ Computes site a b "%" r) ∧
    (-2 ^ 31 ≤ a ∧ a ≤ 2 ^ 31 - 1 → -2 ^ 31 ≤ b ∧ b ≤ 2 ^ 31 - 1 →
      ¬Fails site a b "%" (overflowText "%" a b) ∧
      (Fails site a b "/" (overflowText "/" a b) ↔ a = -2 ^ 31 ∧ b = -1)) ∧
    ∀ c : Comparison, apply site (Operator.comparison c).spelling (.integer a) (.integer b) =
      .ok (.boolean (c.orders a b)) := by
  obtain ⟨hdivision, hmodulo⟩ := fails_zero_iff site a b
  refine ⟨computes_of_ranged (o := .add) rfl, computes_of_ranged (o := .sub) rfl,
    computes_of_ranged (o := .mul) rfl, hdivision, hmodulo, ?_, overflows_of_fitting site, ?_⟩
  · intro hb
    have hd := divided_tdiv_tmod a hb
    exact ⟨_, _, hd, fun q' r' h => h.unique hd, computes_of_divided site hb hd⟩
  · intro c
    rw [apply_integers rfl, c.holds_compare]

/-- The least integer divided by minus one: the quotient overflows, and the remainder is zero. -/
theorem integers_compute_exactly_or_fail_of_least :
    Fails ⟨some 1, "m.ct"⟩ (-2 ^ 31) (-1) "/" "Integer overflow: -2147483648 / -1" ∧
      apply ⟨some 1, "m.ct"⟩ "%" (.integer (-2 ^ 31)) (.integer (-1)) = .ok (.integer 0) := by
  obtain ⟨-, -, -, -, -, hdivided, hfitting, -⟩ :=
    integers_compute_exactly_or_fail ⟨some 1, "m.ct"⟩ (-2 ^ 31) (-1)
  constructor
  · have htext : overflowText "/" (-2 ^ 31) (-1) = "Integer overflow: -2147483648 / -1" := by decide
    rw [← htext]
    exact (hfitting (by decide) (by decide)).2.mpr ⟨rfl, rfl⟩
  · obtain ⟨q, r, hd, -, -, hremainder⟩ := hdivided (by decide)
    obtain ⟨-, rfl⟩ := hd.unique (divided_tdiv_tmod (-2 ^ 31) (by decide))
    exact hremainder.fits (by decide) (by decide)

end Operation
end ScriptLang
