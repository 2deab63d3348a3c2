import ScriptLang.Proofs.Lexer.Source
import ScriptLang.Proofs.Number.Shortest

/-! Numbers that are written plainly, and read again. A plain numeral has digits on both sides of its one point,
and is the number that its decimal is; so the numeral that is written for a number is read as that number. -/
namespace ScriptLang.Binary64

/-- Digits read behind a number move it up by one place each. -/
theorem foldl_digits (n : Nat) (cs : List Char) :
    cs.foldl (fun n c => n * 10 + (c.toNat - '0'.toNat)) n = n * 10 ^ cs.length + ofDigits cs := by
  induction cs generalizing n with
  | nil => simp [ofDigits]
  | cons c cs ih =>
    unfold ofDigits
    rw [List.foldl_cons, List.foldl_cons, ih, ih (0 * 10 + _), List.length_cons]
    ring

/-- Digits that go on with others count for as much more. -/
theorem ofDigits_append (cs ds : List Char) :
    ofDigits (cs ++ ds) = ofDigits cs * 10 ^ ds.length + ofDigits ds := by
  rw [ofDigits, List.foldl_append, foldl_digits]
  rfl

theorem ofDigits_zeros (k : Nat) : ofDigits (List.replicate k '0') = 0 := by
  induction k with
  | zero => rfl
  | succ k ih =>
    have hzero : ofDigits ['0'] = 0 := rfl
    rw [List.replicate_succ, ← List.singleton_append, ofDigits_append, ih, hzero, Nat.zero_mul]

theorem isDigit_of_mem_zeros (k : Nat) : ∀ c ∈ List.replicate k '0', c.isDigit = true := by
  intro c hc
  rw [List.eq_of_mem_replicate hc]
  rfl

def pointedValue (whole fraction : List Char) : ℚ :=
  ofDigits (whole ++ fraction) * 10 ^ (-(fraction.length : Int))

/-- A numeral is rounded from the number it is. -/
theorem ofPointed_eq_round (whole fraction : List Char) :
    ∃ num den : Nat, 0 < den ∧ (num : ℚ) / den = pointedValue whole fraction ∧
      ofPointed whole fraction = round false num den := by
  unfold ofPointed ofDecimal pointedValue
  split
  · next hzero =>
    have hlength : fraction.length = 0 := by omega
    refine ⟨_, 1, Nat.one_pos, ?_, rfl⟩
    simp [hlength]
  · refine ⟨_, _, Nat.pow_pos (show 0 < 10 by decide), ?_, rfl⟩
    rw [neg_neg, Int.toNat_natCast, zpow_neg, zpow_natCast, div_eq_mul_inv]
    push_cast [Nat.pow_eq]
    rfl

/-- The text is digits, a point and digits, of which some are before the point, and is the number `x`. -/
def IsPointed (cs : List Char) (x : ℚ) : Prop :=
  ∃ whole fraction, cs = whole ++ '.' :: fraction ∧ whole ≠ [] ∧ (∀ c ∈ whole, c.isDigit = true) ∧
    (∀ c ∈ fraction, c.isDigit = true) ∧ pointedValue whole fraction = x

/-- Placing the point keeps the number. -/
theorem isPointed_pointed {digits : List Char} (hne : digits ≠ []) (hdigits : ∀ c ∈ digits, c.isDigit = true)
    (e : Int) : IsPointed (pointed digits e) (ofDigits digits * 10 ^ e) := by
  unfold pointed
  split
  · next he =>
    obtain ⟨k, rfl⟩ := Int.eq_ofNat_of_zero_le he
    refine ⟨digits ++ List.replicate k '0', ['0'], by simp, by simp [hne], ?_, by simp, ?_⟩
    · intro c hc
      rcases List.mem_append.mp hc with hc | hc
      · exact hdigits c hc
      · exact isDigit_of_mem_zeros k c hc
    · have hzero : ofDigits ['0'] = 0 := rfl
      unfold pointedValue
      rw [ofDigits_append, ofDigits_append, ofDigits_zeros, hzero, List.length_replicate]
      push_cast
      simp
  · next he =>
    obtain ⟨k, rfl⟩ : ∃ k : Nat, e = -k := ⟨(-e).toNat, by omega⟩
    simp only [neg_neg, Int.toNat_natCast]
    split
    · next hlt =>
      refine ⟨_, _, rfl, ?_, fun c hc => hdigits c (List.mem_of_mem_take hc),
        fun c hc => hdigits c (List.mem_of_mem_drop hc), ?_⟩
      · intro hnil
        have hlength := congrArg List.length hnil
        rw [List.length_take, List.length_nil] at hlength
        omega
      · unfold pointedValue
        rw [List.take_append_drop, List.length_drop]
        congr 3
        omega
    · next hge =>
      refine ⟨['0'], List.replicate (k - digits.length) '0' ++ digits, rfl, by simp, by simp, ?_, ?_⟩
      · intro c hc
        rcases List.mem_append.mp hc with hc | hc
        · exact isDigit_of_mem_zeros _ c hc
        · exact hdigits c hc
      · have hzero : ofDigits ['0'] = 0 := rfl
        unfold pointedValue
        rw [ofDigits_append, ofDigits_append, ofDigits_zeros, hzero, List.length_append,
          List.length_replicate, Nat.zero_mul, Nat.zero_mul, Nat.zero_add, Nat.zero_add]
        congr 3
        omega

/-- A decimal that is written without an exponent is written as the number it is. -/
theorem Decimal.isPointed_write (x : Decimal) : IsPointed (x.write .plain) x.value := by
  have hdigits : ∀ c ∈ Nat.toDigits 10 x.digits, c.isDigit = true := fun c hc =>
    Nat.isDigit_of_mem_toDigits (by decide) (by decide) hc
  have h := isPointed_pointed Nat.toDigits_ne_nil hdigits x.exponent
  rw [ofDigits_toDigits] at h
  have hwrite : x.write .plain = pointed (Nat.toDigits 10 x.digits) x.exponent := by
    rw [← Nat.toList_repr]
    rfl
  rw [hwrite]
  exact h

/-- The shortest decimal of a number is read as that number. -/
theorem ofPointed_of_shortest {m : Nat} {q : Int} {whole fraction : List Char} (hc : Canonical m q)
    (h : pointedValue whole fraction = (shortest m q).value) :
    ofPointed whole fraction = finite false m q := by
  obtain ⟨num, den, hden, hvalue, hround⟩ := ofPointed_eq_round whole fraction
  rw [hround]
  rcases Nat.eq_zero_or_pos m with rfl | hm
  · obtain rfl : q = leastExponent := hc.normal.resolve_left (by decide)
    have hzero : (shortest 0 leastExponent).value = 0 := by simp [shortest, Decimal.value]
    have hne : (den : ℚ) ≠ 0 := by exact_mod_cast hden.ne'
    rw [h, hzero, div_eq_zero_iff, or_iff_left hne, Nat.cast_eq_zero] at hvalue
    rw [hvalue]
    rfl
  · refine round_of_nearest false ?_ hden hc hm
    rw [hvalue, h]
    exact nearest_shortest hc hm

end ScriptLang.Binary64
