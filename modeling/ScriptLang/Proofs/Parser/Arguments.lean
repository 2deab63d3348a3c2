import ScriptLang.Proofs.Parser.Chains

/-! Lists of arguments. A list is read exactly where expressions stand between parentheses with a comma
between each and the next, and one more comma may stand behind the last of them. -/
namespace ScriptLang

def Lexeme.beginsExpression : Lexeme → Bool
  | text _ | identifier _ | integer _ | float _ => true
  | punctuation c => c = '('
  | operator _ => false

def Parse.absence : Option Token → Cause
  | none => .argumentMissing
  | some t => .unexpected t.lexeme.shown

namespace Parser

def Takes (c : Char) (p q : Parser) : Prop :=
  ∃ pos, Parse.advance p = .ok (some ⟨.punctuation c, pos⟩) q

/-- Expressions with a comma between each and the next, and what closes them. The number is that of the
commas between them. -/
inductive Separated (nesting : Nat) (close : Parser → Parser → Prop) :
    Parser → List Node → Nat → Parser → Prop
  | last {p q r : Parser} {e : Node} : Parse.primary nesting p = .ok (some e) q → close q r →
    Separated nesting close p [e] 0 r
  | more {p q r s : Parser} {e : Node} {es : List Node} {commas : Nat} :
    Parse.primary nesting p = .ok (some e) q → Takes ',' q r → Separated nesting close r es commas s →
    Separated nesting close p (e :: es) (commas + 1) s

def Opened (nesting : Nat) (close : Parser → Parser → Prop) (p : Parser) (args : List Node)
    (commas : Nat) (r : Parser) : Prop :=
  ∃ q, Takes '(' p q ∧ Separated nesting close q args commas r

inductive Listed (nesting : Nat) (p : Parser) : List Node → Nat → Parser → Prop
  | empty {q r : Parser} : Takes '(' p q → Takes ')' q r → Listed nesting p [] 0 r
  | separated {args : List Node} {commas : Nat} {r : Parser} :
    Opened nesting (Takes ')') p args commas r → Listed nesting p args commas r

inductive Trailing (nesting : Nat) (p : Parser) : List Node → Nat → Parser → Prop
  | intro {args : List Node} {commas : Nat} {q r : Parser} :
    Opened nesting (Takes ',') p args commas q → Takes ')' q r → Trailing nesting p args (commas + 1) r

/-- An argument is to come: behind the opening parenthesis, or behind a comma. -/
inductive Awaits (nesting : Nat) (p : Parser) : Parser → Prop
  | first {q : Parser} : Takes '(' p q → Awaits nesting p q
  | next {args : List Node} {commas : Nat} {q : Parser} : Opened nesting (Takes ',') p args commas q →
    Awaits nesting p q

section
open Parse
variable {p q r s : Parser} {c : Char}

theorem eq_mark_of_any {t : Option Token} (h : t.any (·.lexeme == .punctuation c) = true) :
    ∃ pos, t = some ⟨.punctuation c, pos⟩ := by
  cases t with
  | none => cases h
  | some t =>
    obtain ⟨l, pos⟩ := t
    obtain rfl : l = .punctuation c := beq_iff_eq.mp h
    exact ⟨pos, rfl⟩

/-- A mark is taken where looking ahead shows it. -/
theorem takes_iff : Takes c p q ↔
    ∃ pos p', peek p = .ok (some ⟨.punctuation c, pos⟩) p' ∧ q = p'.taken := by
  constructor
  · rintro ⟨pos, h⟩
    cases hp : peek p with
    | error e p' =>
      rw [advance_of_peek_error hp] at h
      cases h
    | ok t p' =>
      rw [advance_of_peek hp] at h
      cases h
      exact ⟨pos, p', rfl, rfl⟩
  · rintro ⟨pos, p', hp, rfl⟩
    exact ⟨pos, advance_of_peek hp⟩

theorem Takes.unique {c' : Char} (h : Takes c p q) (h' : Takes c' p r) : c = c' ∧ q = r := by
  obtain ⟨pos, h⟩ := h
  obtain ⟨pos', h'⟩ := h'
  cases h.symm.trans h'
  exact ⟨rfl, rfl⟩

theorem Takes.size_lt (h : Takes c p q) : q.size < p.size := by
  obtain ⟨pos, p', hp, rfl⟩ := takes_iff.mp h
  exact (shows_of_peek hp).size_taken_lt.trans_le (size_peek_le hp)

/-- Looking ahead makes no difference to what comes next. -/
theorem takes_of_peek {t : Option Token} (h : peek p = .ok t q) : Takes c q r ↔ Takes c p r := by
  rw [Takes, Takes, advance_of_peek h, advance_of_shows (shows_of_peek h)]

theorem skip_eq_ok_iff : skip c p = .ok () q ↔ Takes c p q := by
  rw [takes_iff]
  constructor
  · intro h
    obtain ⟨b, p₁, hm, hb⟩ := ok_of_bind h
    obtain ⟨t, p₂, hp, ht⟩ := ok_of_bind hm
    cases ht
    by_cases hany : t.any (·.lexeme == .punctuation c) = true
    · obtain ⟨pos, rfl⟩ := eq_mark_of_any hany
      rw [if_pos hany, bind_of_ok (advance_of_shows (shows_of_peek hp))] at hb
      cases hb
      exact ⟨pos, p₁, hp, rfl⟩
    · rw [if_neg hany] at hb
      obtain ⟨_, _, -, hmissing⟩ := ok_of_bind hb
      cases hmissing
  · rintro ⟨pos, p', hp, rfl⟩
    exact skip_of_peek hp

section
variable {nesting : Nat}

/-- An expression is read in the same way after looking ahead. -/
theorem primary_of_peek {t : Option Token} {a : Option Node} (hp : peek p = .ok t q) :
    primary nesting q = .ok a r ↔ primary nesting p = .ok a r := by
  cases nesting with
  | zero => exact ⟨nofun, nofun⟩
  | succ nesting =>
    have hpeek : peek q = peek p := (peek_of_shows (shows_of_peek hp)).trans hp.symm
    have hoperand : operand (primary nesting) q = operand (primary nesting) p := bind_congr_left hpeek
    have hprimary : primary (nesting + 1) q = primary (nesting + 1) p := bind_congr_left hoperand
    rw [hprimary]

/-- At the end of the text there is no expression. -/
theorem primary_of_end (hp : peek p = .ok none q) : primary (nesting + 1) p = .ok none q := by
  have hoperand : operand (primary nesting) p = .ok none q := bind_of_ok hp
  exact bind_of_ok hoperand

theorem primary_of_absent {t : Token} (hp : peek p = .ok (some t) q)
    (ht : t.lexeme.beginsExpression = false) :
    primary (nesting + 1) p = .error (.atPosition (absence (some t)) q.place q.file) q := by
  have hoperand : operand (primary nesting) p =
      .error (.atPosition (absence (some t)) q.place q.file) q := by
    refine (bind_of_ok hp).trans (congrFun (?_ : _ = refuse (absence (some t))) q)
    split
    · next heq => cases heq
    all_goals
      next heq =>
      cases heq
      first | rfl | cases ht
  exact bind_of_error hoperand

/-- What is an expression begins like one. -/
theorem begins_of_primary {e : Node} (h : primary nesting p = .ok (some e) r) :
    ∃ t q, peek p = .ok (some t) q ∧ t.lexeme.beginsExpression = true := by
  cases nesting with
  | zero => cases h
  | succ nesting =>
    cases hp : peek p with
    | error e q =>
      have herror : primary (nesting + 1) p = .error e q := bind_of_error (bind_of_error hp)
      cases herror.symm.trans h
    | ok t q =>
      cases t with
      | none => cases (primary_of_end hp).symm.trans h
      | some t =>
        refine ⟨t, q, rfl, ?_⟩
        by_contra hbegins
        cases (primary_of_absent hp (Bool.of_not_eq_true hbegins)).symm.trans h

/-- No expression begins with a closing parenthesis. -/
theorem not_takes_of_primary {e : Node} (h : primary nesting p = .ok (some e) r) : ¬Takes ')' p s := by
  intro hclose
  obtain ⟨t, q, hp, hbegins⟩ := begins_of_primary h
  obtain ⟨pos, q', hp', -⟩ := takes_iff.mp hclose
  cases hp.symm.trans hp'
  cases hbegins

theorem Separated.not_takes {close : Parser → Parser → Prop} {args : List Node} {commas : Nat}
    (h : Separated nesting close p args commas r) : ¬Takes ')' p s := by
  cases h with
  | last he _ => exact not_takes_of_primary he
  | more he _ _ => exact not_takes_of_primary he

/-- There is one expression more than there are commas between them. -/
theorem Separated.length {close : Parser → Parser → Prop} {args : List Node} {commas : Nat}
    (h : Separated nesting close p args commas r) : args.length = commas + 1 := by
  induction h with
  | last _ _ => rfl
  | more _ _ _ ih => rw [List.length_cons, ih]

theorem size_primary_le {a : Option Node} (h : primary nesting p = .ok a q) : q.size ≤ p.size := by
  obtain ⟨ts, htook, -⟩ := (traced_primary nesting p).of_ok h
  exact Nat.le_of_add_left_le htook.length_le

/-- Every comma and the mark behind the last expression make the parser smaller. -/
theorem Separated.size_le {args : List Node} {commas : Nat}
    (h : Separated nesting (Takes c) p args commas r) : commas + 1 + r.size ≤ p.size := by
  induction h with
  | last he hc =>
    have hexpression := size_primary_le he
    have hmark := hc.size_lt
    omega
  | more he hcomma _ ih =>
    have hexpression := size_primary_le he
    have hmark := hcomma.size_lt
    omega

theorem peek_of_atMark {b : Bool} (h : atMark c p = .ok b q) :
    ∃ t, peek p = .ok t q ∧ (b = true → ∃ pos, t = some ⟨.punctuation c, pos⟩) := by
  obtain ⟨t, p', hp, hb⟩ := ok_of_bind h
  cases hb
  exact ⟨t, hp, eq_mark_of_any⟩

/-- Where one mark stands, a test for any mark answers whether it is that one. -/
theorem Takes.atMark (h : Takes c p r) (d : Char) :
    ∃ q, Parse.atMark d p = .ok (decide (c = d)) q ∧ Takes c q r := by
  obtain ⟨pos, q, hp, rfl⟩ := takes_iff.mp h
  refine ⟨q, ?_, (takes_of_peek hp).mpr h⟩
  rw [atMark_of_peek hp]
  by_cases hd : c = d <;> simp [hd]

/-- What one round comes to: nothing in front of a closing parenthesis, or an expression, with a comma or
the closing parenthesis behind it. -/
theorem argumentsBefore_cases {fuel : Nat} {args : List Node}
    (h : argumentsBefore (primary nesting) (fuel + 1) p = .ok args q) :
    (args = [] ∧ ∀ s, Takes ')' q s → Takes ')' p s) ∨
      ∃ e es p₁ p₂, args = e :: es ∧ primary nesting p = .ok (some e) p₁ ∧
        argumentsBefore (primary nesting) fuel p₂ = .ok es q ∧
        (Takes ',' p₁ p₂ ∨ (∃ s, Takes ')' p₂ s) ∧ ∀ s, Takes ')' p₂ s → Takes ')' p₁ s) := by
  obtain ⟨ended, p₀, hended, h⟩ := ok_of_bind h
  obtain ⟨t, hp, -⟩ := peek_of_atMark hended
  cases ended with
  | true =>
    cases h
    exact Or.inl ⟨rfl, fun s => (takes_of_peek hp).mp⟩
  | false =>
    obtain ⟨a, p₁, he, h⟩ := ok_of_bind h
    cases a with
    | none => cases h
    | some e =>
      refine Or.inr ⟨e, ?_⟩
      obtain ⟨last, p₂, hlast, h⟩ := ok_of_bind h
      obtain ⟨u, hu, hmark⟩ := peek_of_atMark hlast
      cases last with
      | true =>
        obtain ⟨es, q', hes, h⟩ := ok_of_bind h
        cases h
        obtain ⟨pos, rfl⟩ := hmark rfl
        have hclose : Takes ')' p₂ p₂.taken := takes_iff.mpr ⟨pos, p₂, peek_of_shows (shows_of_peek hu), rfl⟩
        exact ⟨es, p₁, p₂, rfl, (primary_of_peek hp).mp he, hes,
          Or.inr ⟨⟨_, hclose⟩, fun s => (takes_of_peek hu).mp⟩⟩
      | false =>
        obtain ⟨_, p₃, hskip, h⟩ := ok_of_bind h
        obtain ⟨es, q', hes, h⟩ := ok_of_bind h
        cases h
        exact ⟨es, p₁, p₃, rfl, (primary_of_peek hp).mp he, hes,
          Or.inl ((takes_of_peek hu).mp (skip_eq_ok_iff.mp hskip))⟩

/-- What was read up to a closing parenthesis: nothing, or expressions with commas between them, and
perhaps one more comma. -/
theorem separated_of_argumentsBefore {fuel : Nat} {args : List Node}
    (h : argumentsBefore (primary nesting) fuel p = .ok args q) (hclose : Takes ')' q r) :
    (args = [] ∧ Takes ')' p r) ∨ (∃ commas, Separated nesting (Takes ')') p args commas r) ∨
      ∃ commas s, Separated nesting (Takes ',') p args commas s ∧ Takes ')' s r := by
  induction fuel generalizing p args with
  | zero => cases h
  | succ fuel ih =>
    rcases argumentsBefore_cases h with
      ⟨rfl, hback⟩ | ⟨e, es, p₁, p₂, rfl, he, hes, hcomma | ⟨⟨s, hend⟩, hback⟩⟩
    · exact Or.inl ⟨rfl, hback r hclose⟩
    · rcases ih hes with ⟨rfl, hr⟩ | ⟨commas, hseparated⟩ | ⟨commas, s, hseparated, hr⟩
      · exact Or.inr (Or.inr ⟨0, p₂, .last he hcomma, hr⟩)
      · exact Or.inr (Or.inl ⟨commas + 1, .more he hcomma hseparated⟩)
      · exact Or.inr (Or.inr ⟨commas + 1, s, .more he hcomma hseparated, hr⟩)
    · rcases ih hes with ⟨rfl, hr⟩ | ⟨commas, hseparated⟩ | ⟨commas, s', hseparated, -⟩
      · exact Or.inr (Or.inl ⟨0, .last he (hback r hr)⟩)
      · exact absurd hend hseparated.not_takes
      · exact absurd hend hseparated.not_takes

/-- An expression is read, and then what comes behind it decides. -/
theorem argumentsBefore_of_primary {e : Node} (he : primary nesting p = .ok (some e) q) (fuel : Nat) :
    argumentsBefore (primary nesting) (fuel + 1) p =
      (do
        if !(← atMark ')') then skip ','
        return e :: (← argumentsBefore (primary nesting) fuel) : Parse (List Node)) q := by
  obtain ⟨t, p', hp, hbegins⟩ := begins_of_primary he
  have hmark : atMark ')' p = .ok false p' := by
    rw [atMark_of_peek hp, any_eq_false]
    rintro u ⟨⟩ hu
    rw [hu] at hbegins
    cases hbegins
  rw [argumentsBefore, bind_of_ok hmark, if_neg Bool.false_ne_true,
    bind_of_ok ((primary_of_peek hp).mpr he)]

theorem argumentsBefore_of_close (sub : Parse (Option Node)) (h : Takes ')' p r) (fuel : Nat) :
    ∃ q, argumentsBefore sub (fuel + 1) p = .ok [] q ∧ Takes ')' q r := by
  obtain ⟨q, hmark, hclose⟩ := h.atMark ')'
  refine ⟨q, ?_, hclose⟩
  rw [argumentsBefore, bind_of_ok hmark]
  rfl

theorem argumentsBefore_of_last {e : Node} (he : primary nesting p = .ok (some e) q) (h : Takes ')' q r)
    (fuel : Nat) :
    ∃ s, argumentsBefore (primary nesting) (fuel + 2) p = .ok [e] s ∧ Takes ')' s r := by
  obtain ⟨q', hmark, hclose⟩ := h.atMark ')'
  obtain ⟨s, hs, hclose'⟩ := argumentsBefore_of_close (primary nesting) hclose fuel
  refine ⟨s, ?_, hclose'⟩
  rw [argumentsBefore_of_primary he, bind_of_ok hmark]
  exact bind_of_ok hs

/-- An expression in front of a comma is followed by the other arguments. -/
theorem argumentsBefore_of_comma {e : Node} (he : primary nesting p = .ok (some e) q) (h : Takes ',' q r)
    (fuel : Nat) :
    argumentsBefore (primary nesting) (fuel + 1) p =
      ((e :: ·) <$> argumentsBefore (primary nesting) fuel) r := by
  obtain ⟨q', hmark, hcomma⟩ := h.atMark ')'
  rw [argumentsBefore_of_primary he, bind_of_ok hmark]
  exact bind_of_ok (skip_eq_ok_iff.mpr hcomma)

/-- Behind the comma after an expression, reading goes on as from the beginning. -/
theorem argumentsBefore_of_awaited {args : List Node} {commas : Nat}
    (h : Separated nesting (Takes ',') p args commas r) (fuel : Nat) :
    argumentsBefore (primary nesting) (commas + 1 + fuel) p =
      ((args ++ ·) <$> argumentsBefore (primary nesting) fuel) r := by
  induction h with
  | last he hcomma =>
    rw [Nat.add_comm (0 + 1)]
    exact argumentsBefore_of_comma he hcomma fuel
  | @more p q r s e es commas he hcomma _ ih =>
    calc argumentsBefore (primary nesting) (commas + 1 + 1 + fuel) p
      _ = argumentsBefore (primary nesting) (commas + 1 + fuel + 1) p := by
        rw [Nat.add_right_comm]
      _ = ((e :: ·) <$> argumentsBefore (primary nesting) (commas + 1 + fuel)) r :=
        argumentsBefore_of_comma he hcomma _
      _ = ((e :: ·) <$> (es ++ ·) <$> argumentsBefore (primary nesting) fuel) s := map_congr ih
      _ = ((e :: es ++ ·) <$> argumentsBefore (primary nesting) fuel) s := by
        rw [Functor.map_map]
        rfl

/-- Expressions with commas between them are read as arguments. -/
theorem argumentsBefore_of_separated {args : List Node} {commas : Nat}
    (h : Separated nesting (Takes ')') p args commas r) (fuel : Nat) :
    ∃ s, argumentsBefore (primary nesting) (commas + 2 + fuel) p = .ok args s ∧ Takes ')' s r := by
  induction h with
  | last he hclose =>
    rw [Nat.add_comm (0 + 2)]
    exact argumentsBefore_of_last he hclose fuel
  | @more p q r s e es commas he hcomma _ ih =>
    obtain ⟨u, hu, hclose⟩ := ih
    refine ⟨u, ?_, hclose⟩
    rw [Nat.add_right_comm commas 1 2, Nat.add_right_comm _ 1 fuel, argumentsBefore_of_comma he hcomma,
      map_of_ok hu]

/-- A list is read where its arguments are, between parentheses. -/
theorem arguments_eq_ok_iff {sub : Parse (Option Node)} {args : List Node} :
    arguments sub p = .ok args q ↔ ∃ p₁ p₂ r, Takes '(' p p₁ ∧
      argumentsBefore sub (p₁.size + 1) p₁ = .ok args p₂ ∧ Takes ')' p₂ r ∧
      q = r.withSemicolon true := by
  constructor
  · intro h
    obtain ⟨_, p₁, hopen, h⟩ := ok_of_bind h
    obtain ⟨as, p₂, hargs, h⟩ := ok_of_bind h
    obtain ⟨_, r, hclose, h⟩ := ok_of_bind h
    cases h
    exact ⟨p₁, p₂, r, skip_eq_ok_iff.mp hopen, hargs, skip_eq_ok_iff.mp hclose, rfl⟩
  · rintro ⟨p₁, p₂, r, hopen, hargs, hclose, rfl⟩
    rw [arguments, bind_of_ok (skip_eq_ok_iff.mpr hopen)]
    refine (bind_of_ok hargs).trans ?_
    rw [bind_of_ok (skip_eq_ok_iff.mpr hclose)]
    rfl

/-- A list is read where its arguments are, whether or not a comma is behind the last of them. -/
theorem arguments_primary_iff {args : List Node} :
    arguments (primary nesting) p = .ok args q ↔
      ∃ commas r, (Listed nesting p args commas r ∨ Trailing nesting p args commas r) ∧
        q = r.withSemicolon true := by
  rw [arguments_eq_ok_iff]
  constructor
  · rintro ⟨p₁, p₂, r, hopen, hargs, hclose, rfl⟩
    rcases separated_of_argumentsBefore hargs hclose with
      ⟨rfl, hr⟩ | ⟨commas, hseparated⟩ | ⟨commas, s, hseparated, hr⟩
    · exact ⟨0, r, Or.inl (.empty hopen hr), rfl⟩
    · exact ⟨commas, r, Or.inl (.separated ⟨p₁, hopen, hseparated⟩), rfl⟩
    · exact ⟨commas + 1, r, Or.inr (.intro ⟨p₁, hopen, hseparated⟩ hr), rfl⟩
  · rintro ⟨commas, r, (h | h), rfl⟩
    · cases h with
      | @empty p₁ _ hopen hclose =>
        obtain ⟨p₂, hp₂, hr⟩ := argumentsBefore_of_close (primary nesting) hclose p₁.size
        exact ⟨p₁, p₂, r, hopen, hp₂, hr, rfl⟩
      | separated h =>
        obtain ⟨p₁, hopen, hseparated⟩ := h
        have hsize := hseparated.size_le
        obtain ⟨fuel, hfuel⟩ : ∃ fuel, p₁.size + 1 = commas + 2 + fuel :=
          ⟨p₁.size - commas - 1, by omega⟩
        obtain ⟨p₂, hp₂, hr⟩ := argumentsBefore_of_separated hseparated fuel
        exact ⟨p₁, p₂, r, hopen, hfuel ▸ hp₂, hr, rfl⟩
    · cases h with
      | @intro commas s _ h hclose =>
        obtain ⟨p₁, hopen, hseparated⟩ := h
        have hsize := hseparated.size_le
        have hmark := hclose.size_lt
        obtain ⟨fuel, hfuel⟩ : ∃ fuel, p₁.size + 1 = commas + 1 + (fuel + 1) :=
          ⟨p₁.size - commas - 1, by omega⟩
        obtain ⟨p₂, hp₂, hr⟩ := argumentsBefore_of_close (primary nesting) hclose fuel
        refine ⟨p₁, p₂, r, hopen, ?_, hr, rfl⟩
        rw [hfuel, argumentsBefore_of_awaited hseparated, map_of_ok hp₂, List.append_nil]

/-- Where neither an expression nor the closing parenthesis stands, the arguments are refused. -/
theorem argumentsBefore_of_absent {t : Option Token} (hnesting : 0 < nesting) (hp : peek p = .ok t q)
    (ht : ∀ u ∈ t, u.lexeme.beginsExpression = false ∧ u.lexeme ≠ .punctuation ')') (fuel : Nat) :
    argumentsBefore (primary nesting) (fuel + 1) p =
      .error (.atPosition (absence t) q.place q.file) q := by
  obtain ⟨nesting, rfl⟩ := Nat.exists_eq_add_of_lt hnesting
  have hmark : atMark ')' p = .ok false q := by
    rw [atMark_of_peek hp, any_eq_false fun u hu => (ht u hu).2]
  have hq : peek q = .ok t q := peek_of_shows (shows_of_peek hp)
  rw [argumentsBefore, bind_of_ok hmark, if_neg Bool.false_ne_true]
  cases t with
  | none => exact bind_of_ok (primary_of_end hq)
  | some u => exact bind_of_error (primary_of_absent hq (ht u rfl).1)

/-- Where an argument is to come and nothing begins one, the list is refused. -/
theorem arguments_of_awaits {t : Option Token} {s : Parser} (hnesting : 0 < nesting)
    (h : Awaits nesting p q) (hq : peek q = .ok t s)
    (ht : ∀ u ∈ t, u.lexeme.beginsExpression = false ∧ u.lexeme ≠ .punctuation ')') :
    arguments (primary nesting) p = .error (.atPosition (absence t) s.place s.file) s := by
  have habsent := argumentsBefore_of_absent hnesting hq ht
  cases h with
  | first hopen =>
    rw [arguments, bind_of_ok (skip_eq_ok_iff.mpr hopen)]
    exact bind_of_error (habsent q.size)
  | @next args commas _ h =>
    obtain ⟨p₁, hopen, hseparated⟩ := h
    have hsize := hseparated.size_le
    obtain ⟨fuel, hfuel⟩ : ∃ fuel, p₁.size + 1 = commas + 1 + (fuel + 1) :=
      ⟨p₁.size - commas - 1, by omega⟩
    have hargs : bounded (argumentsBefore (primary nesting)) p₁ =
        .error (.atPosition (absence t) s.place s.file) s := by
      show argumentsBefore (primary nesting) (p₁.size + 1) p₁ = _
      rw [hfuel, argumentsBefore_of_awaited hseparated]
      exact map_of_error (habsent fuel)
    rw [arguments, bind_of_ok (skip_eq_ok_iff.mpr hopen)]
    exact bind_of_error hargs

theorem family_absence (t : Option Token) : (absence t).family = .grammatical := by
  cases t <;> rfl

end

/-- A list is read exactly where its arguments have a comma between each and the next, and perhaps one more
comma behind the last. So the commas tell how many arguments there are. Where an argument is to come and
nothing begins one, the list is refused, unless it ends there. -/
theorem arguments_are_separated (nesting : Nat) (p : Parser) :
    (∀ args q, arguments (primary nesting) p = .ok args q ↔
      ∃ commas r, (Listed nesting p args commas r ∨ Trailing nesting p args commas r) ∧
        q = r.withSemicolon true) ∧
    (∀ args commas r, Listed nesting p args commas r →
      args = [] ∧ commas = 0 ∨ args.length = commas + 1) ∧
    (∀ args commas r, Trailing nesting p args commas r → args.length = commas) ∧
    (0 < nesting → ∀ q t s, Awaits nesting p q → peek q = .ok t s →
      (∀ u ∈ t, u.lexeme.beginsExpression = false ∧ u.lexeme ≠ .punctuation ')') →
      (absence t).family = .grammatical ∧
        arguments (primary nesting) p = .error (.atPosition (absence t) s.place s.file) s) := by
  refine ⟨fun args q => arguments_primary_iff, ?_, ?_, ?_⟩
  · intro args commas r h
    cases h with
    | empty _ _ => exact Or.inl ⟨rfl, rfl⟩
    | separated h =>
      obtain ⟨q, -, hseparated⟩ := h
      exact Or.inr hseparated.length
  · intro args commas r h
    cases h with
    | intro h _ =>
      obtain ⟨q, -, hseparated⟩ := h
      exact hseparated.length
  · intro hnesting q t s hawaits hq ht
    exact ⟨family_absence t, arguments_of_awaits hnesting hawaits hq ht⟩

/-- Two commas with nothing between them. -/
theorem arguments_are_separated_of_missing :
    ∃ q, arguments (primary 1) (ofText "(1,,2)" "m.ct") =
      .error (.atPosition (.unexpected ",") ⟨1, 3⟩ "m.ct") q := by
  let behindComma : Parser := ⟨⟨⟨[',', '2', ')'], ⟨1, 3⟩, "m.ct"⟩, none⟩, true⟩
  have hawaits : Awaits 1 (ofText "(1,,2)" "m.ct") behindComma :=
    .next ⟨⟨⟨⟨['1', ',', ',', '2', ')'], ⟨1, 1⟩, "m.ct"⟩, none⟩, true⟩, ⟨⟨1, 0⟩, by cbv⟩,
      .last (by cbv) ⟨⟨1, 2⟩, by cbv⟩⟩
  have hpeek : peek behindComma = .ok (some ⟨.punctuation ',', ⟨1, 3⟩⟩)
      ⟨⟨⟨['2', ')'], ⟨1, 4⟩, "m.ct"⟩, some (some ⟨.punctuation ',', ⟨1, 3⟩⟩)⟩, true⟩ := by cbv
  obtain ⟨-, -, -, hmissing⟩ := arguments_are_separated 1 (ofText "(1,,2)" "m.ct")
  obtain ⟨-, hrefused⟩ := hmissing Nat.one_pos _ _ _ hawaits hpeek (by simp [Lexeme.beginsExpression])
  exact ⟨_, hrefused⟩

/-- A list may be read that has a comma in front of its closing parenthesis. -/
theorem not_separated_of_trailing_comma :
    ¬∀ (nesting : Nat) (p q : Parser) (args : List Node),
      arguments (primary nesting) p = .ok args q ↔
        ∃ commas r, Listed nesting p args commas r ∧ q = r.withSemicolon true := by
  intro hlisted
  have hlist : arguments (primary 1) (ofText "(1,)" "m.ct") =
      .ok [.literal 1 (.integer 1)] ⟨⟨⟨[], ⟨1, 4⟩, "m.ct"⟩, none⟩, true⟩ := by cbv
  let behindOpening : Parser := ⟨⟨⟨['1', ',', ')'], ⟨1, 1⟩, "m.ct"⟩, none⟩, true⟩
  let atComma : Parser := ⟨⟨⟨[')'], ⟨1, 3⟩, "m.ct"⟩, some (some ⟨.punctuation ',', ⟨1, 2⟩⟩)⟩, true⟩
  have hopen : Takes '(' (ofText "(1,)" "m.ct") behindOpening := ⟨⟨1, 0⟩, by cbv⟩
  have hone : primary 1 behindOpening = .ok (some (.literal 1 (.integer 1))) atComma := by cbv
  have hcomma : Takes ',' atComma atComma.taken := ⟨⟨1, 2⟩, by cbv⟩
  obtain ⟨commas, r, h, -⟩ := (hlisted 1 _ _ _).mp hlist
  cases h with
  | separated h =>
    obtain ⟨q, hq, hseparated⟩ := h
    obtain ⟨-, rfl⟩ := hq.unique hopen
    cases hseparated with
    | last he hclose =>
      cases hone.symm.trans he
      cases (hclose.unique hcomma).1
    | more _ _ hrest => cases hrest

end
end Parser
end ScriptLang
