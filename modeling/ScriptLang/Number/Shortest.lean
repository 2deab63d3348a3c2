import ScriptLang.Number.Binary64

/-!
Shortest decimals. Of the decimals that round to a given number the one with the fewest digits is
taken, of those the nearest, and of two equally near the one with the even last digit.
-/
namespace ScriptLang.Binary64

structure Decimal where
  digits : Nat
  exponent : Int
deriving DecidableEq, Repr, Inhabited

def digitCount (n : Nat) : Nat :=
  (Nat.repr n).length

/-- The greatest `k` with `10 ^ k ≤ m * 2 ^ q`, for a positive `m`. -/
def decimalLog (m : Nat) (q : Int) : Int :=
  if 0 ≤ q then (digitCount (m <<< q.toNat) : Int) - 1
  else (digitCount (m * Nat.pow 5 (-q).toNat) : Int) - 1 + q

/-- Factors `(a, b)` such that `d * 10 ^ p ≤ x * 2 ^ q` exactly when `d * a ≤ x * b`. -/
def factors (p q : Int) : Nat × Nat :=
  (Nat.pow 10 p.toNat <<< (-q).toNat, Nat.pow 10 (-p).toNat <<< q.toNat)

/-- The best multiple of `10 ^ p` that rounds to `m * 2 ^ q`, if there is one. The numbers that
round to it lie between `(4m - 2) * 2 ^ (q - 2)`, or `4m - 1` at the least mantissa, and
`(4m + 2) * 2 ^ (q - 2)`; the ends belong to them when `m` is even. -/
def onGrid? (m : Nat) (q p : Int) : Option Nat :=
  let (a, b) := factors p (q - 2)
  let low := (4 * m - if m = 1 <<< 52 ∧ q ≠ leastExponent then 1 else 2) * b
  let high := (4 * m + 2) * b
  let value := 4 * m * b
  let inside := fun d : Nat =>
    if m % 2 = 0 then low ≤ d * a && d * a ≤ high else low < d * a && d * a < high
  let d := value / a
  match inside d, inside (d + 1) with
  | false, false => none
  | true, false => some d
  | false, true => some (d + 1)
  | true, true =>
    let below := value - d * a
    let above := (d + 1) * a - value
    some (if below < above then d else if above < below then d + 1 else d + d % 2)

def Decimal.reduce : Nat → Decimal → Decimal
  | 0, x => x
  | fuel + 1, x =>
    if x.digits % 10 = 0 ∧ x.digits ≠ 0 then reduce fuel ⟨x.digits / 10, x.exponent + 1⟩ else x

/-- Tries ever finer grids, the last of which has seventeen digits. -/
def searchGrids (m : Nat) (q : Int) : Nat → Int → Decimal
  | 0, p => ⟨(onGrid? m q p).getD 0, p⟩
  | fuel + 1, p =>
    match onGrid? m q p with
    | some d => ⟨d, p⟩
    | none => searchGrids m q fuel (p - 1)

def shortest (m : Nat) (q : Int) : Decimal :=
  if m = 0 then ⟨0, 0⟩ else (searchGrids m q 16 (decimalLog m q)).reduce 17

end ScriptLang.Binary64
