/-!
Binary floating point with 53-bit mantissas. A number is an exact dyadic rational, an infinity or
the one NaN; every operation computes exactly in the integers and ends in one call of `round`, which
takes the nearest number, a tie going to the even mantissa.
-/
namespace ScriptLang

/-- `finite s m q` stands for `m * 2 ^ q`, negated when `s` holds. Results of `round` have
`m < 2 ^ 53`, `-1074 ≤ q ≤ 971`, and `2 ^ 52 ≤ m` unless `q = -1074`. -/
inductive Binary64
  | nan
  | infinite (negative : Bool)
  | finite (negative : Bool) (mantissa : Nat) (exponent : Int)
deriving DecidableEq, Repr, Inhabited

namespace Binary64

def leastExponent : Int := -1074
def greatestExponent : Int := 971

/-- The quotient rounded to the nearest integer, a tie to the even one. -/
def roundDiv (num den : Nat) : Nat :=
  let q := num / den
  let r := num % den
  if 2 * r < den then q else if den < 2 * r then q + 1 else q + q % 2

def ratio (m : Nat) (q : Int) : Nat × Nat :=
  if 0 ≤ q then (m <<< q.toNat, 1) else (m, 1 <<< (-q).toNat)

/-- The greatest `k` with `2 ^ k ≤ num / den`, for positive `num` and `den`. -/
def floorLog (num den : Nat) : Int :=
  let k : Int := (num.log2 : Int) - den.log2
  let (p, q) := ratio 1 k
  if den * p ≤ num * q then k else k - 1

def round (negative : Bool) (num den : Nat) : Binary64 :=
  if num = 0 then finite negative 0 leastExponent
  else
    let e := max (floorLog num den - 52) leastExponent
    let (p, q) := ratio 1 e
    let m := roundDiv (num * q) (den * p)
    let (m, e) := if m = 1 <<< 53 then (1 <<< 52, e + 1) else (m, e)
    if greatestExponent < e then infinite negative else finite negative m e

def roundDyadic (negative : Bool) (m : Nat) (q : Int) : Binary64 :=
  let (num, den) := ratio m q
  round negative num den

def zero (negative : Bool) : Binary64 :=
  finite negative 0 leastExponent

def ofDecimal (negative : Bool) (digits : Nat) (exponent : Int) : Binary64 :=
  if 0 ≤ exponent then round negative (digits * Nat.pow 10 exponent.toNat) 1
  else round negative digits (Nat.pow 10 (-exponent).toNat)

def ofInt? (n : Int) : Option Binary64 :=
  match round (n < 0) n.natAbs 1 with
  | infinite _ => none
  | x => some x

def neg : Binary64 → Binary64
  | nan => nan
  | infinite s => infinite (!s)
  | finite s m q => finite (!s) m q

/-- `m * 2 ^ q`, negated when `s` holds, as a multiple of `2 ^ base`, for a `base` up to `q`. -/
def scaled (s : Bool) (m : Nat) (q base : Int) : Int :=
  let n : Int := ((m <<< (q - base).toNat : Nat) : Int)
  if s then -n else n

/-- The sum; opposite infinities have none, and a zero sum is negative only of two negatives. -/
def add : Binary64 → Binary64 → Binary64
  | nan, _ | _, nan => nan
  | infinite s, infinite t => if s = t then infinite s else nan
  | infinite s, finite .. => infinite s
  | finite .., infinite t => infinite t
  | finite s m q, finite t n r =>
    let base := min q r
    let sum := scaled s m q base + scaled t n r base
    if sum = 0 then zero (s && t) else roundDyadic (sum < 0) sum.natAbs base

def sub (x y : Binary64) : Binary64 :=
  add x (neg y)

def mul : Binary64 → Binary64 → Binary64
  | nan, _ | _, nan => nan
  | infinite s, infinite t => infinite (s != t)
  | infinite s, finite t n _ => if n = 0 then nan else infinite (s != t)
  | finite s m _, infinite t => if m = 0 then nan else infinite (s != t)
  | finite s m q, finite t n r => roundDyadic (s != t) (m * n) (q + r)

def div : Binary64 → Binary64 → Binary64
  | nan, _ | _, nan => nan
  | infinite _, infinite _ => nan
  | infinite s, finite t _ _ => infinite (s != t)
  | finite s _ _, infinite t => zero (s != t)
  | finite s m q, finite t n r =>
    if n = 0 then (if m = 0 then nan else infinite (s != t))
    else
      let (p, d) := ratio m (q - r)
      round (s != t) p (d * n)

/-- The remainder of the division towards zero, with the sign of the dividend. An infinite dividend
and a zero divisor have none, except that NaN goes through. -/
def rem? : Binary64 → Binary64 → Option Binary64
  | nan, _ | _, nan => some nan
  | infinite _, _ => none
  | x, infinite _ => some x
  | finite s m q, finite _ n r =>
    if n = 0 then none
    else
      let base := min q r
      some (roundDyadic s ((m <<< (q - base).toNat) % (n <<< (r - base).toNat)) base)

/-- How two numbers compare; NaN compares with nothing, and both zeros are equal. -/
def compare? : Binary64 → Binary64 → Option Ordering
  | nan, _ | _, nan => none
  | infinite s, infinite t => some (compare t.toNat s.toNat)
  | infinite s, finite .. => some (if s then .lt else .gt)
  | finite .., infinite t => some (if t then .gt else .lt)
  | finite s m q, finite t n r =>
    let base := min q r
    some (compare (scaled s m q base) (scaled t n r base))

def isZero : Binary64 → Bool
  | finite _ m _ => m = 0
  | _ => false

def toInt? : Binary64 → Option Int
  | finite s m q =>
    let (num, den) := ratio m q
    if num % den = 0 then some (if s then -((num / den : Nat) : Int) else ((num / den : Nat) : Int))
    else none
  | _ => none

end Binary64
end ScriptLang
