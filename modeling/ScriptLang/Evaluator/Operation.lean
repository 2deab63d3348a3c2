import ScriptLang.Fault
import ScriptLang.Number.Range
import ScriptLang.Operator
import ScriptLang.Value

/-!
Binary operations on values. Integers compute exactly or overflow; an integer and a float compute as
floats; truth values have equality and logic, texts have comparisons and `+`; nothing else has an
operator.
-/
namespace ScriptLang

namespace Operation

def ranged (site : Site) (a : Arithmetic) (left right result : Int) : Except Fault Value :=
  if Range.contains result then .ok (.integer result)
  else .error (.atSite (.overflow (Operator.arithmetic a).spelling left right) site)

/-- Integer arithmetic; quotients go towards zero, remainders have the sign of the dividend. -/
def computeInt (site : Site) (a : Arithmetic) (left right : Int) : Except Fault Value :=
  match a with
  | .add => ranged site a left right (left + right)
  | .sub => ranged site a left right (left - right)
  | .mul => ranged site a left right (left * right)
  | .div =>
    if right = 0 then .error (.atSite .divisionByZero site)
    else ranged site a left right (left.tdiv right)
  | .mod =>
    if right = 0 then .error (.atSite .moduloByZero site)
    else ranged site a left right (left.tmod right)

/-- Floating-point arithmetic; both zeros are refused as divisors. -/
def computeFloat (site : Site) (a : Arithmetic) (left right : Binary64) : Except Fault Value :=
  match a with
  | .add => .ok (.float (left.add right))
  | .sub => .ok (.float (left.sub right))
  | .mul => .ok (.float (left.mul right))
  | .div =>
    if right.isZero then .error (.atSite .divisionByZero site) else .ok (.float (left.div right))
  | .mod =>
    if right.isZero then .error (.atSite .moduloByZero site)
    else match left.rem? right with
      | some r => .ok (.float r)
      | none => .error .remainderDomain

/-- The number that a value is, as a float; an integer may be beyond all floats. -/
def toFloat (n : Int) : Except Fault Binary64 :=
  match Binary64.ofInt? n with
  | some x => .ok x
  | none => .error .beyondFloats

def onInts (site : Site) (op : Operator) (l r : Int) : Option (Except Fault Value) :=
  match op with
  | .comparison c => some (.ok (.boolean (c.holds (some (compare l r)))))
  | .arithmetic a => some (computeInt site a l r)
  | _ => none

def onFloats (site : Site) (op : Operator) (l r : Binary64) : Option (Except Fault Value) :=
  match op with
  | .comparison c => some (.ok (.boolean (c.holds (l.compare? r))))
  | .arithmetic a => some (computeFloat site a l r)
  | _ => none

def onBooleans (op : Operator) (l r : Bool) : Option Value :=
  match op with
  | .comparison .eq => some (.boolean (l == r))
  | .comparison .ne => some (.boolean (l != r))
  | .and => some (.boolean (l && r))
  | .or => some (.boolean (l || r))
  | _ => none

def onTexts (op : Operator) (l r : String) : Option Value :=
  match op with
  | .comparison c => some (.boolean (c.holds (some (compare l r))))
  | .arithmetic .add => some (.text (l ++ r))
  | _ => none

def meaning (site : Site) (op : Operator) : Value → Value → Option (Except Fault Value)
  | .integer l, .integer r => onInts site op l r
  | .float l, .float r => onFloats site op l r
  | .boolean l, .boolean r => (onBooleans op l r).map .ok
  | .text l, .text r => (onTexts op l r).map .ok
  | _, _ => none

def unify : Value → Value → Except Fault (Value × Value)
  | .integer l, .float r => do return (.float (← toFloat l), .float r)
  | .float l, .integer r => do return (.float l, .float (← toFloat r))
  | l, r => .ok (l, r)

def isNothing : Value → Bool
  | .nothing => true
  | _ => false

def apply (site : Site) (spelling : String) (left right : Value) : Except Fault Value :=
  if isNothing left || isNothing right then
    .error (.atSite (.incomplete (left.display ++ " " ++ spelling ++ " " ++ right.display)) site)
  else do
    let (l, r) ← unify left right
    match (Operator.ofSpelling? spelling).bind fun op => meaning site op l r with
    | some result => result
    | none => .error (.atSite (.unknownOperator spelling left.display right.display) site)

end Operation
end ScriptLang
