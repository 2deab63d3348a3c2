import ScriptLang.Proofs.Evaluator.Guarded
import ScriptLang.Proofs.Evaluator.Operations
import ScriptLang.Proofs.Evaluator.Replays

/-! Where what goes wrong in an evaluation began. A fault that only the remainder of an infinite number has
comes from an evaluation that takes one. An integer beyond all floats is the length of a text, so where
another answer to the length of such a text makes a difference, one was measured. Both evaluations are
entered on the way. -/
namespace ScriptLang

namespace Eval
variable {host : Host} {nesting : Nat} {node : Node} {s t u : State}

def operands (host : Host) (sub : Node → Eval Outcome) (left right : Node) : Eval (Value × Value) := do
  let l ← expression host sub left
  let r ← expression host sub right
  return (l, r)

end Eval

namespace Regime
open Eval
variable {host : Host} {R : Regime host} {l : Permit}

end Regime

namespace Eval
variable {host : Host} {nesting : Nat} {node : Node} {s t u : State}

open Classical in
/-- The rule, but for evaluations that fail with one fault: they fail with another. -/
noncomputable def sparing (fault : Fault) (sub : Node → Eval Outcome) : Node → Eval Outcome := fun node s =>
  if ∃ t, sub node s = .error fault t then .error .nesting s else sub node s

section Natives
variable (host : Host) (natives : Table Native) (sub : Node → Eval Outcome)

end Natives

end Eval

namespace Eval
variable {host : Host} {nesting : Nat} {node : Node} {s t u : State}

end Eval
end ScriptLang
