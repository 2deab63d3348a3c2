import ScriptLang.Proofs.Evaluator.Returns

/-! The length of a text. The member that gives it is a function of the language itself, which calls a name
that programs may bind and hands over what its parameter is bound to. Still nothing that a program binds comes
in between: a native is called before anything that has its name, the parameter hides what the caller binds,
and a number that is returned stays what it is. -/
namespace ScriptLang

namespace Prototype

/-- The function is what its source declares, in a file of any name. -/
theorem parse_textLength (nesting : Nat) (file : String) :
    Parser.parse (nesting + 4) "\nlet len(s) \x7b\n    return len(s);\n\x7d\n" file =
      .ok [textLength.toNode] := by cbv

end Prototype

namespace Eval
variable {host : Host} {sub : Node → Eval Outcome} {args : List Node} {s t : State} {name v : String}
  {value : Value} {values : List Value} {line nesting : Nat}

section
variable (hp : host.structs = Prototype.standard) (hv : s.scopes.find? name = some (.text v))
include hp hv

end

end Eval
end ScriptLang
