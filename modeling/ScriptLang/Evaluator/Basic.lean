import ScriptLang.Limits
import ScriptLang.Native
import ScriptLang.Prototype
import ScriptLang.Scopes

/-!
The state of evaluation and its outcomes. Scopes and call depth are raised by `inScope` and
`oneDeeper` only, which restore them however the steps inside end.
-/
namespace ScriptLang

/-- How evaluating a node ends: with a value, or with a signal to the forms around it. -/
inductive Outcome
  | normal (value : Value)
  | breaking
  | continuing
  | returning (value : Value)

namespace Outcome

def value : Outcome → Value
  | normal v | returning v => v
  | breaking | continuing => .nothing

def flow : Outcome → String
  | normal _ => "normal"
  | breaking => "break"
  | continuing => "continue"
  | returning _ => "return"

end Outcome

/-- What a program runs with: the name of its file, natives, structs, the limit of call depth and those
of the work as a whole. -/
structure Host where
  file : String
  natives : Table Native := Native.standard
  structs : Table Prototype := Prototype.standard
  depthLimit : Int := 64
  limits : Limits := .standard

def Host.site (host : Host) (line : Nat) : Site :=
  ⟨some line, host.file⟩

structure State where
  scopes : Scopes Value := {}
  depth : Nat := 0
  world : World := {}

abbrev Eval := EStateM Fault State

namespace Eval
variable {α : Type}

def refuseAt (site : Site) (cause : Cause) : Eval α :=
  throw (.atSite cause site)

def refuse (host : Host) (cause : Cause) (line : Nat) : Eval α :=
  refuseAt (host.site line) cause

def ofExcept (result : Except Fault α) : Eval α := fun s =>
  match result with
  | .ok a => .ok a s
  | .error fault => .error fault s

def ofWorld (step : EStateM Fault World α) : Eval α := fun s =>
  match step s.world with
  | .ok a world => .ok a { s with world := world }
  | .error fault world => .error fault { s with world := world }

def inScope (scope : Table Value) (steps : Eval α) : Eval α := fun s =>
  match steps { s with scopes := s.scopes.push scope } with
  | .ok a s => .ok a { s with scopes := s.scopes.dropInnermost }
  | .error fault s => .error fault { s with scopes := s.scopes.dropInnermost }

def oneDeeper (steps : Eval α) : Eval α := fun s =>
  match steps { s with depth := s.depth + 1 } with
  | .ok a s => .ok a { s with depth := s.depth - 1 }
  | .error fault s => .error fault { s with depth := s.depth - 1 }

def modifyScopes (f : Scopes Value → Scopes Value) : Eval Unit := fun s =>
  .ok () { s with scopes := f s.scopes }

def define (name : String) (value : Value) : Eval Value := do
  modifyScopes (·.define name value)
  return value

end Eval
end ScriptLang
