import ScriptLang.Table
import ScriptLang.Value

/-!
Structs. The members of the values of one type are those of the prototype registered under the
type's name.
-/
namespace ScriptLang

structure Prototype where
  members : Table Value
  maker : Function := .empty "constructor" "this"

namespace Prototype

def member (p : Prototype) (name : String) : Value :=
  (p.members.find? name).getD .nothing

/-- The length of a text:
```
let len(s) {
    return len(s);
}
```
It starts on the second line of its source. -/
def textLength : Function :=
  ⟨2, ⟨2, "len", ["s"], "any"⟩, [.returning 3 (some (.call 3 "len" [.reference 3 "s"]))]⟩

def text : Prototype :=
  ⟨.ofList [("len", .function textLength)], .empty "constructor" "this"⟩

def standard : Table Prototype :=
  .ofList [("String", text)]

end Prototype
end ScriptLang
