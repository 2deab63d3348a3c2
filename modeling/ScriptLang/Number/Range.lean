/-!
Integers of the language: signed, of 32 bits. Division rounds towards zero.
-/
namespace ScriptLang.Range

def least : Int := -2147483648
def greatest : Int := 2147483647

def contains (n : Int) : Bool :=
  least ≤ n && n ≤ greatest

end ScriptLang.Range
