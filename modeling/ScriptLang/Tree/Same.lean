import ScriptLang.Tree.Basic

/-!
Equality of trees up to lines: two layouts of one program have the same trees.
-/
namespace ScriptLang

def Header.same (h k : Header) : Bool :=
  h.name == k.name && h.params == k.params && h.returnType == k.returnType

mutual

def Node.same : Node → Node → Bool
  | .literal _ v, .literal _ w => v == w
  | .binary _ o l r, .binary _ o' l' r' => o == o' && Node.sameOption l l' && Node.sameOption r r'
  | .reference _ x, .reference _ y => x == y
  | .declaration _ x, .declaration _ y => x == y
  | .call _ f as, .call _ g bs => f == g && Node.sameList as bs
  | .member _ s a, .member _ t b => s == t && a == b
  | .memberCall _ s a as, .memberCall _ t b bs => s == t && a == b && Node.sameList as bs
  | .function _ h b, .function _ k c => h.same k && Node.sameList b c
  | .conditional _ bs, .conditional _ cs => Node.sameBranches bs cs
  | .loop _ c b, .loop _ c' b' => c.same c' && Node.sameList b b'
  | .returning _ v, .returning _ w => Node.sameOption v w
  | .breaking _, .breaking _ => true
  | .continuing _, .continuing _ => true
  | .struct _ x, .struct _ y => x == y
  | _, _ => false

def Node.sameOption : Option Node → Option Node → Bool
  | none, none => true
  | some a, some b => a.same b
  | _, _ => false

def Node.sameList : List Node → List Node → Bool
  | [], [] => true
  | a :: as, b :: bs => a.same b && Node.sameList as bs
  | _, _ => false

def Branch.same : Branch → Branch → Bool
  | .mk _ c b, .mk _ c' b' => c.same c' && Node.sameList b b'

def Node.sameBranches : List Branch → List Branch → Bool
  | [], [] => true
  | b :: bs, c :: cs => b.same c && Node.sameBranches bs cs
  | _, _ => false

end
end ScriptLang
