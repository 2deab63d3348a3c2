/-!
Tables: maps from names that keep the order in which names were first inserted.
-/
namespace ScriptLang

structure Table (α : Type) where
  entries : List (String × α) := []
deriving Repr, Inhabited

namespace Table
variable {α : Type}

def empty : Table α := ⟨[]⟩

def find? (t : Table α) (name : String) : Option α :=
  t.entries.lookup name

def contains (t : Table α) (name : String) : Bool :=
  (t.find? name).isSome

def names (t : Table α) : List String :=
  t.entries.map (·.1)

/-- Binds a name; one that is bound already keeps its place. -/
def insert (t : Table α) (name : String) (a : α) : Table α :=
  ⟨go t.entries⟩
where
  go : List (String × α) → List (String × α)
    | [] => [(name, a)]
    | (n, b) :: rest => if name == n then (name, a) :: rest else (n, b) :: go rest

/-- Binds the names in turn: of two bindings of one name the later one counts. -/
def ofList (bindings : List (String × α)) : Table α :=
  bindings.foldl (fun t b => t.insert b.1 b.2) empty

def update (t : Table α) (name : String) (a : α) : Table α :=
  if t.contains name then t.insert name a else t

@[simp] theorem find?_empty (name : String) : (empty : Table α).find? name = none := rfl

@[simp] theorem find?_insert (t : Table α) (name other : String) (a : α) :
    (t.insert name a).find? other = if other = name then some a else t.find? other := by
  obtain ⟨es⟩ := t
  show (insert.go name a es).lookup other = if other = name then some a else es.lookup other
  induction es with
  | nil =>
    by_cases h : other = name
    · simp [insert.go, h]
    · have hb : (other == name) = false := by simpa using h
      simp [insert.go, List.lookup_cons, h, hb]
  | cons e es ih =>
    obtain ⟨n, b⟩ := e
    by_cases hn : name = n
    · subst hn
      by_cases h : other = name
      · simp [insert.go, h]
      · have hb : (other == name) = false := by simpa using h
        simp [insert.go, List.lookup_cons, h, hb]
    · by_cases ho : other = n
      · subst ho
        simp [insert.go, hn, Ne.symm hn]
      · have hb : (other == n) = false := by simpa using ho
        simp only [insert.go, List.lookup_cons, hb, beq_iff_eq, hn, if_false, ih]

@[simp] theorem contains_insert (t : Table α) (name other : String) (a : α) :
    (t.insert name a).contains other = (decide (other = name) || t.contains other) := by
  by_cases h : other = name <;> simp [contains, h]

end Table
end ScriptLang
