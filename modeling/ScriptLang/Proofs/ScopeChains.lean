import Mathlib.Data.List.Forall2
import ScriptLang.Scopes

/-! How a chain of scopes develops while a program runs. A chain is kept by a run that gives back
every scope it was given; only the innermost one may have gained names. A chain stands on another
one when further scopes were pushed onto a chain that was kept. What all values that a chain binds have
in common stays so when further ones of the kind are bound, and what the scopes bind a name to stays so
when other names are bound. -/
namespace ScriptLang

def Table.SameNames {α : Type} (a b : Table α) : Prop :=
  ∀ name, a.contains name = b.contains name

namespace Scopes
variable {α : Type}

/-- The chain `d` is what became of the chain `c`: it has the same scopes, all but the innermost with
the same names, and the innermost with no name less. -/
structure Kept (c d : Scopes α) : Prop where
  innermost : ∀ name, c.innermost.contains name = true → d.innermost.contains name = true
  around : List.Forall₂ Table.SameNames c.around d.around

def inward (c : Scopes α) : List (Table α) :=
  c.innermost :: c.around

/-- A chain binds the names that one of its scopes binds. -/
theorem contains_iff {c : Scopes α} {name : String} :
    c.contains name = true ↔ ∃ scope ∈ c.inward, scope.contains name = true := by
  simp only [Scopes.contains, Scopes.find?, List.isSome_findSome?, List.any_eq_true, inward,
    Table.contains]

/-- Below a scope that was pushed there is the chain without it. -/
theorem inward_of_size {c : Scopes α} (h : 1 < c.size) :
    c.inward = c.innermost :: c.dropInnermost.inward := by
  obtain ⟨innermost, around⟩ := c
  cases around with
  | nil => simp [size] at h
  | cons scope scopes => rfl

/-- What is defined in the innermost scope goes with it. -/
theorem dropInnermost_define {c : Scopes α} (h : 1 < c.size) (name : String) (a : α) :
    (c.define name a).dropInnermost = c.dropInnermost := by
  obtain ⟨innermost, around⟩ := c
  cases around with
  | nil => simp [size] at h
  | cons scope scopes => rfl

/-- Below some scopes of `d`, or none, there is what became of the chain `c`. -/
def StandsOn (d c : Scopes α) : Prop :=
  ∃ count base, d.inward.drop count = base.inward ∧ c.Kept base

theorem sameNames_refl (tables : List (Table α)) : List.Forall₂ Table.SameNames tables tables :=
  List.forall₂_same.mpr fun _ _ _ => rfl

theorem sameNames_trans {as bs cs : List (Table α)} (hab : List.Forall₂ Table.SameNames as bs)
    (hbc : List.Forall₂ Table.SameNames bs cs) : List.Forall₂ Table.SameNames as cs := by
  induction hab generalizing cs with
  | nil => exact hbc
  | cons h _ ih =>
    rcases hbc with _ | ⟨h', hbc⟩
    exact .cons (fun name => (h name).trans (h' name)) (ih hbc)

theorem Kept.refl (c : Scopes α) : c.Kept c :=
  ⟨fun _ h => h, sameNames_refl c.around⟩

theorem Kept.trans {c d e : Scopes α} (hcd : c.Kept d) (hde : d.Kept e) : c.Kept e :=
  ⟨fun name h => hde.innermost name (hcd.innermost name h), sameNames_trans hcd.around hde.around⟩

theorem Kept.size {c d : Scopes α} (h : c.Kept d) : d.size = c.size := by
  have hl := h.around.length_eq
  simp only [Scopes.size, hl]

/-- A definition is made in the innermost scope, so the chain keeps its size and the names of the others. -/
theorem kept_define (c : Scopes α) (name : String) (a : α) : c.Kept (c.define name a) := by
  refine ⟨fun other h => ?_, sameNames_refl c.around⟩
  simp [define, h]

/-- Overwriting a bound name leaves the names of a scope alone. -/
theorem sameNames_insert (t : Table α) (name : String) (a : α) (h : t.contains name = true) :
    t.SameNames (t.insert name a) := by
  intro other
  by_cases hn : other = name
  · simp [hn, h]
  · simp [hn]

theorem sameNames_assignIn (name : String) (a : α) (scopes : List (Table α)) :
    List.Forall₂ Table.SameNames scopes (assignIn name a scopes) := by
  induction scopes with
  | nil => exact .nil
  | cons scope scopes ih =>
    unfold assignIn
    split
    · next h => exact .cons (sameNames_insert scope name a h) (sameNames_refl scopes)
    · exact .cons (fun _ => rfl) ih

/-- An assignment keeps the chain as it is but for values. -/
theorem kept_assign (c : Scopes α) (name : String) (a : α) : c.Kept (c.assign name a) := by
  unfold assign
  split
  · next h =>
    refine ⟨fun other ho => ?_, sameNames_refl c.around⟩
    rw [← sameNames_insert c.innermost name a h other]
    exact ho
  · exact ⟨fun _ h => h, sameNames_assignIn name a c.around⟩

/-- A scope that was pushed is taken off again, and the chain below it was kept. -/
theorem Kept.dropInnermost {c d : Scopes α} {scope : Table α} (h : (c.push scope).Kept d) :
    c.Kept d.dropInnermost := by
  obtain ⟨-, ha⟩ := h
  obtain ⟨inner, around⟩ := d
  rcases ha with _ | ⟨hs, ha⟩
  exact ⟨fun name hn => (hs name).symm.trans hn, ha⟩

theorem StandsOn.refl (c : Scopes α) : c.StandsOn c :=
  ⟨0, c, rfl, Kept.refl c⟩

theorem StandsOn.push {c d : Scopes α} (h : d.StandsOn c) (scope : Table α) :
    (d.push scope).StandsOn c := by
  obtain ⟨count, base, hd, hb⟩ := h
  exact ⟨count + 1, base, hd, hb⟩

/-- Keeping a chain keeps each chain that it stands on. -/
theorem Kept.drop {c d : Scopes α} (h : c.Kept d) {count : Nat} {base : Scopes α}
    (hb : c.inward.drop count = base.inward) :
    ∃ base', d.inward.drop count = base'.inward ∧ base.Kept base' := by
  cases count with
  | zero =>
    obtain ⟨inner, around⟩ := base
    simp only [List.drop_zero, inward, List.cons.injEq] at hb
    obtain ⟨rfl, rfl⟩ := hb
    exact ⟨d, rfl, h⟩
  | succ count =>
    have hf := List.forall₂_drop count h.around
    have hc : c.around.drop count = base.innermost :: base.around := hb
    rw [hc] at hf
    generalize hd : d.around.drop count = rest at hf
    rcases hf with _ | ⟨hs, ha⟩
    exact ⟨⟨_, _⟩, hd, fun name hn => (hs name).symm.trans hn, ha⟩

/-- What stands on a chain goes on to do so under definitions and assignments. -/
theorem StandsOn.kept {c d e : Scopes α} (h : d.StandsOn c) (hk : d.Kept e) : e.StandsOn c := by
  obtain ⟨count, base, hd, hb⟩ := h
  obtain ⟨base', he, hb'⟩ := hk.drop hd
  exact ⟨count, base', he, hb.trans hb'⟩

theorem StandsOn.trans {c d e : Scopes α} (hed : e.StandsOn d) (hdc : d.StandsOn c) :
    e.StandsOn c := by
  obtain ⟨count, base, he, hb⟩ := hed
  obtain ⟨count', base', hb', hc⟩ := hdc.kept hb
  refine ⟨count + count', base', ?_, hc⟩
  rw [← List.drop_drop, he, hb']

/-- No scope that a chain stands on was taken off. -/
theorem StandsOn.size_le {c d : Scopes α} (h : d.StandsOn c) : c.size ≤ d.size := by
  obtain ⟨count, base, hd, hb⟩ := h
  have hl := congrArg List.length hd
  have hs := hb.size
  simp only [inward, List.length_drop, List.length_cons, Scopes.size] at hl hs ⊢
  omega

end Scopes

def Table.Binds {α : Type} (P : α → Prop) (t : Table α) : Prop :=
  ∀ name a, t.find? name = some a → P a

namespace Table
variable {α : Type} {P : α → Prop}

theorem binds_empty : (empty : Table α).Binds P := by
  intro name a h
  cases h

theorem Binds.insert {t : Table α} (h : t.Binds P) (name : String) {a : α} (ha : P a) :
    (t.insert name a).Binds P := by
  intro other b hb
  rw [find?_insert] at hb
  split at hb
  · cases hb
    exact ha
  · exact h other b hb

/-- What a table of bindings binds is one of them. -/
theorem mem_of_find?_ofList {bindings : List (String × α)} {name : String} {a : α}
    (h : (ofList bindings).find? name = some a) : (name, a) ∈ bindings := by
  -- Names are bound one after another, so the induction is over what was bound before.
  have hfold (t : Table α) (hf : (bindings.foldl (fun t b => t.insert b.1 b.2) t).find? name = some a) :
      t.find? name = some a ∨ (name, a) ∈ bindings := by
    clear h
    induction bindings generalizing t with
    | nil => exact Or.inl hf
    | cons b bindings ih =>
      rcases ih _ hf with ht | hmem
      · rw [find?_insert] at ht
        split at ht
        · next hn =>
          cases ht
          rw [hn]
          exact Or.inr List.mem_cons_self
        · exact Or.inl ht
      · exact Or.inr (List.mem_cons_of_mem _ hmem)
  rcases hfold empty h with he | hmem
  · cases he
  · exact hmem

theorem binds_ofList {bindings : List (String × α)} (h : ∀ b ∈ bindings, P b.2) :
    (ofList bindings).Binds P :=
  fun _ _ hf => h _ (mem_of_find?_ofList hf)

end Table

def Scopes.Binds {α : Type} (P : α → Prop) (c : Scopes α) : Prop :=
  ∀ scope ∈ c.inward, scope.Binds P

namespace Scopes
variable {α : Type} {P : α → Prop} {c : Scopes α}

theorem binds_of_tables {innermost : Table α} {around : List (Table α)} (h : innermost.Binds P)
    (ha : ∀ scope ∈ around, scope.Binds P) : Scopes.Binds P ⟨innermost, around⟩ :=
  List.forall_mem_cons.mpr ⟨h, ha⟩

theorem Binds.innermost (h : c.Binds P) : c.innermost.Binds P :=
  h c.innermost List.mem_cons_self

theorem Binds.around (h : c.Binds P) : ∀ scope ∈ c.around, scope.Binds P :=
  fun scope hs => h scope (List.mem_cons_of_mem _ hs)

theorem Binds.push (h : c.Binds P) {scope : Table α} (hs : scope.Binds P) :
    (c.push scope).Binds P :=
  binds_of_tables hs h

theorem Binds.dropInnermost (h : c.Binds P) : c.dropInnermost.Binds P := by
  obtain ⟨innermost, around⟩ := c
  cases around with
  | nil => exact h
  | cons scope scopes => exact h.around

/-- A definition of an allowed value leaves allowed values only. -/
theorem Binds.define (h : c.Binds P) (name : String) {a : α} (ha : P a) :
    (c.define name a).Binds P :=
  binds_of_tables (h.innermost.insert name ha) h.around

theorem Binds.assign (h : c.Binds P) (name : String) {a : α} (ha : P a) :
    (c.assign name a).Binds P := by
  have hin (scopes : List (Table α)) (hs : ∀ scope ∈ scopes, scope.Binds P) :
      ∀ scope ∈ assignIn name a scopes, scope.Binds P := by
    induction scopes with
    | nil => exact hs
    | cons scope scopes ih =>
      obtain ⟨hscope, hrest⟩ := List.forall_mem_cons.mp hs
      unfold assignIn
      split
      · exact List.forall_mem_cons.mpr ⟨hscope.insert name ha, hrest⟩
      · exact List.forall_mem_cons.mpr ⟨hscope, ih hrest⟩
  unfold Scopes.assign
  split
  · exact binds_of_tables (h.innermost.insert name ha) h.around
  · exact binds_of_tables h.innermost (hin c.around h.around)

theorem Binds.find? (h : c.Binds P) {name : String} {a : α} (hf : c.find? name = some a) : P a := by
  obtain ⟨scope, hs, ha⟩ := List.exists_of_findSome?_eq_some hf
  exact h scope hs name a ha

def bindings (c : Scopes α) (name : String) : List (Option α) :=
  c.inward.map (·.find? name)

/-- A definition leaves every other name alone, in every scope. -/
theorem bindings_define (c : Scopes α) {name other : String} (h : other ≠ name) (a : α) :
    (c.define name a).bindings other = c.bindings other := by
  simp [bindings, inward, define, h]

theorem map_find?_assignIn {name other : String} (h : other ≠ name) (a : α)
    (scopes : List (Table α)) :
    (assignIn name a scopes).map (·.find? other) = scopes.map (·.find? other) := by
  induction scopes with
  | nil => rfl
  | cons scope scopes ih =>
    unfold assignIn
    split
    · simp [h]
    · simp [ih]

theorem bindings_assign (c : Scopes α) {name other : String} (h : other ≠ name) (a : α) :
    (c.assign name a).bindings other = c.bindings other := by
  unfold assign
  split
  · simp [bindings, inward, h]
  · simp [bindings, inward, map_find?_assignIn h]

/-- Below a scope that was pushed, a name is bound as it is in the scopes that are left. -/
theorem bindings_dropInnermost {c d : Scopes α} {scope : Table α} {name : String}
    (h : d.bindings name = (c.push scope).bindings name) :
    d.dropInnermost.bindings name = c.bindings name := by
  obtain ⟨inner, around⟩ := d
  have ht : around.map (·.find? name) = c.bindings name := List.tail_eq_of_cons_eq h
  cases around with
  | nil => cases ht
  | cons scope' scopes => exact ht

/-- The names of the innermost scope are left alone by an assignment. -/
theorem contains_innermost_assign (c : Scopes α) (name other : String) (a : α) :
    (c.assign name a).innermost.contains other = c.innermost.contains other := by
  unfold assign
  split
  · next hc => exact (sameNames_insert c.innermost name a hc other).symm
  · rfl

theorem Kept.sameNames_dropInnermost {d : Scopes α} {scope : Table α} (h : (c.push scope).Kept d) :
    c.innermost.SameNames d.dropInnermost.innermost := by
  obtain ⟨-, ha⟩ := h
  obtain ⟨inner, around⟩ := d
  rcases ha with _ | ⟨hs, -⟩
  exact hs

end Scopes
end ScriptLang
