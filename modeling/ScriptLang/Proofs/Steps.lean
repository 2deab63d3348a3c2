import ScriptLang.Fault

/-! Steps on a state, which may fail. What steps one after another come to is told by what the first of them
comes to: a fault of theirs ends everything, and a result hands the state on to the next. Reading, evaluating
and acting on the world are all steps in this sense. -/
namespace ScriptLang
variable {σ α β : Type} {m m' : EStateM Fault σ α} {s t : σ}

section Bind
variable {f : α → EStateM Fault σ β}

/-- Behind a step that gives a result, the next one goes on from there. -/
theorem bind_of_ok {a : α} (h : m s = .ok a t) : (m >>= f) s = f a t := by
  show EStateM.bind m f s = f a t
  simp only [EStateM.bind, h]

/-- A step that fails is the last one. -/
theorem bind_of_error {e : Fault} (h : m s = .error e t) : (m >>= f) s = .error e t := by
  show EStateM.bind m f s = .error e t
  simp only [EStateM.bind, h]

/-- What comes after a step hangs on the outcome of that step only. -/
theorem bind_congr_left (h : m s = m' t) : (m >>= f) s = (m' >>= f) t := by
  show EStateM.bind m f s = EStateM.bind m' f t
  simp only [EStateM.bind, h]

/-- Steps come to a result only behind first steps that do. -/
theorem ok_of_bind {b : β} (h : (m >>= f) s = .ok b t) : ∃ a u, m s = .ok a u ∧ f a u = .ok b t := by
  cases hm : m s with
  | ok a u => exact ⟨a, u, rfl, (bind_of_ok hm).symm.trans h⟩
  | error e u =>
    rw [bind_of_error hm] at h
    cases h

end Bind

section Map
variable {g : α → β}

theorem map_of_ok {a : α} (h : m s = .ok a t) : (g <$> m) s = .ok (g a) t := by
  rw [← bind_pure_comp]
  exact bind_of_ok h

theorem map_of_error {e : Fault} (h : m s = .error e t) : (g <$> m) s = .error e t := by
  rw [← bind_pure_comp]
  exact bind_of_error h

/-- A result is changed where the steps end, wherever they began. -/
theorem map_congr (h : m s = m' t) : (g <$> m) s = (g <$> m') t := by
  rw [← bind_pure_comp, ← bind_pure_comp]
  exact bind_congr_left h

end Map
end ScriptLang
