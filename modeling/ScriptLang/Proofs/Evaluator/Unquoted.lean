import ScriptLang.Proofs.Evaluator.Frames

/-! Values that are no quoted syntax. Programs make functions out of their own nodes and quote nothing, so a
piece of syntax that is no function comes up only where the host hands it in. -/
namespace ScriptLang

def Value.Unquoted (v : Value) : Prop :=
  ∀ q, v ≠ .quoted q

theorem Value.Plain.unquoted {v : Value} (h : v.Plain) : v.Unquoted := by
  rintro q rfl
  exact h

theorem Value.unquoted_ofLiteral (literal : Literal) : (Value.ofLiteral literal).Unquoted := by
  intro q h
  cases literal <;> cases h

structure Host.Unquoted (host : Host) : Prop where
  natives : ∀ {name native args w v w'}, host.natives.find? name = some native →
    native args w = .ok v w' → v.Unquoted
  members : ∀ {type prototype}, host.structs.find? type = some prototype →
    prototype.members.Binds Value.Unquoted

/-- The standard host quotes nothing. -/
theorem Host.unquoted_of_standard {host : Host} (hn : host.natives = Native.standard)
    (hs : host.structs = Prototype.standard) : host.Unquoted where
  natives {name native args w v w'} hf h := by
    rw [hn] at hf
    rcases Native.plain_or_integer_of_standard hf h with hplain | ⟨n, rfl⟩
    · exact hplain.unquoted
    · intro q hq
      cases hq
  members {type prototype} h attr v hv q := by
    rw [hs] at h
    have hm : prototype.member attr = v := by simp [Prototype.member, hv]
    rintro rfl
    rcases Prototype.member_of_standard attr h with hnothing | hlength
    · cases hm.symm.trans hnothing
    · cases hm.symm.trans hlength

def Regime.unquoted {host : Host} (R : Regime host) (hhost : host.Unquoted) : Regime host where
  node := R.node
  value v := R.value v ∧ v.Unquoted
  node_of_mem_parts := R.node_of_mem_parts
  value_nothing := ⟨R.value_nothing, Value.Plain.unquoted trivial⟩
  value_literal h := ⟨R.value_literal h, Value.unquoted_ofLiteral _⟩
  value_function h := ⟨R.value_function h, fun _ => Value.noConfusion⟩
  node_function h := R.node_function h.1
  node_quoted h := absurd rfl (h.2 _)
  value_apply hl hr h := ⟨R.value_apply hl.1 hr.1 h, (Operation.plain_of_apply h).unquoted⟩
  value_native hf hargs h :=
    ⟨R.value_native hf (fun arg hmem => (hargs arg hmem).1) h, hhost.natives hf h⟩
  value_member {type prototype} attr h := by
    refine ⟨R.value_member attr h, ?_⟩
    cases hm : prototype.members.find? attr with
    | none =>
      simp only [Prototype.member, hm]
      exact Value.Plain.unquoted trivial
    | some v =>
      simp only [Prototype.member, hm]
      exact hhost.members h attr v hm

/-- A state whose bindings hold no quoted nodes meets the regime that excludes them. -/
theorem Regime.holds_all_unquoted {host : Host} (hhost : host.Unquoted) {s : State}
    (hs : s.scopes.Binds Value.Unquoted) : ((Regime.all host).unquoted hhost).Holds s := by
  intro scope hscope name v hv
  exact ⟨fun _ _ => trivial, hs scope hscope name v hv⟩

end ScriptLang
