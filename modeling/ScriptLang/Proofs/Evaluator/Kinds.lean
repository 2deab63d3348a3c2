import Mathlib.Algebra.Group.Nat.Defs
import ScriptLang.Proofs.Parser.WellFormed
import ScriptLang.Proofs.Runs

/-! The kinds of values that a running program has to do with. Integers are checked when a literal is
read and when arithmetic is done, so all of them have 32 bits. Functions are those that stand in the
program or in the prototype of texts, and no other piece of syntax becomes a value. -/
namespace ScriptLang

/-- A value that is no piece of syntax, and no integer beyond 32 bits. -/
def Value.Plain : Value → Prop
  | nothing | boolean _ | float _ | text _ | failure _ => True
  | integer n => Range.contains n = true
  | function _ | quoted _ => False

def Node.OccursIn (n : Node) (roots : List Node) : Prop :=
  ∃ root ∈ roots, n.Occurs root

inductive Value.Kinded (roots : List Node) : Value → Prop
  | plain {v : Value} : v.Plain → Kinded roots v
  | function {f : Function} : f.toNode.OccursIn roots → Kinded roots (.function f)

def State.Kinded (roots : List Node) (s : State) : Prop :=
  s.scopes.Binds (Value.Kinded roots)

theorem Node.OccursIn.of_mem_parts {n part : Node} {roots : List Node} (h : n.OccursIn roots)
    (hp : part ∈ n.parts) : part.OccursIn roots := by
  obtain ⟨root, hr, ho⟩ := h
  exact ⟨root, hr, (Node.occurs_of_mem_parts hp).trans ho⟩

namespace Operation
variable {site : Site} {left right v : Value}

theorem plain_of_computeInt {a : Arithmetic} {l r : Int} (h : computeInt site a l r = .ok v) :
    v.Plain := by
  have hranged {result : Int} (h : ranged site a l r result = .ok v) : v.Plain := by
    unfold ranged at h
    split at h
    · next hr =>
      cases h
      exact hr
    · cases h
  unfold computeInt at h
  split at h
  · exact hranged h
  · exact hranged h
  · exact hranged h
  · split at h
    · cases h
    · exact hranged h
  · split at h
    · cases h
    · exact hranged h

theorem plain_of_computeFloat {a : Arithmetic} {l r : Binary64} (h : computeFloat site a l r = .ok v) :
    v.Plain := by
  unfold computeFloat at h
  split at h
  · cases h
    trivial
  · cases h
    trivial
  · cases h
    trivial
  · split at h <;> cases h
    trivial
  · split at h
    · cases h
    · split at h <;> cases h
      trivial

theorem plain_of_meaning {op : Operator} (h : meaning site op left right = some (.ok v)) :
    v.Plain := by
  unfold meaning at h
  split at h
  · unfold onInts at h
    split at h
    · cases h
      trivial
    · exact plain_of_computeInt (Option.some.inj h)
    · cases h
  · unfold onFloats at h
    split at h
    · cases h
      trivial
    · exact plain_of_computeFloat (Option.some.inj h)
    · cases h
  · obtain ⟨b, hb, hv⟩ := Option.map_eq_some_iff.mp h
    cases hv
    unfold onBooleans at hb
    split at hb <;> cases hb <;> trivial
  · obtain ⟨s, hs, hv⟩ := Option.map_eq_some_iff.mp h
    cases hv
    unfold onTexts at hs
    split at hs <;> cases hs <;> trivial
  · cases h

/-- Operators give plain values, whatever their operands are. -/
theorem plain_of_apply {spelling : String} (h : apply site spelling left right = .ok v) :
    v.Plain := by
  unfold apply at h
  split at h
  · cases h
  · cases hu : unify left right with
    | error fault =>
      rw [hu] at h
      cases h
    | ok operands =>
      obtain ⟨l, r⟩ := operands
      simp only [hu, bind, Except.bind] at h
      split at h
      · next result hr =>
        obtain ⟨op, -, hop⟩ := Option.bind_eq_some_iff.mp hr
        rw [h] at hop
        exact plain_of_meaning hop
      · cases h

end Operation

namespace Native
variable {args : List Value} {w w' : World} {v : Value}

theorem plain_of_print (h : print args w = .ok v w') : v.Plain := by
  obtain ⟨-, w₁, -, h⟩ := ok_of_bind h
  cases h
  trivial

theorem plain_of_input (h : input args w = .ok v w') : v.Plain := by
  obtain ⟨-, w₁, -, h⟩ := ok_of_bind h
  obtain ⟨line, w₂, -, h⟩ := ok_of_bind h
  cases line <;> cases h <;> trivial

theorem plain_of_readFile (h : readFile args w = .ok v w') : v.Plain := by
  unfold readFile at h
  split at h
  · cases h
    trivial
  · obtain ⟨result, w₁, -, h⟩ := ok_of_bind h
    cases result <;> cases h <;> trivial
  · cases h
    trivial
  · cases h
    trivial

/-- The length of a text is plain, unless the text is too long for 32 bits. -/
theorem plain_of_length (hl : ∀ s, args = [.text s] → (s.length : Int) ≤ Range.greatest)
    (h : length args w = .ok v w') : v.Plain := by
  unfold length at h
  split at h
  · cases h
    trivial
  · next s =>
    cases h
    have hs := hl s rfl
    have hpos : Range.least ≤ (s.length : Int) := by
      simp only [Range.least]
      omega
    simp [Value.Plain, Range.contains, hs, hpos]
  · cases h
    trivial
  · cases h
    trivial

/-- The standard natives give plain values, but for the length of a text that is too long. -/
theorem plain_of_standard {name : String} {native : Native}
    (hf : standard.find? name = some native)
    (hl : name = "len" → ∀ s, args = [.text s] → (s.length : Int) ≤ Range.greatest)
    (h : native args w = .ok v w') : v.Plain := by
  have hmem := Table.mem_of_find?_ofList hf
  simp only [List.mem_cons, Prod.mk.injEq, List.not_mem_nil, or_false] at hmem
  rcases hmem with ⟨-, rfl⟩ | ⟨-, rfl⟩ | ⟨-, rfl⟩ | ⟨-, rfl⟩ | ⟨hname, rfl⟩
  · exact plain_of_print h
  · exact plain_of_input h
  · exact plain_of_print h
  · exact plain_of_readFile h
  · exact plain_of_length (hl hname) h

/-- A standard native gives a plain value or an integer, be that beyond 32 bits. -/
theorem plain_or_integer_of_standard {name : String} {native : Native}
    (hf : standard.find? name = some native) (h : native args w = .ok v w') :
    v.Plain ∨ ∃ n, v = .integer n := by
  by_cases hlen : name = "len"
  · subst hlen
    have hnative : some native = some length := hf.symm
    cases hnative
    unfold length at h
    split at h
    · cases h
      exact Or.inl trivial
    · cases h
      exact Or.inr ⟨_, rfl⟩
    · cases h
      exact Or.inl trivial
    · cases h
      exact Or.inl trivial
  · left
    apply plain_of_standard hf _ h
    intro hname
    exact absurd hname hlen

end Native

/-- The one function of the standard structs is a well-formed tree. -/
theorem Prototype.wellFormed_textLength : textLength.toNode.WellFormed := by
  have hs : IsFreeName "s" := ⟨⟨'s', [], rfl, by decide, by decide⟩, Or.inl (by decide)⟩
  have hlen : IsFreeName "len" := ⟨⟨'l', ['e', 'n'], rfl, by decide, by decide⟩, Or.inl (by decide)⟩
  have hreference : (Node.reference 3 "s").WellFormed := Node.wellFormed_of_parts_eq_nil hs rfl
  have hcall : (Node.call 3 "len" [.reference 3 "s"]).WellFormed :=
    Node.every_of_parts hlen (List.forall_mem_singleton.mpr hreference)
  have hreturn : (Node.returning 3 (some (.call 3 "len" [.reference 3 "s"]))).WellFormed :=
    Node.every_of_parts trivial (List.forall_mem_singleton.mpr hcall)
  have hheader : textLength.toNode.Formed := ⟨hlen.1, List.forall_mem_singleton.mpr hs.1⟩
  exact Node.every_of_parts hheader (List.forall_mem_singleton.mpr hreturn)

/-- A value has a member only if it is a text, and that is its length. -/
theorem Prototype.member_of_standard {type : String} {prototype : Prototype} (attr : String)
    (h : standard.find? type = some prototype) :
    prototype.member attr = .nothing ∨ prototype.member attr = .function textLength := by
  have htype := Table.mem_of_find?_ofList h
  obtain ⟨-, rfl⟩ := Prod.mk.inj (List.mem_singleton.mp htype)
  cases hf : text.members.find? attr with
  | none =>
    left
    simp [member, hf]
  | some value =>
    have hattr := Table.mem_of_find?_ofList hf
    obtain ⟨-, rfl⟩ := Prod.mk.inj (List.mem_singleton.mp hattr)
    right
    simp [member, hf]

def Host.Plain (host : Host) : Prop :=
  ∀ name native, host.natives.find? name = some native →
    ∀ args w v w', native args w = .ok v w' → v.Plain

def Regime.kinds {host : Host} {roots : List Node} (hs : host.structs = Prototype.standard)
    (hn : host.Plain) (hw : ∀ root ∈ roots, root.WellFormed)
    (ht : Prototype.textLength.toNode ∈ roots) : Regime host where
  node n := n.OccursIn roots
  value := Value.Kinded roots
  node_of_mem_parts h hp := h.of_mem_parts hp
  value_nothing := .plain trivial
  value_literal {line literal} h := by
    obtain ⟨root, hr, ho⟩ := h
    have hf := hw root hr _ ho
    cases literal with
    | integer n => exact .plain hf
    | _ => exact .plain trivial
  value_function h := .function h
  node_function h := by
    cases h with
    | plain h => cases h
    | function h => exact h
  node_quoted h := by
    cases h with
    | plain h => cases h
  value_apply _ _ h := .plain (Operation.plain_of_apply h)
  value_native hf _ h := .plain (hn _ _ hf _ _ _ _ h)
  value_member {type prototype} attr h := by
    rw [hs] at h
    rcases Prototype.member_of_standard attr h with hm | hm
    · rw [hm]
      exact .plain trivial
    · rw [hm]
      exact .function ⟨_, ht, .itself _⟩

open Eval

/-- While a program runs, with the standard structs and natives that give plain values, everything is of
a kind: the result, what any scope binds at the end and whenever a nested evaluation is entered or
left, what an evaluation comes to, and what a call hands over, be it to a native or to the parameters of
a function. The standard natives do give plain values, but for the length of a text beyond 32 bits. -/
theorem Run.execute_keeps_kinds (host : Host) (text file : String) (world : World)
    (hs : host.structs = Prototype.standard) (hn : host.Plain) :
    let start : Interpreter := ⟨.ofText text file, { world := world }⟩
    let roots := (start.parser.drain host.limits.expressions).1 ++ [Prototype.textLength.toNode]
    EndsIn (fun i => i.state.Kinded roots) (Value.Kinded roots) (execute host start) ∧
    (∀ node s inner u, Comes host start node s →
      Reaches host host.limits.evaluations node s inner u → u.Kinded roots ∧ ∀ nesting,
        EndsIn (State.Kinded roots) (fun outcome => outcome.value.Kinded roots)
          (Eval.evaluate host nesting inner u) ∧
        ∀ receiver args, Calls u inner receiver args →
          EndsIn (State.Kinded roots) (fun values => ∀ v ∈ values, v.Kinded roots)
            (handOver host (Eval.evaluate host nesting) receiver args u)) ∧
    ∀ name native args w v w', Native.standard.find? name = some native →
      (name = "len" → ∀ s, args = [.text s] → s.length ≤ 2 ^ 31 - 1) →
        native args w = .ok v w' → v.Plain := by
  intro start roots
  have hroots : ∀ root ∈ roots, root.WellFormed := by
    have htext := List.forall_mem_singleton.mpr Prototype.wellFormed_textLength
    exact List.forall_mem_append.mpr ⟨Parser.wellFormed_of_mem_drain, htext⟩
  have htext : Prototype.textLength.toNode ∈ roots := by simp [roots]
  let R := Regime.kinds hs hn hroots htext
  have hstart : Within R start := by
    constructor
    · intro n hmem
      exact ⟨n, List.mem_append_left _ hmem, .itself n⟩
    · exact Scopes.binds_of_tables Table.binds_empty (List.forall_mem_nil _)
  refine ⟨?_, ?_, ?_⟩
  · exact hstart.execute
  · intro node s inner u hc hr
    obtain ⟨hnode, hs⟩ := hstart.of_comes hc
    obtain ⟨hinner, hu⟩ := R.of_reaches hnode hs hr
    refine ⟨hu, fun nesting => ⟨?_, ?_⟩⟩
    · exact (R.confined_evaluate nesting inner u hinner hu).ends
    · intro receiver args hcalls
      exact hcalls.handOver hinner hu nesting
  · intro name native args w v w' hf hl h
    apply Native.plain_of_standard hf _ h
    intro hname s hargs
    have hlen := hl hname s hargs
    simp only [Range.greatest]
    omega

/-- The standard natives, but for a length that a text beyond 32 bits does not have. -/
def Native.bounded : Table Native :=
  Native.standard.insert "len" fun
    | [.text s] =>
      if (s.length : Int) ≤ Range.greatest then Native.length [.text s]
      else pure (.failure "Text is too long")
    | args => Native.length args

/-- Natives give plain values also with a bound on the length of texts. -/
theorem Native.plain_bounded (file : String) (limits : Limits) :
    Host.Plain { file := file, natives := Native.bounded, limits := limits } := by
  intro name native hf args w v w' h
  have hf' : Native.bounded.find? name = some native := hf
  rw [Native.bounded, Table.find?_insert] at hf'
  split at hf'
  · cases hf'
    dsimp only at h
    split at h
    · next s =>
      split at h
      · next hlen =>
        apply Native.plain_of_length _ h
        intro s' hargs
        cases hargs
        exact hlen
      · cases h
        trivial
    · next hno =>
      apply Native.plain_of_length _ h
      intro s hargs
      exact absurd hargs (hno s)
  · next hne =>
    apply Native.plain_of_standard hf' _ h
    intro hname
    exact absurd hname hne

/-- A program that measures a text ends with a value of a kind, and so does what it has defined. -/
theorem Run.execute_keeps_kinds_of_length :
    let host : Host := { file := "<script>", natives := Native.bounded, limits := ⟨10, 40, 10, 10⟩ }
    let text := "let f(s) \x7b return s.len(); \x7d f(\"ab\") + 1;"
    let start : Interpreter := ⟨.ofText text "<script>", { world := {} }⟩
    let roots := (start.parser.drain 10).1 ++ [Prototype.textLength.toNode]
    ∃ i, execute host start = .ok (.integer 3) i ∧ i.state.scopes.contains "f" = true ∧
      i.state.Kinded roots ∧ (Value.integer 3).Kinded roots := by
  intro host text start roots
  have hrun : endsWith 3 (·.state.scopes.contains "f") (execute host start) = true := by
    decide +kernel
  have hkinds : EndsIn (fun i => i.state.Kinded roots) (Value.Kinded roots) (execute host start) :=
    (execute_keeps_kinds host text "<script>" {} rfl (Native.plain_bounded _ _)).1
  obtain ⟨i, he, hf⟩ := eq_ok_of_endsWith hrun
  rw [he] at hkinds
  exact ⟨i, he, hf, hkinds⟩

end ScriptLang
