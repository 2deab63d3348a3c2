import ScriptLang.Native
import ScriptLang.Proofs.ScopeChains
import ScriptLang.Proofs.Steps

/-! What natives ask of the world. They read and write, and leave all else of the world as they found it, so
that what it lacks at the end it lacked from the beginning; and they fail only where it lacks what they
need. -/
namespace ScriptLang

def EndsOr {σ α : Type} (P : σ → Prop) (Q : α → Prop) (F : Fault → Prop) :
    EStateM.Result Fault σ α → Prop
  | .ok a s => P s ∧ Q a
  | .error e s => P s ∧ F e

namespace EndsOr
variable {σ α β : Type} {P P' : σ → Prop} {Q : α → Prop} {Q' : β → Prop} {F F' : Fault → Prop}

/-- Steps in a row fail with what one of them fails with. -/
theorem bind {m : EStateM Fault σ α} {f : α → EStateM Fault σ β} {s : σ} (hm : EndsOr P Q F (m s))
    (hf : ∀ a t, P t → Q a → EndsOr P Q' F (f a t)) : EndsOr P Q' F ((m >>= f) s) := by
  cases h : m s with
  | ok a t =>
    rw [h] at hm
    rw [bind_of_ok h]
    exact hf a t hm.1 hm.2
  | error e t =>
    rw [h] at hm
    rw [bind_of_error h]
    exact hm

theorem mono {r : EStateM.Result Fault σ α} (h : EndsOr P Q F r) (hp : ∀ s, P s → P' s)
    (hf : ∀ e, F e → F' e) : EndsOr P' Q F' r := by
  cases r with
  | ok a s => exact ⟨hp s h.1, h.2⟩
  | error e s => exact ⟨hp s h.1, hf e h.2⟩

end EndsOr

namespace World

def Lacks (w : World) : Need → Prop
  | .line => w.inputOpen = true
  | .file path => w.disk path = .unknown
  | .decoding m => w.undecodable = some m
  | .encoding c => w.encodes c = false

/-- What the world `start` may become: only its input is used up, and its output grows. -/
structure Continues (start w : World) : Prop where
  inputOpen : w.inputOpen = start.inputOpen
  undecodable : ∀ m, w.undecodable = some m → start.undecodable = some m
  encodes : w.encodes = start.encodes
  disk : w.disk = start.disk

def Takes (w : World) (text : String) : Prop :=
  ∀ c ∈ text.toList, w.encodes c = true

variable {start w : World} {α β : Type}

theorem takes_append (text other : String) : w.Takes (text ++ other) ↔ w.Takes text ∧ w.Takes other := by
  simp only [Takes, String.toList_append, List.forall_mem_append]

/-- A text of characters that the output encodes is appended to it. -/
theorem write_of_takes {text : String} (h : w.Takes text) :
    World.write text w = .ok () { w with output := w.output ++ text } := by
  have hnone : (text.toList.find? fun c => !w.encodes c) = none := by
    rw [List.find?_eq_none]
    intro c hc
    simp [h c hc]
  rw [World.write, hnone]

/-- A text with another character is not written at all. -/
theorem write_of_not_takes {text : String} (h : ¬w.Takes text) :
    ∃ c, w.encodes c = false ∧ World.write text w = .error (.waiting (.encoding c)) w := by
  have hsome : (text.toList.find? fun c => !w.encodes c).isSome = true := by
    simpa [Takes] using h
  obtain ⟨c, hc⟩ := Option.isSome_iff_exists.mp hsome
  refine ⟨c, by simpa using List.find?_some hc, ?_⟩
  rw [World.write, hc]

theorem Continues.refl (w : World) : w.Continues w :=
  ⟨rfl, fun _ => id, rfl, rfl⟩

/-- What a world lacks that another became, that one lacked already. -/
theorem Continues.lacks (h : start.Continues w) {need : Need} (hneed : w.Lacks need) :
    start.Lacks need := by
  cases need with
  | line => exact h.inputOpen.symm.trans hneed
  | file path => exact (congrFun h.disk path).symm.trans hneed
  | decoding m => exact h.undecodable m hneed
  | encoding c => exact (congrFun h.encodes c).symm.trans hneed

/-- Steps that leave the world as it is, but for what they read and write, and that fail only for what it
lacks. -/
def Asks (m : EStateM Fault World α) : Prop :=
  ∀ start w : World, start.Continues w →
    EndsOr start.Continues (fun _ => True) (fun e => ∃ need, e = .waiting need ∧ start.Lacks need) (m w)

namespace Asks

theorem pure (a : α) : Asks (Pure.pure a) :=
  fun _ _ hw => ⟨hw, trivial⟩

/-- Steps that only ask the world do so one after another. -/
theorem bind {m : EStateM Fault World α} {f : α → EStateM Fault World β} (hm : Asks m)
    (hf : ∀ a, Asks (f a)) : Asks (m >>= f) :=
  fun start w hw => (hm start w hw).bind fun a u hu _ => hf a start u hu

theorem write (text : String) : Asks (World.write text) := by
  intro start w hw
  unfold World.write
  split
  · next c hc =>
    have hlacks : w.Lacks (.encoding c) := by simpa [Lacks] using List.find?_some hc
    exact ⟨hw, _, rfl, hw.lacks hlacks⟩
  · exact ⟨⟨hw.inputOpen, hw.undecodable, hw.encodes, hw.disk⟩, trivial⟩

theorem readLine : Asks World.readLine := by
  intro start w hw
  have hread (input : List Char) : start.Continues { w with input := input } :=
    ⟨hw.inputOpen, hw.undecodable, hw.encodes, hw.disk⟩
  have hlost (input : List Char) : start.Continues { w with input := input, undecodable := none } :=
    ⟨hw.inputOpen, fun _ => nofun, hw.encodes, hw.disk⟩
  unfold World.readLine
  split
  split
  · exact ⟨hread _, trivial⟩
  · split
    · next m hm => exact ⟨hlost _, _, rfl, hw.undecodable m hm⟩
    · split
      · split
        · next hopen => exact ⟨hw, _, rfl, hw.lacks hopen⟩
        · exact ⟨hw, trivial⟩
      · exact ⟨hread _, trivial⟩

theorem readText (path : String) : Asks (World.readText path) := by
  intro start w hw
  unfold World.readText
  split
  · exact ⟨hw, trivial⟩
  · exact ⟨hw, trivial⟩
  · next hd => exact ⟨hw, _, rfl, hw.lacks hd⟩

end Asks

end World

namespace Native
open World (Asks)
variable (args : List Value)

theorem asks_print : Asks (print args) :=
  (Asks.write _).bind fun _ => .pure _

theorem asks_input : Asks (input args) := by
  apply (Asks.write _).bind
  intro _
  apply Asks.readLine.bind
  intro line
  cases line with
  | none => exact .pure _
  | some line => exact .pure _

theorem asks_readFile : Asks (readFile args) := by
  unfold readFile
  split
  · exact .pure _
  · next path =>
    apply (Asks.readText path).bind
    intro text
    cases text with
    | ok text => exact .pure _
    | error fault => exact .pure _
  · exact .pure _
  · exact .pure _

theorem asks_length : Asks (length args) := by
  unfold length
  split <;> exact .pure _

/-- The standard natives fail only where the world lacks what they need. -/
theorem asks_of_standard {name : String} {native : Native} (hf : standard.find? name = some native) :
    Asks (native args) := by
  have hmem := Table.mem_of_find?_ofList hf
  simp only [List.mem_cons, Prod.mk.injEq, List.not_mem_nil, or_false] at hmem
  rcases hmem with ⟨-, rfl⟩ | ⟨-, rfl⟩ | ⟨-, rfl⟩ | ⟨-, rfl⟩ | ⟨-, rfl⟩
  · exact asks_print args
  · exact asks_input args
  · exact asks_print args
  · exact asks_readFile args
  · exact asks_length args

end Native
end ScriptLang
