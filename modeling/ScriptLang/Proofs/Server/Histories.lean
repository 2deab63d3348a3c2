import Mathlib.Data.List.Induction
import Mathlib.Data.List.Nodup
import ScriptLang.Server.Basic

/-! What a server knows after a history of updates: of each document the symbols of its latest text, the
documents in the order in which they came in, and nothing else. -/
namespace ScriptLang

/-! The symbols of one text. -/

theorem Symbol.uri_of_ofNode? {uri : String} {node : Node} {s : Symbol} (h : ofNode? uri node = some s) :
    s.uri = uri := by
  unfold ofNode? at h
  split at h
  · cases h
    rfl
  · split at h <;> cases h
    rfl
  · cases h
    rfl
  · cases h

/-- The symbols of a text are those of its statements. -/
theorem exists_node_of_mem_analyze {nesting : Nat} {uri text : String} {symbols : List Symbol}
    {notices : List Notice} {s : Symbol} (h : analyze nesting uri text = .ok (symbols, notices))
    (hs : s ∈ symbols) :
    ∃ node ∈ ((Parser.ofText text uri).drain nesting).1, Symbol.ofNode? uri node = some s := by
  have hnodes : symbols = ((Parser.ofText text uri).drain nesting).1.filterMap (Symbol.ofNode? uri) := by
    unfold analyze at h
    simp only at h
    split at h
    · cases h
      rfl
    · split at h <;> cases h
      rfl
  rw [hnodes] at hs
  exact List.mem_filterMap.mp hs

def declared (nesting : Nat) (uri text : String) : List Symbol :=
  match analyze nesting uri text with
  | .ok (symbols, _) => symbols
  | .error _ => []

theorem uri_of_mem_declared {nesting : Nat} {uri text : String} {s : Symbol}
    (h : s ∈ declared nesting uri text) : s.uri = uri := by
  unfold declared at h
  split at h
  · next symbols notices ha =>
    obtain ⟨node, -, hs⟩ := exists_node_of_mem_analyze ha h
    exact Symbol.uri_of_ofNode? hs
  · cases h

/-! The symbols by name. -/

namespace Index

theorem find?_record (globals : Table (List Symbol)) (s : Symbol) (name : String) :
    (record globals s).find? name =
      if name = s.name then some ((globals.find? s.name).getD [] ++ [s]) else globals.find? name := by
  rw [record, Table.find?_insert]

/-- Symbols that are recorded one by one are listed by name in their order, and no name has an empty list. -/
theorem find?_foldl_record (symbols : List Symbol) (name : String) :
    (symbols.foldl record {}).find? name =
      let found := symbols.filter (·.name = name)
      if found = [] then none else some found := by
  induction symbols using List.reverseRecOn with
  | nil => rfl
  | append_singleton symbols s ih =>
    rw [List.foldl_concat, find?_record, List.filter_append]
    by_cases hname : name = s.name
    · subst hname
      rw [ih]
      by_cases hnone : symbols.filter (·.name = s.name) = [] <;> simp [hnone]
    · have hother : ([s].filter fun other => decide (other.name = name)) = [] := by
        simp [Ne.symm hname]
      rw [if_neg hname, ih, hother, List.append_nil]

/-- The global table lists the symbols of a name over all documents, in the order of these. -/
theorem find?_globalsOf (documents : Table (List Symbol)) (name : String) :
    (globalsOf documents).find? name =
      let found := documents.entries.flatMap fun document => document.2.filter (·.name = name)
      if found = [] then none else some found := by
  have hflat : globalsOf documents = (documents.entries.flatMap (·.2)).foldl record {} :=
    List.foldl_flatMap.symm
  rw [hflat, find?_foldl_record, List.filter_flatMap]

end Index

section Finding
variable {α β : Type}

theorem find?_eq_head? {p : α → Bool} {l : List α} (h : ∀ a ∈ l, p a = true) :
    l.find? p = l.head? := by
  cases l with
  | nil => rfl
  | cons a l => simp [h a List.mem_cons_self]

theorem findSome?_ite [DecidableEq α] (l : List α) (a : α) (b : Option β) :
    l.findSome? (fun x => if x = a then b else none) = if a ∈ l then b else none := by
  induction l with
  | nil => rfl
  | cons x l ih =>
    rw [List.findSome?_cons, ih]
    by_cases hx : x = a
    · cases b <;> simp [hx]
    · simp [hx, Ne.symm hx]

/-- What gives nothing need not be tried. -/
theorem findSome?_filter_ne [DecidableEq α] {f : α → Option β} {a : α} (h : f a = none) (l : List α) :
    (l.filter (· ≠ a)).findSome? f = l.findSome? f := by
  induction l with
  | nil => rfl
  | cons x l ih =>
    by_cases hx : x = a
    · subst hx
      simpa [h] using ih
    · rw [List.filter_cons_of_pos (by simpa using hx), List.findSome?_cons, List.findSome?_cons, ih]

end Finding

abbrev History := List (String × String)

namespace History
variable {nesting : Nat} (history : History)

def Analyzed (nesting : Nat) : Prop :=
  ∀ uri text, (uri, text) ∈ history → ∃ symbols notices,
    analyze nesting uri text = .ok (symbols, notices)

def uris : List String :=
  (history.map (·.1)).eraseDups

def latest? (uri : String) : Option String :=
  history.reverse.lookup uri

def symbols (nesting : Nat) (uri : String) : List Symbol :=
  (history.latest? uri).elim [] (declared nesting uri)

def named (nesting : Nat) (name : String) : List Symbol :=
  history.uris.flatMap fun uri => (history.symbols nesting uri).filter (·.name = name)

/-- A document keeps its place when it is updated, and a new one comes last. -/
theorem uris_append (uri text : String) :
    uris (history ++ [(uri, text)]) =
      if uri ∈ history.uris then history.uris else history.uris ++ [uri] := by
  unfold uris
  rw [List.map_append, List.eraseDups_append]
  by_cases hmem : uri ∈ history.map (·.1)
  · have hold : uri ∈ (history.map (·.1)).eraseDups := List.mem_eraseDups.mpr hmem
    rw [if_pos hold]
    simp [List.removeAll, List.mem_map.mp hmem]
  · have hnew : uri ∉ (history.map (·.1)).eraseDups := fun h => hmem (List.mem_eraseDups.mp h)
    have hsingle : ([uri].removeAll (history.map (·.1))).eraseDups = [uri] := by
      simp [List.removeAll, hmem, List.eraseDups_cons]
    rw [if_neg hnew, ← hsingle]
    rfl

theorem nodup_uris : history.uris.Nodup := by
  induction history using List.reverseRecOn with
  | nil => exact List.nodup_nil
  | append_singleton history d ih =>
    rw [uris_append]
    split
    · exact ih
    · next hnew => exact List.concat_eq_append ▸ ih.concat hnew

/-- The last text given for a document is its latest. -/
theorem latest?_append (uri text other : String) :
    latest? (history ++ [(uri, text)]) other = if other = uri then some text else history.latest? other := by
  unfold latest?
  rw [List.reverse_append, List.reverse_singleton, List.singleton_append, List.lookup_cons]
  by_cases h : other = uri
  · simp [h]
  · simp [beq_false_of_ne h, h]

/-- An update replaces the symbols of its document and of no other. -/
theorem symbols_append (uri text other : String) :
    symbols (history ++ [(uri, text)]) nesting other =
      if other = uri then declared nesting uri text else history.symbols nesting other := by
  unfold symbols
  rw [latest?_append]
  split
  · next h =>
    subst h
    rfl
  · rfl

theorem latest?_eq_none {uri : String} (h : uri ∉ history.uris) : history.latest? uri = none := by
  have hne : ∀ d ∈ history, uri ≠ d.1 := by
    rintro d hd rfl
    exact h (List.mem_eraseDups.mpr (List.mem_map_of_mem hd))
  unfold latest?
  rw [List.lookup_eq_none_iff]
  intro d hd
  simpa using hne d (List.mem_reverse.mp hd)

theorem uri_of_mem_symbols {uri : String} {s : Symbol} (h : s ∈ history.symbols nesting uri) :
    s.uri = uri := by
  unfold symbols at h
  cases hlatest : history.latest? uri with
  | none =>
    rw [hlatest] at h
    cases h
  | some text =>
    rw [hlatest] at h
    exact uri_of_mem_declared h

def first? (nesting : Nat) (uri name : String) : Option Symbol :=
  (history.symbols nesting uri).find? (·.name = name)

theorem first?_eq_none {uri : String} (h : uri ∉ history.uris) (name : String) :
    history.first? nesting uri name = none := by
  unfold first? symbols
  rw [history.latest?_eq_none h]
  rfl

/-- Among all symbols of a name those of a document are the ones of its latest text. -/
theorem find?_named (uri name : String) :
    (history.named nesting name).find? (·.uri = uri) = history.first? nesting uri name := by
  have hinner (other : String) :
      ((history.symbols nesting other).filter (·.name = name)).find? (·.uri = uri) =
        if other = uri then history.first? nesting uri name else none := by
    split
    · next heq =>
      subst heq
      have hall : ∀ s ∈ (history.symbols nesting other).filter (·.name = name),
          decide (s.uri = other) = true := by
        intro s hs
        simpa using history.uri_of_mem_symbols (List.mem_filter.mp hs).1
      rw [find?_eq_head? hall, List.head?_filter]
      rfl
    · next hne =>
      rw [List.find?_eq_none]
      intro s hs
      simpa [history.uri_of_mem_symbols (List.mem_filter.mp hs).1] using hne
  unfold named
  simp only [List.find?_flatMap, hinner, findSome?_ite]
  split
  · rfl
  · next hnew => exact (history.first?_eq_none hnew name).symm

/-- The first symbol of a name is the first one in the first document that declares it. -/
theorem head?_named (name : String) :
    (history.named nesting name).head? =
      history.uris.findSome? fun uri => history.first? nesting uri name := by
  unfold named first?
  simp only [List.head?_flatMap, List.head?_filter]

end History

/-- A table with one entry for each of some names: binding a name replaces its entry, or adds one at the
end. -/
theorem Table.entries_insert_map {α : Type} {names : List String} (hd : names.Nodup) (f : String → α)
    (name : String) (a : α) :
    (Table.insert ⟨names.map fun n => (n, f n)⟩ name a).entries =
      (if name ∈ names then names else names ++ [name]).map fun n =>
        (n, if n = name then a else f n) := by
  unfold Table.insert
  simp only
  induction names with
  | nil => simp [Table.insert.go]
  | cons n names ih =>
    obtain ⟨hn, hd⟩ := List.nodup_cons.mp hd
    by_cases heq : name = n
    · subst heq
      have hrest : ∀ m ∈ names, (m, f m) = (m, if m = name then a else f m) := by
        intro m hm
        rw [if_neg]
        rintro rfl
        exact hn hm
      simp [Table.insert.go, List.map_congr_left hrest]
    · by_cases hmem : name ∈ names
      · simp [Table.insert.go, heq, Ne.symm heq, ih hd, hmem]
      · simp [Table.insert.go, heq, Ne.symm heq, ih hd, hmem]

namespace Index
variable {nesting : Nat} {history : History} {index : Index}

/-- The index holds the symbols of the latest texts of a history. -/
structure Reflects (nesting : Nat) (history : History) (index : Index) : Prop where
  documents : index.documents.entries = history.uris.map fun uri => (uri, history.symbols nesting uri)
  globals : index.globals = globalsOf index.documents

/-- An update of an index that reflects a history gives one that reflects the longer history. -/
theorem Reflects.update (h : Reflects nesting history index) {uri text : String} {symbols : List Symbol}
    {notices : List Notice} (ha : analyze nesting uri text = .ok (symbols, notices)) :
    ∃ index', index.update nesting uri text = .ok (notices, index') ∧
      Reflects nesting (history ++ [(uri, text)]) index' := by
  have hdeclared : declared nesting uri text = symbols := by
    rw [declared, ha]
  let documents := index.documents.insert uri symbols
  refine ⟨⟨documents, globalsOf documents⟩, ?_, ?_, rfl⟩
  · simp only [Index.update, ha, bind, Except.bind, pure, Except.pure, documents]
  · have hdocuments : index.documents =
        ⟨history.uris.map fun uri => (uri, history.symbols nesting uri)⟩ := by
      rw [← h.documents]
    simp only [documents]
    rw [hdocuments, Table.entries_insert_map history.nodup_uris, History.uris_append]
    simp only [History.symbols_append, hdeclared]

/-- In an index that reflects a history, a name has the symbols that the documents declare for it. -/
theorem Reflects.find? (h : Reflects nesting history index) (name : String) :
    index.globals.find? name =
      if history.named nesting name = [] then none else some (history.named nesting name) := by
  rw [h.globals, find?_globalsOf, h.documents, List.flatMap_map]
  rfl

/-- A symbol is looked up in the latest text of the document, then in those of the others. -/
theorem Reflects.lookup (h : Reflects nesting history index) (uri name : String) :
    index.lookup uri name = (history.first? nesting uri name).or
      ((history.uris.filter (· ≠ uri)).findSome? fun other => history.first? nesting other name) := by
  have hnamed : index.named name = history.named nesting name := by
    rw [named, h.find?]
    split
    · next hnone => rw [hnone, Option.getD_none]
    · rfl
  unfold Index.lookup
  simp only [hnamed, History.find?_named, History.head?_named]
  cases hfirst : history.first? nesting uri name with
  | some s => rfl
  | none =>
    rw [Option.none_or, Option.none_or]
    exact (findSome?_filter_ne (f := fun other => history.first? nesting other name) hfirst _).symm

end Index

namespace Request

def updateAll : History → Request Unit
  | [] => pure ()
  | (uri, text) :: rest => do
    let _ ← update uri text
    updateAll rest

/-- Updates carry on what the index reflects. -/
theorem reflects_of_updateAll {past : History} {s : Server}
    (h : s.index.Reflects s.limits.expressions past) {history : History}
    (ha : history.Analyzed s.limits.expressions) :
    ∃ index, updateAll history s = .ok () { s with index := index } ∧
      index.Reflects s.limits.expressions (past ++ history) := by
  induction history generalizing past s with
  | nil => exact ⟨s.index, rfl, by rwa [List.append_nil]⟩
  | cons d rest ih =>
    obtain ⟨uri, text⟩ := d
    obtain ⟨symbols, notices, hd⟩ := ha uri text List.mem_cons_self
    obtain ⟨index, hupdate, hreflects⟩ := h.update hd
    have hrest : History.Analyzed rest s.limits.expressions :=
      fun u t hm => ha u t (List.mem_cons_of_mem _ hm)
    obtain ⟨last, hall, hlast⟩ := ih (s := { s with index := index }) hreflects hrest
    refine ⟨last, ?_, ?_⟩
    · simp only [updateAll, bind, EStateM.bind, update, hupdate]
      exact hall
    · rwa [List.append_assoc] at hlast

/-- A server that starts without symbols reflects the history of its updates. -/
theorem reflects_of_fresh {s : Server} (hi : s.indexed = true) (he : s.index = {}) {history : History}
    (ha : history.Analyzed s.limits.expressions) :
    ∃ t, updateAll history s = .ok () t ∧ t.indexed = true ∧
      t.index.Reflects s.limits.expressions history := by
  have hstart : s.index.Reflects s.limits.expressions [] := by
    rw [he]
    exact ⟨rfl, rfl⟩
  obtain ⟨index, hall, hreflects⟩ := reflects_of_updateAll hstart ha
  exact ⟨{ s with index := index }, hall, hi, hreflects⟩

/-- A lookup prefers the document it is asked from, and goes on to the others in their order. -/
theorem lookup_of_reflects {t : Server} {nesting : Nat} {history : History} (hi : t.indexed = true)
    (h : t.index.Reflects nesting history) (uri name : String) :
    lookup uri name t = .ok ((history.first? nesting uri name).or
      ((history.uris.filter (· ≠ uri)).findSome? fun other => history.first? nesting other name)) t := by
  have hget (f : Server → Request (Option Symbol)) : (get >>= f) t = f t t := rfl
  have hworkspace : ¬(!t.indexed) = true := by simp [hi]
  rw [← h.lookup, lookup, hget, if_neg hworkspace]
  rfl

theorem lookup_of_first? {t : Server} {nesting : Nat} {history : History} (hi : t.indexed = true)
    (h : t.index.Reflects nesting history) {uri name : String} {symbol : Symbol}
    (hfirst : history.first? nesting uri name = some symbol) :
    lookup uri name t = .ok (some symbol) t := by
  rw [lookup_of_reflects hi h, hfirst, Option.some_or]

/-- After a history of updates every name has the symbols of the latest texts, by documents in the order in
which they first came in and then in source order, and a name without symbols has no list. A symbol is
looked up in the latest text of the document, and then in those of the other documents in that order. So
what is found in the document itself does not depend on the updates of the others. -/
theorem index_reflects_history (s : Server) (hi : s.indexed = true) (he : s.index = {})
    (history : History) (ha : history.Analyzed s.limits.expressions) :
    let nesting := s.limits.expressions
    ∃ t, updateAll history s = .ok () t ∧
      (∀ name, t.index.globals.find? name =
        if history.named nesting name = [] then none else some (history.named nesting name)) ∧
      (∀ uri name, lookup uri name t = .ok ((history.first? nesting uri name).or
        ((history.uris.filter (· ≠ uri)).findSome? fun other => history.first? nesting other name)) t) ∧
      ∀ (other : History) (uri name : String) (symbol : Symbol), other.Analyzed nesting →
        other.latest? uri = history.latest? uri → history.first? nesting uri name = some symbol →
          lookup uri name t = .ok (some symbol) t ∧
            ∃ t', updateAll other s = .ok () t' ∧ lookup uri name t' = .ok (some symbol) t' := by
  intro nesting
  obtain ⟨t, hall, ht, hreflects⟩ := reflects_of_fresh hi he ha
  refine ⟨t, hall, hreflects.find?, lookup_of_reflects ht hreflects, ?_⟩
  intro other uri name symbol hother hlatest hfirst
  obtain ⟨t', hall', ht', hreflects'⟩ := reflects_of_fresh hi he hother
  have hfirst' : other.first? nesting uri name = some symbol := by
    rw [← hfirst]
    unfold History.first? History.symbols
    rw [hlatest]
  exact ⟨lookup_of_first? ht hreflects hfirst, t', hall', lookup_of_first? ht' hreflects' hfirst'⟩

/-- A document loses a name that another one declares as well. -/
theorem index_reflects_history_of_change :
    let history : History := [("a", "let x = 1;"), ("b", "let x = 2;\nlet y = 3;"), ("a", "let y = ;")]
    let s : Server := { indexed := true, limits := ⟨10, 40, 10, 10⟩ }
    let x : Symbol := ⟨"x", .variable, "b", 0, "let x"⟩
    ∃ t, updateAll history s = .ok () t ∧ t.index.globals.find? "x" = some [x] ∧
      t.index.globals.find? "z" = none ∧ lookup "a" "x" t = .ok (some x) t := by
  intro history s x
  have hok : history.all (fun d => (analyze 10 d.1 d.2).isOk) = true := by decide +kernel
  have hanalyzed : history.Analyzed 10 := by
    intro uri text hmem
    have hd := List.all_eq_true.mp hok (uri, text) hmem
    cases hr : analyze 10 uri text with
    | error fault =>
      rw [hr] at hd
      cases hd
    | ok result =>
      obtain ⟨symbols, notices⟩ := result
      exact ⟨symbols, notices, rfl⟩
  have hx : history.named 10 "x" = [x] := by decide +kernel
  have hz : history.named 10 "z" = [] := by decide +kernel
  have hfound : (history.first? 10 "a" "x").or ((history.uris.filter (· ≠ "a")).findSome? fun other =>
      history.first? 10 other "x") = some x := by decide +kernel
  obtain ⟨t, hall, hglobals, hlookup, -⟩ := index_reflects_history s rfl rfl history hanalyzed
  refine ⟨t, hall, ?_, ?_, ?_⟩
  · rw [hglobals "x", hx]
    rfl
  · rw [hglobals "z", if_pos hz]
  · rw [hlookup, hfound]

end Request
end ScriptLang
