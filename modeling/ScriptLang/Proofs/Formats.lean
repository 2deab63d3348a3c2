import ScriptLang.Native

/-! Formats written from texts. Doubling the braces of the texts that stand between the places of a format
is undone by filling it, wherever a run of braces meets a place, and what is filled in is never read as a
format itself. -/
namespace ScriptLang

def escapeBraces (cs : List Char) : List Char :=
  cs.flatMap fun c => if c = '{' ∨ c = '}' then [c, c] else [c]

/-- The format of texts with a place for a value between any two. -/
def template (first : String) (others : List String) : String :=
  String.ofList (escapeBraces first.toList ++
    others.flatMap fun s => '{' :: '}' :: escapeBraces s.toList)

/-- Braces are doubled, and other characters stay as they are. -/
theorem escapeBraces_cons (c : Char) (cs : List Char) :
    escapeBraces (c :: cs) = (if c = '{' ∨ c = '}' then [c, c] else [c]) ++ escapeBraces cs :=
  List.flatMap_cons

theorem fillFormat_cons_of_ne {c : Char} (hopen : c ≠ '{') (hclose : c ≠ '}') (cs : List Char)
    (values : List Value) : fillFormat (c :: cs) values = c :: fillFormat cs values := by
  conv => lhs; unfold fillFormat
  split <;> simp_all

/-- A text is read whole before anything behind it is: no brace of it pairs with one that follows. -/
theorem fillFormat_escapeBraces_append (cs rest : List Char) (values : List Value) :
    fillFormat (escapeBraces cs ++ rest) values = cs ++ fillFormat rest values := by
  induction cs with
  | nil => rfl
  | cons c cs ih =>
    rw [escapeBraces_cons]
    by_cases hopen : c = '{'
    · subst hopen
      simp [fillFormat, ih]
    · by_cases hclose : c = '}'
      · subst hclose
        simp [fillFormat, ih]
      · have hplain : ¬(c = '{' ∨ c = '}') := not_or.mpr ⟨hopen, hclose⟩
        rw [if_neg hplain, List.append_assoc, List.singleton_append,
          fillFormat_cons_of_ne hopen hclose, ih, List.cons_append]

/-- Places without a value stay empty. -/
theorem fillFormat_places_nil (others : List String) :
    fillFormat (others.flatMap fun s => '{' :: '}' :: escapeBraces s.toList) [] =
      others.flatMap String.toList := by
  induction others with
  | nil => rw [List.flatMap_nil, List.flatMap_nil, fillFormat]
  | cons s others ih =>
    rw [List.flatMap_cons, List.flatMap_cons, List.cons_append, List.cons_append, fillFormat,
      fillFormat_escapeBraces_append, ih]

/-- Places take the values in turn, each with the text behind it, and what follows gets those left. -/
theorem fillFormat_places_append (filled : List (Value × String)) (rest : List Char)
    (values : List Value) :
    fillFormat ((filled.flatMap fun p => '{' :: '}' :: escapeBraces p.2.toList) ++ rest)
        (filled.map Prod.fst ++ values) =
      (filled.flatMap fun p => p.1.display.toList ++ p.2.toList) ++ fillFormat rest values := by
  induction filled with
  | nil => rfl
  | cons p filled ih =>
    simp only [List.flatMap_cons, List.map_cons, List.cons_append, List.append_assoc, fillFormat]
    rw [fillFormat_escapeBraces_append, ih]

theorem fillFormat_nil (values : List Value) : fillFormat [] values = [] := by
  rw [fillFormat]

/-- Filling a format that was written from texts gives the texts as they are, with the values between them.
Values that no place is left for are not printed, and places that no value is left for are empty. -/
theorem printed_template (first : String) (filled : List (Value × String)) :
    (∀ surplus : List Value,
      printed (.text (template first (filled.map Prod.snd)) :: (filled.map Prod.fst ++ surplus)) =
        first ++ String.join (filled.map fun p => p.1.display ++ p.2)) ∧
    ∀ unfilled : List String,
      printed (.text (template first (filled.map Prod.snd ++ unfilled)) :: filled.map Prod.fst) =
        first ++ String.join (filled.map fun p => p.1.display ++ p.2) ++ String.join unfilled := by
  have hplaces : ((filled.map Prod.snd).flatMap fun s => '{' :: '}' :: escapeBraces s.toList) =
      filled.flatMap fun p => '{' :: '}' :: escapeBraces p.2.toList := List.flatMap_map ..
  have hjoin : (String.join (filled.map fun p => p.1.display ++ p.2)).toList =
      filled.flatMap fun p => p.1.display.toList ++ p.2.toList := by
    rw [String.toList_join, List.flatMap_map]
    simp only [String.toList_append]
  constructor
  · intro surplus
    have hfill := fillFormat_places_append filled [] surplus
    rw [List.append_nil, fillFormat_nil, List.append_nil] at hfill
    apply String.toList_injective
    rw [printed, template, String.toList_ofList, String.toList_ofList, fillFormat_escapeBraces_append,
      hplaces, hfill, String.toList_append, hjoin]
  · intro unfilled
    have hfill := fillFormat_places_append filled
      (unfilled.flatMap fun s => '{' :: '}' :: escapeBraces s.toList) []
    rw [List.append_nil, fillFormat_places_nil] at hfill
    apply String.toList_injective
    rw [printed, template, String.toList_ofList, String.toList_ofList, fillFormat_escapeBraces_append,
      List.flatMap_append, hplaces, hfill, String.toList_append, String.toList_append, hjoin,
      String.toList_join, List.append_assoc]

/-- A closing brace before a place and an opening one behind it are those of the texts around. -/
example : printed [.text "\x7d\x7d\x7b\x7d\x7b\x7b", .text "\x7b\x7d"] = "\x7d\x7b\x7d\x7b" := by decide

end ScriptLang
