import PlusLisp.Text.DebugForm

/-!
Writing that shows where it ends. The values of a class are delimited when no two of them are
written with the same characters at the beginning, whatever is written after them (`IsDelimited`).
Then values can be written one after the other, up to a mark that none of them begins with
(`eq_of_flatMap_append`), or between brackets with commas (`eq_of_sequenceForm_append`).
-/

namespace PlusLisp.Text

variable {α : Type} {P : α → Prop} {write : α → List Char} {rest rest' : List Char}

/-- What is written for a value is not written for the beginning of anything else. -/
def IsDelimited (P : α → Prop) (write : α → List Char) (value : α) : Prop :=
  ∀ other, P other → ∀ rest rest', write value ++ rest = write other ++ rest' →
    value = other ∧ rest = rest'

/-- Two texts that end at the first mark are the same when they begin the same text. -/
theorem eq_of_append_mark {mark : Char} {text text' : List Char} (hmark : mark ∉ text)
    (hmark' : mark ∉ text') (h : text ++ mark :: rest = text' ++ mark :: rest') :
    text = text' ∧ rest = rest' := by
  induction text generalizing text' with
  | nil =>
    cases text' with
    | nil => exact ⟨rfl, List.tail_eq_of_cons_eq h⟩
    | cons c text' =>
      obtain ⟨rfl, -⟩ := List.cons_eq_cons.mp h
      exact absurd List.mem_cons_self hmark'
  | cons c text ih =>
    cases text' with
    | nil =>
      obtain ⟨rfl, -⟩ := List.cons_eq_cons.mp h
      exact absurd List.mem_cons_self hmark
    | cons d text' =>
      obtain ⟨rfl, hlater⟩ := List.cons_eq_cons.mp h
      obtain ⟨rfl, hrest⟩ := ih (fun hmem => hmark (List.mem_cons_of_mem _ hmem))
        (fun hmem => hmark' (List.mem_cons_of_mem _ hmem)) hlater
      exact ⟨rfl, hrest⟩

/-- Delimited values are told apart when they are written one after the other up to a mark that none
of them begins with. -/
theorem eq_of_flatMap_append {mark : Char} {values others : List α}
    (hdelimited : ∀ value ∈ values, IsDelimited P write value)
    (hvalues : ∀ value ∈ values, P value) (hothers : ∀ other ∈ others, P other)
    (hmark : ∀ value, P value → ∀ rest, (write value ++ rest).head? ≠ some mark)
    (h : values.flatMap write ++ mark :: rest = others.flatMap write ++ mark :: rest') :
    values = others ∧ rest = rest' := by
  induction values generalizing others with
  | nil =>
    cases others with
    | nil => exact ⟨rfl, List.tail_eq_of_cons_eq h⟩
    | cons other others =>
      rw [List.flatMap_cons, List.append_assoc] at h
      exact absurd (congrArg List.head? h).symm (hmark other (hothers other List.mem_cons_self) _)
  | cons value values ih =>
    rw [List.forall_mem_cons] at hdelimited hvalues
    rw [List.flatMap_cons, List.append_assoc] at h
    cases others with
    | nil => exact absurd (congrArg List.head? h) (hmark value hvalues.1 _)
    | cons other others =>
      rw [List.forall_mem_cons] at hothers
      rw [List.flatMap_cons, List.append_assoc] at h
      obtain ⟨rfl, hlater⟩ := hdelimited.1 other hothers.1 _ _ h
      obtain ⟨rfl, hrest⟩ := ih hdelimited.2 hvalues.2 hothers.2 hlater
      exact ⟨rfl, hrest⟩

/-! ### Sequences -/

theorem toList_intercalate_cons (separator text : String) (texts : List String) :
    (separator.intercalate (text :: texts)).toList =
      text.toList ++ texts.flatMap fun text => separator.toList ++ text.toList := by
  induction texts generalizing text with
  | nil => rw [String.intercalate_singleton, List.flatMap_nil, List.append_nil]
  | cons next texts ih =>
    rw [String.intercalate_cons_cons, String.toList_append, String.toList_append, ih,
      List.flatMap_cons, List.append_assoc, List.append_assoc]

theorem toList_sequenceForm_append (members : List String) (rest : List Char) :
    (sequenceForm members).toList ++ rest =
      '[' :: ((", ".intercalate members).toList ++ ']' :: rest) := by
  rw [sequenceForm, String.toList_append, String.toList_append, List.append_assoc,
    List.append_assoc]
  rfl

/-- Delimited values are told apart when they are written as a sequence. -/
theorem eq_of_sequenceForm_append {form : α → String} {values others : List α}
    (hdelimited : ∀ value ∈ values, IsDelimited P (fun value => (form value).toList) value)
    (hvalues : ∀ value ∈ values, P value) (hothers : ∀ other ∈ others, P other)
    (hmark : ∀ value, P value → ∀ rest, ((form value).toList ++ rest).head? ≠ some ']')
    (h : (sequenceForm (values.map form)).toList ++ rest =
      (sequenceForm (others.map form)).toList ++ rest') :
    values = others ∧ rest = rest' := by
  rw [toList_sequenceForm_append, toList_sequenceForm_append] at h
  have hmembers := List.tail_eq_of_cons_eq h
  cases values with
  | nil =>
    cases others with
    | nil => exact ⟨rfl, List.tail_eq_of_cons_eq hmembers⟩
    | cons other others =>
      rw [List.map_cons, toList_intercalate_cons, List.append_assoc] at hmembers
      exact absurd (congrArg List.head? hmembers).symm
        (hmark other (hothers other List.mem_cons_self) _)
  | cons value values =>
    rw [List.map_cons, toList_intercalate_cons, List.append_assoc] at hmembers
    rw [List.forall_mem_cons] at hdelimited hvalues
    cases others with
    | nil => exact absurd (congrArg List.head? hmembers) (hmark value hvalues.1 _)
    | cons other others =>
      rw [List.map_cons, toList_intercalate_cons, List.append_assoc] at hmembers
      rw [List.forall_mem_cons] at hothers
      obtain ⟨rfl, hlater⟩ := hdelimited.1 other hothers.1 _ _ hmembers
      rw [List.flatMap_map, List.flatMap_map] at hlater
      have hcomma : ∀ value ∈ values,
          IsDelimited P (fun value => ", ".toList ++ (form value).toList) value := by
        intro value hmem other hother rest rest' h
        rw [List.append_assoc, List.append_assoc] at h
        exact hdelimited.2 value hmem other hother rest rest' (List.append_cancel_left h)
      obtain ⟨rfl, hrest⟩ := eq_of_flatMap_append hcomma hvalues.2 hothers.2 (by simp) hlater
      exact ⟨rfl, hrest⟩

end PlusLisp.Text
