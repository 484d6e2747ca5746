/-!
# Separated texts

`Separated.parts` cuts a text at every separator; a text without one is a single part. Putting the
separator back between the parts gives the text again.
-/

namespace QuerySheet.Separated

/-- The parts between the separators. -/
def parts (separator : Char) : List Char → List (List Char)
  | [] => [[]]
  | c :: rest =>
    if c = separator then [] :: parts separator rest
    else
      match parts separator rest with
      | [] => [[c]]
      | part :: more => (c :: part) :: more

theorem parts_ne_nil (separator : Char) (cs : List Char) : parts separator cs ≠ [] := by
  cases cs with
  | nil => simp [parts]
  | cons c rest =>
    simp only [parts]
    split
    · simp
    · split <;> simp

theorem intercalate_parts (separator : Char) (cs : List Char) :
    [separator].intercalate (parts separator cs) = cs := by
  induction cs with
  | nil => rfl
  | cons c rest ih =>
    simp only [parts]
    split
    · rename_i h
      obtain ⟨part, more, hp⟩ := List.exists_cons_of_ne_nil (parts_ne_nil separator rest)
      rw [hp] at ih ⊢
      rw [List.intercalate_cons_cons, ih, h]
      rfl
    · split
      · rename_i hp
        exact absurd hp (parts_ne_nil separator rest)
      · rename_i part more hp
        rw [hp] at ih
        cases more with
        | nil => rw [← ih]; rfl
        | cons p more =>
          rw [List.intercalate_cons_cons] at ih ⊢
          rw [← ih]; rfl

theorem not_mem_of_mem_parts {separator : Char} {cs part : List Char}
    (h : part ∈ parts separator cs) : separator ∉ part := by
  induction cs generalizing part with
  | nil =>
    rw [List.mem_singleton.mp h]
    exact List.not_mem_nil
  | cons c rest ih =>
    simp only [parts] at h
    split at h
    · rcases List.mem_cons.mp h with rfl | h
      · exact List.not_mem_nil
      · exact ih h
    · rename_i hne
      split at h
      · rename_i hp
        exact absurd hp (parts_ne_nil separator rest)
      · rename_i first more hp
        rcases List.mem_cons.mp h with rfl | h
        · have hfirst : separator ∉ first := ih (hp ▸ List.mem_cons_self)
          exact fun hmem => (List.mem_cons.mp hmem).elim (fun e => hne e.symm) hfirst
        · exact ih (hp ▸ List.mem_cons_of_mem _ h)

theorem parts_of_not_mem {separator : Char} {cs : List Char} (h : separator ∉ cs) :
    parts separator cs = [cs] := by
  induction cs with
  | nil => rfl
  | cons c rest ih =>
    have hc : ¬ c = separator := fun e => h (e ▸ List.mem_cons_self)
    rw [parts, if_neg hc, ih fun hrest => h (List.mem_cons_of_mem _ hrest)]

/-- The parts of a text. -/
def split (separator : Char) (text : String) : List String :=
  (parts separator text.toList).map String.ofList

theorem split_ne_nil (separator : Char) (text : String) : split separator text ≠ [] := by
  simp [split, parts_ne_nil]

theorem split_of_not_mem {separator : Char} {text : String} (h : separator ∉ text.toList) :
    split separator text = [text] := by
  rw [split, parts_of_not_mem h, List.map_singleton, String.ofList_toList]

theorem not_mem_of_mem_split {separator : Char} {text part : String}
    (h : part ∈ split separator text) : separator ∉ part.toList := by
  obtain ⟨cs, hcs, rfl⟩ := List.mem_map.mp h
  rw [String.toList_ofList]
  exact not_mem_of_mem_parts hcs

end QuerySheet.Separated
