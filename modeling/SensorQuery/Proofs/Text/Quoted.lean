import SensorQuery.Text.Quoted

/-!
# Quoted texts read back

Doubling quotes works character by character and is undone by reading, so what a quoted text holds
is read back from it.
-/

namespace SensorQuery.Text

/-- Each character is written once, a quote twice. -/
theorem doubled_eq_flatMap (s : List Char) :
    doubled s = s.flatMap fun c ↦ if c = '\'' then ['\'', '\''] else [c] := by
  induction s with
  | nil => rfl
  | cons c s ih =>
    rw [doubled, List.flatMap_cons, ih]
    split <;> rfl

/-- Texts are doubled one after the other. -/
theorem doubled_append (s t : List Char) : doubled (s ++ t) = doubled s ++ doubled t := by
  simp only [doubled_eq_flatMap, List.flatMap_append]

/-- A text without quotes is doubled as it is. -/
theorem doubled_of_not_mem {s : List Char} (h : '\'' ∉ s) : doubled s = s := by
  induction s with
  | nil => rfl
  | cons c s ih =>
    rw [doubled, if_neg (List.ne_of_not_mem_cons h).symm, ih (List.not_mem_of_not_mem_cons h)]

/-- Undoing the doubling of quotes gives the text back. -/
theorem undoubled?_doubled (s : List Char) : undoubled? (doubled s) = some s := by
  induction s with
  | nil => rfl
  | cons c s ih =>
    rw [doubled]
    split
    · next h =>
      rw [h, undoubled?, if_pos rfl, ih]
      rfl
    · next h =>
      rw [undoubled?.eq_def]
      split <;> simp_all

/-- Only the doubling of a text is undone to it. -/
theorem undoubled?_eq_some_iff {t s : List Char} : undoubled? t = some s ↔ t = doubled s := by
  refine ⟨fun h ↦ ?_, fun h ↦ h ▸ undoubled?_doubled s⟩
  fun_induction undoubled? t generalizing s with
  | case1 =>
    cases h
    rfl
  | case2 => cases h
  | case3 t ih =>
    obtain ⟨u, hu, rfl⟩ := Option.map_eq_some_iff.mp h
    rw [doubled, if_pos rfl, ih hu]
  | case4 => cases h
  | case5 c t hlone hpair ih =>
    obtain ⟨u, hu, rfl⟩ := Option.map_eq_some_iff.mp h
    have hc : c ≠ '\'' := by
      rintro rfl
      cases t with
      | nil => exact hlone rfl rfl
      | cons d t => exact hpair d t rfl rfl
    rw [doubled, if_neg hc, ih hu]

/-- A quoted text is read back. -/
theorem unquote?_quote (s : List Char) : unquote? (quote s) = some s := by
  rw [quote, unquote?, List.getLast?_concat, if_pos rfl, List.dropLast_concat, undoubled?_doubled]

/-- Only a quoted text is read, and it is read back. -/
theorem unquote?_eq_some_iff {raw s : List Char} : unquote? raw = some s ↔ raw = quote s := by
  refine ⟨fun h ↦ ?_, fun h ↦ h ▸ unquote?_quote s⟩
  unfold unquote? at h
  split at h
  · next t =>
    split at h
    · next hlast =>
      obtain ⟨body, rfl⟩ := List.getLast?_eq_some_iff.mp hlast
      rw [List.dropLast_concat] at h
      rw [quote, undoubled?_eq_some_iff.mp h]
    · cases h
  · cases h

end SensorQuery.Text
