import SensorQuery.Query.Constant
import SensorQuery.Function.Catalog
import SensorQuery.Proofs.Scanner

/-!
# Names and keywords

Which characters belong to a name, and that a keyword is read exactly where the longest run of
name characters is that word. Texts inside an expression end before a blank, a closing parenthesis
or a comma (`Ends`), and none of these continues a name, a number or a time.
-/

namespace SensorQuery

open Scanner

/-- A blank, a closing parenthesis or a comma. -/
def isEnd (c : Char) : Bool := c.isWhitespace || c == ')' || c == ','

/-- The characters that end an expression are blanks, a comma and the parenthesis that closes. -/
theorem mem_of_isEnd {c : Char} (hc : isEnd c = true) :
    c ∈ [' ', '\t', '\r', '\n', ')', ','] := by
  simp only [isEnd, Char.isWhitespace, Bool.or_eq_true, decide_eq_true_eq, beq_iff_eq] at hc
  simpa [or_assoc] using hc

/-- The text is at its end, or goes on behind an operand. -/
def Ends (rest : List Char) : Prop := ∀ c ∈ rest.head?, isEnd c = true

/-- An expression ends with the text. -/
@[simp] theorem ends_nil : Ends [] := by
  simp [Ends]

/-- An expression ends in front of the characters that end it. -/
@[simp] theorem ends_cons (c : Char) (rest : List Char) :
    Ends (c :: rest) ↔ isEnd c = true := by
  simp [Ends]

/-- An operand ends in front of blanks. -/
theorem ends_of_blank {gap : List Char} (hgap : ∀ c ∈ gap, c.isWhitespace = true) : Ends gap := by
  intro c hc
  rw [isEnd, hgap c (List.mem_of_mem_head? hc)]
  rfl

/-- A class that holds none of the characters that end an operand stops behind it. -/
theorem Ends.stops {rest : List Char} (h : Ends rest) {p : Char → Bool}
    (hp : [' ', '\t', '\r', '\n', ')', ','].all (!p ·) = true) : Stops p rest := by
  intro c hc
  have hnone := List.all_eq_true.mp hp c (mem_of_isEnd (h c hc))
  rwa [Bool.not_eq_true'] at hnone

namespace RawStep

/-- A digit may stand in a name. -/
theorem isNameChar_of_isDigit (c : Char) (h : c.isDigit = true) : isNameChar c = true := by
  have hle : c.toNat ≤ 57 := by
    simp only [Char.isDigit, ge_iff_le, Bool.and_eq_true, decide_eq_true_eq] at h
    exact UInt32.le_iff_toNat_le.mp h.2
  rw [isNameChar, Text.isAlphanumeric, if_pos (by omega), Char.isAlphanum, h]
  simp

private theorem forall_ascii {P : Char → Prop} (h : ∀ n : Fin 128, P (Char.ofNat n)) (c : Char)
    (hc : c.toNat < 128) : P c := by
  have hn := h ⟨c.toNat, hc⟩
  rwa [Char.ofNat_toNat] at hn

private theorem toLower_of_le {c : Char} (h : 128 ≤ c.toNat) : c.toLower = c := by
  unfold Char.toLower
  rw [dif_neg]
  rintro ⟨-, hz⟩
  have hle : c.toNat ≤ 90 := UInt32.le_iff_toNat_le.mp hz
  omega

/-- The case of ASCII letters does not make a difference to names. -/
theorem isNameChar_toLower (c : Char) : isNameChar c.toLower = isNameChar c := by
  by_cases h : c.toNat < 128
  · exact forall_ascii (P := fun c ↦ isNameChar c.toLower = isNameChar c) (by decide) c h
  · rw [toLower_of_le (by omega)]

/-- A character is a letter in either case. -/
theorem isAlphabetic_toLower (c : Char) : Text.isAlphabetic c.toLower = Text.isAlphabetic c := by
  by_cases h : c.toNat < 128
  · exact forall_ascii (P := fun c ↦ Text.isAlphabetic c.toLower = Text.isAlphabetic c) (by decide)
      c h
  · rw [toLower_of_le (by omega)]

/-- A digit is no letter. -/
theorem isAlphabetic_of_isDigit (c : Char) (h : c.isDigit = true) :
    Text.isAlphabetic c = false := by
  have hle : c.toNat ≤ 57 := by
    simp only [Char.isDigit, ge_iff_le, Bool.and_eq_true, decide_eq_true_eq] at h
    exact UInt32.le_iff_toNat_le.mp h.2
  exact forall_ascii (P := fun c ↦ c.isDigit = true → Text.isAlphabetic c = false) (by decide) c
    (by omega) h

/-- No character of names is a blank. -/
theorem not_isWhitespace_of_isNameChar (c : Char) (h : isNameChar c = true) :
    c.isWhitespace = false := by
  cases hc : c.isWhitespace with
  | false => rfl
  | true =>
    simp only [Char.isWhitespace, Bool.or_eq_true, decide_eq_true_eq] at hc
    rcases hc with ((rfl | rfl) | rfl) | rfl <;> exact absurd h (by decide)

end RawStep

namespace Literal

open RawStep (isNameChar)

/-- A keyword is found where it stands and no name goes on behind it. -/
theorem scanKeyword_eq_found {ε : Type} {word : String} {s rest : List Char} {u : Unit} :
    (scanKeyword word : Scanner ε Unit) s = .found u rest ↔
      s = word.toList ++ rest ∧ Stops isNameChar rest := by
  unfold scanKeyword
  rw [bind_eq_found]
  simp only [exactly_eq_found, notBefore_eq_found]
  constructor
  · rintro ⟨_, mid, rfl, rfl, h⟩
    exact ⟨rfl, h⟩
  · rintro ⟨rfl, h⟩
    exact ⟨(), rest, rfl, rfl, h⟩

/-- A keyword refuses nothing. -/
theorem scanKeyword_eq_missed {ε : Type} {word : String} {s : List Char}
    (h : ∀ rest, ¬ (s = word.toList ++ rest ∧ Stops isNameChar rest)) :
    (scanKeyword word : Scanner ε Unit) s = .missed := by
  unfold scanKeyword
  rw [bind_eq_missed]
  by_cases hw : word.toList <+: s
  · obtain ⟨rest, rfl⟩ := hw
    refine .inr ⟨(), rest, exactly_append _ _, ?_⟩
    have hstop : ¬ Stops isNameChar rest := fun hstop ↦ h rest ⟨rfl, hstop⟩
    cases rest with
    | nil => simp at hstop
    | cons c rest => exact notBefore_missed (by simpa using hstop)
  · exact .inl (exactly_missed hw)

/-- A keyword is read where the run of name characters is that word. -/
theorem scanKeyword_append {ε : Type} (word : String) {rest : List Char}
    (h : Stops isNameChar rest) :
    (scanKeyword word : Scanner ε Unit) (word.toList ++ rest) = .found () rest :=
  scanKeyword_eq_found.mpr ⟨rfl, h⟩

/-- A keyword is not read where the run of name characters is another word. -/
theorem scanKeyword_missed {ε : Type} {word : String} {name rest : List Char}
    (hword : ∀ c ∈ word.toList, isNameChar c = true) (hname : ∀ c ∈ name, isNameChar c = true)
    (h : Stops isNameChar rest) (hne : word.toList ≠ name) :
    (scanKeyword word : Scanner ε Unit) (name ++ rest) = .missed := by
  apply scanKeyword_eq_missed
  rintro mid ⟨hmid, hstops⟩
  exact hne (run_unique hword hname hstops h hmid.symm)

end Literal

end SensorQuery
