import Mathlib.Tactic.TFAE
import SensorQuery.Proofs.Path.Segment
import SensorQuery.Proofs.Query.Literal

/-!
# One way to quote a text

A text in quotes is read in keys of entities, in constants of filters and in segments of paths, by
three readers. All of them take the quoted form of a text (`Text.quote`) and no other, and inside a
longer text they end at the same quote.
-/

namespace SensorQuery

open Scanner

/-- A key is read to a text exactly if it is the text in quotes. -/
theorem KeyKind.parse_string_eq_ok_iff {raw s : List Char} :
    KeyKind.string.parse (String.ofList raw) = .ok (.string (String.ofList s)) ↔
      raw = Text.quote s := by
  rw [← Text.unquote?_eq_some_iff, KeyKind.parse, Key.parseString, String.toList_ofList]
  cases Text.unquote? raw with
  | none => simp
  | some t => simp [String.ofList_inj]

/-- A text in quotes is read in keys and in constants exactly if it is the quoted form of what is
read. In front of anything but a quote, that form is where a constant and a key of a path end. -/
theorem quoted_texts_read_alike (ε : Type) (raw s : List Char) :
    [raw = Text.quote s, Text.unquote? raw = some s,
      KeyKind.string.parse (String.ofList raw) = .ok (.string (String.ofList s)),
      (Literal.scanString : Scanner ε (List Char)) raw = .found s []].TFAE ∧
    ∀ rest : List Char, rest.head? ≠ some '\'' →
      (Literal.scanString : Scanner ε (List Char)) (Text.quote s ++ rest) = .found s rest ∧
      (Segment.scanQuoted : Scanner ε (List Char)) (Text.quote s ++ rest) =
        .found (Text.quote s) rest := by
  constructor
  · tfae_have 1 ↔ 2 := Text.unquote?_eq_some_iff.symm
    tfae_have 1 ↔ 3 := KeyKind.parse_string_eq_ok_iff.symm
    tfae_have 1 ↔ 4 := by simp [Literal.scanString_eq_found_iff]
    tfae_finish
  · intro rest hrest
    have hstops : Stops (· == '\'') rest := by
      intro c hc
      rw [beq_eq_false_iff_ne]
      rintro rfl
      exact hrest hc
    exact ⟨Literal.scanString_eq_found_iff.mpr ⟨rfl, hstops⟩,
      Segment.scanQuoted_eq_found_iff.mpr ⟨rfl, ⟨s, rfl⟩, hstops⟩⟩

/-- The theorem at a text of quotes alone, in front of a parenthesis. -/
theorem quotes_alone_read_alike :
    (")".toList.head? ≠ some '\'') ∧
      Text.unquote? "''''''".toList = some "''".toList ∧
      (Literal.scanString : Scanner Empty (List Char)) "'''''')".toList =
        .found "''".toList ")".toList ∧
      (Segment.scanQuoted : Scanner Empty (List Char)) "'''''')".toList =
        .found "''''''".toList ")".toList := by
  have hend : ")".toList.head? ≠ some '\'' := by decide
  obtain ⟨hsame, hrest⟩ := quoted_texts_read_alike Empty "''''''".toList "''".toList
  exact ⟨hend, (hsame.out 0 1).mp rfl, hrest _ hend⟩

end SensorQuery
