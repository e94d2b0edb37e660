import SensorQuery.Model.Key
import SensorQuery.Proofs.Number.Numeral
import SensorQuery.Proofs.Text.Quoted

/-!
# Keys read back

Each reader of keys answers with keys of its kind, and reads every key of its kind from the key's
text. For a UUID that is its hyphenated form, which none of the other forms can be taken for.
-/

namespace SensorQuery

namespace Uuid

private theorem hexDigit?_digitText (d : Fin 16) :
    Text.hexDigit? (digitText d) = some d.val := by
  revert d
  decide

private theorem digitText_ne : ∀ d, digitText d ≠ '{' ∧ (digitText d).toLower ≠ 'u' := by
  decide

private theorem digit?_digitText (d : Fin 16) : digit? (digitText d) = some d := by
  simp only [digit?, hexDigit?_digitText, d.isLt, dite_true]

/-- The digits are read from their characters. -/
theorem ofDigits?_digits (u : Uuid) : ofDigits? (u.digits.map digitText) = some u := by
  have hdigits (ds : List (Fin 16)) : (ds.map digitText).mapM digit? = some ds := by
    induction ds with
    | nil => rfl
    | cons d ds ih => simp [List.mapM_cons, digit?_digitText, ih]
  rw [ofDigits?, hdigits]
  exact dif_pos u.size

private theorem ofGroups?_groups {a b c d e : List Char} (ha : a.length = 8) (hb : b.length = 4)
    (hc : c.length = 4) (hd : d.length = 4) (he : e.length = 12) :
    ofGroups? (a ++ '-' :: b ++ '-' :: c ++ '-' :: d ++ '-' :: e) =
      ofDigits? (a ++ b ++ c ++ d ++ e) := by
  have hform : (a ++ '-' :: b ++ '-' :: c ++ '-' :: d ++ '-' :: e).length = 36 ∧
      [8, 13, 18, 23].all fun i ↦
        (a ++ '-' :: b ++ '-' :: c ++ '-' :: d ++ '-' :: e)[i]? = some '-' := by
    simp [List.getElem?_append, List.getElem?_cons, ha, hb, hc, hd, he]
  rw [ofGroups?, if_pos hform]
  simp (disch := omega) [List.drop_append, List.drop_eq_nil_of_le, ha, hb, hc, hd]

/-- The identifier is read from its text. -/
theorem ofText?_text (u : Uuid) : ofText? u.text = some u := by
  have hsize : (u.digits.map digitText).length = 32 := by rw [List.length_map, u.size]
  obtain ⟨d, ds, hds⟩ : ∃ d ds, u.digits = d :: ds :=
    List.exists_cons_of_length_pos (by rw [u.size]; decide)
  have hlength : u.text.length ≠ 32 := by simp [text, u.size]
  obtain ⟨hbrace, hlower⟩ := digitText_ne d
  have hbraces : inBraces? u.text = none := by simp [text, hds, inBraces?, hbrace]
  have hurn : afterUrn? u.text = none := by simp [afterUrn?, text, hds, hlower]
  rw [ofText?, if_neg hlength, hbraces, hurn, Option.getD_none, Option.getD_none]
  unfold text
  rw [ofGroups?_groups (by simp [u.size]) (by simp [u.size]) (by simp [u.size]) (by simp [u.size])
    (by simp [u.size])]
  rw [← ofDigits?_digits u]
  congr 1
  have hpiece (m n : Nat) : ((u.digits.map digitText).drop m).take n ++
      (u.digits.map digitText).drop (m + n) = (u.digits.map digitText).drop m := by
    rw [← List.drop_drop, List.take_append_drop]
  simp only [List.append_assoc]
  rw [hpiece 16 4, hpiece 12 4, hpiece 8 4, List.take_append_drop]

end Uuid

namespace Key

private theorem parseLong_digits {negative : Bool} {digits : List Char} {n : Int64}
    (hne : digits ≠ []) (hall : ∀ c ∈ digits, c.isDigit = true)
    (hread : Numeral.int64? negative digits = some n) :
    parseLong (String.ofList ((if negative then ['-'] else []) ++ digits)) = .ok (.long n) := by
  have hdigits : (digits.isEmpty || !digits.all Char.isDigit) = false := by
    simpa [List.all_eq_true] using ⟨hne, hall⟩
  -- The bounds of the range are too large to be computed with.
  unfold parseLong
  generalize Numeral.int64? = range at hread ⊢
  rw [String.toList_ofList]
  cases negative with
  | true =>
    simp only [ite_true, List.singleton_append, hdigits, hread, Bool.false_eq_true, ite_false]
  | false =>
    rw [if_neg Bool.false_ne_true, List.nil_append]
    split
    next hsplit =>
    split at hsplit
    · exact absurd (hall '-' List.mem_cons_self) (by decide)
    · cases hsplit
      simp only [hdigits, hread, Bool.false_eq_true, ite_false]

private theorem parseLong_text (n : Int64) :
    parseLong (String.ofList (Key.long n).text) = .ok (.long n) := by
  have hread := parseLong_digits Nat.toDigits_ne_nil (Numeral.isDigit_toDigits _)
    (Numeral.int64?_toDigits n)
  simpa only [Key.text, Numeral.signed, decide_eq_true_eq] using hread

/-- A key is read from its text by the reader of its kind. -/
theorem parse_text (k : Key) : k.kind.parse (String.ofList k.text) = .ok k := by
  cases k with
  | long n => exact parseLong_text n
  | string s =>
    simp only [kind, KeyKind.parse, parseString, Key.text, String.toList_ofList,
      Text.unquote?_quote, String.ofList_toList]
  | uuid u =>
    simp only [kind, KeyKind.parse, parseUuid, Key.text, String.toList_ofList,
      Text.unquote?_quote, Uuid.ofText?_text]

end Key

/-- What a reader of keys reads is of its kind. -/
theorem KeyKind.kind_of_parse {kind : KeyKind} {text : String} {k : Key}
    (h : kind.parse text = .ok k) : k.kind = kind := by
  cases kind with
  | long =>
    unfold KeyKind.parse Key.parseLong at h
    grind [Key.kind]
  | string =>
    unfold KeyKind.parse Key.parseString at h
    grind [Key.kind]
  | uuid =>
    unfold KeyKind.parse Key.parseUuid at h
    grind [Key.kind]

end SensorQuery
