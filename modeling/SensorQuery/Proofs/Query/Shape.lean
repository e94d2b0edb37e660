import SensorQuery.Proofs.Query.Operand
import SensorQuery.Proofs.Query.Pieces

/-!
# How texts look from outside

The texts of paths, expressions and orders begin and end with characters that are not blank, close
what they open, and have no separator of a list outside quotes and parentheses. Therefore lists of
them can be cut into the same texts again.
-/

namespace SensorQuery

open Scanner
open RawStep (isNameChar)
open PropertyPath (isPathChar)

namespace Text

private theorem inRanges_disjoint {r r' : List (Nat × Nat)} {c : Char}
    (h : (r.all fun a ↦ r'.all fun b ↦ a.2 < b.1 || b.2 < a.1) = true)
    (hc : inRanges r c = true) : inRanges r' c = false := by
  rw [Bool.eq_false_iff]
  intro hc'
  obtain ⟨a, ha, hac⟩ := List.any_eq_true.mp hc
  obtain ⟨b, hb, hbc⟩ := List.any_eq_true.mp hc'
  have hab := List.all_eq_true.mp (List.all_eq_true.mp h a ha) b hb
  simp only [Bool.and_eq_true, Bool.or_eq_true, decide_eq_true_eq] at hac hbc hab
  omega

/-- No letter and no number is blank. -/
theorem isBlank_of_isAlphanumeric {c : Char} (h : isAlphanumeric c = true) : isBlank c = false := by
  unfold isAlphanumeric at h
  split at h
  · next hascii =>
    rw [Bool.eq_false_iff]
    intro hblank
    have hranges : c.toNat < 0x21 := by
      simp only [isBlank, inRanges, blankRanges, List.any_cons, List.any_nil, Bool.or_false,
        Bool.or_eq_true, Bool.and_eq_true, decide_eq_true_eq] at hblank
      omega
    have hfrom {d : Char} (hd : 0x30 ≤ d.toNat) (hle : d.val ≤ c.val) : 0x30 ≤ c.toNat :=
      Nat.le_trans hd (UInt32.le_iff_toNat_le.mp hle)
    have halphanum : 0x30 ≤ c.toNat := by
      rcases Bool.or_eq_true_iff.mp h with hletter | hdigit
      · rcases Bool.or_eq_true_iff.mp hletter with hupper | hlower
        · exact hfrom (d := 'A') (by decide) (of_decide_eq_true hupper).1
        · exact hfrom (d := 'a') (by decide)
            (of_decide_eq_true (Bool.and_eq_true_iff.mp hlower).1)
      · exact hfrom (d := '0') (by decide) (of_decide_eq_true (Bool.and_eq_true_iff.mp hdigit).1)
    omega
  · rcases Bool.or_eq_true_iff.mp h with h | h
    · exact inRanges_disjoint (by decide +kernel) h
    · exact inRanges_disjoint (by decide +kernel) h

end Text

/-- A character of names, paths, numbers and times, which need no quotes. -/
def isPlainChar (c : Char) : Bool := isPathChar c || ['-', '+', ':'].contains c

/-- A name is made of plain characters. -/
theorem isPlainChar_of_isNameChar {c : Char} (h : isNameChar c = true) : isPlainChar c = true := by
  rw [isPlainChar, isPathChar, h, Bool.true_or, Bool.true_or]

private theorem isPlainChar_of_isTimeChar {c : Char} (h : isTimeChar c = true) :
    isPlainChar c = true := by
  rw [isTimeChar, Bool.or_eq_true] at h
  rcases h with h | h
  · exact isPlainChar_of_isNameChar (RawStep.isNameChar_of_isDigit c h)
  · have hall : ['-', '+', ':', '.', '/', 'P', 'Y', 'M', 'W', 'D', 'T', 'H', 'S', 'Z'].all
      isPlainChar = true := by decide
    exact List.all_eq_true.mp hall c (List.contains_iff_mem.mp h)

private theorem isBlank_of_isPlainChar {c : Char} (h : isPlainChar c = true) :
    Text.isBlank c = false := by
  simp only [isPlainChar, isPathChar, isNameChar, Bool.or_eq_true, beq_iff_eq,
    List.contains_iff_mem] at h
  rcases h with (((h | rfl) | rfl) | h) | h
  · exact Text.isBlank_of_isAlphanumeric h
  · decide
  · decide
  · have hall : ['@', '/', '[', ']'].all (fun c ↦ !Text.isBlank c) = true := by decide
    simpa using List.all_eq_true.mp hall c h
  · have hall : ['-', '+', ':'].all (fun c ↦ !Text.isBlank c) = true := by decide
    simpa using List.all_eq_true.mp hall c h

/-! ### Items -/

/-- A character that separates the items of a list of paths or orders, or the options of an
expansion. -/
def isListMark (c : Char) : Bool := c == ',' || c == ';'

/-- A plain character is no quote and no parenthesis. -/
theorem isBare_of_isPlainChar {c : Char} (h : isPlainChar c = true) :
    Text.isBare c = true := by
  cases hbare : Text.isBare c with
  | true => rfl
  | false =>
    simp only [Text.isBare, Bool.not_eq_false', List.contains_iff_mem, List.mem_cons,
      List.not_mem_nil, or_false] at hbare
    rcases hbare with rfl | rfl | rfl <;> exact absurd h (by decide)

/-- A plain character is no mark of a list. -/
theorem isListMark_of_isPlainChar {c : Char} (h : isPlainChar c = true) :
    isListMark c = false := by
  rw [Bool.eq_false_iff]
  intro hmark
  simp only [isListMark, Bool.or_eq_true, beq_iff_eq] at hmark
  rcases hmark with rfl | rfl <;> exact absurd h (by decide)

/-- The text can be an item of any list: nothing of it is trimmed, and no list is cut in it. -/
structure IsItem (s : List Char) : Prop where
  edged : Text.Edged s
  sealed : Text.Sealed isListMark s

/-- A text of plain characters is an item. -/
theorem isItem_of_plain {s : List Char} (hne : s ≠ []) (h : ∀ c ∈ s, isPlainChar c = true) :
    IsItem s := by
  refine ⟨⟨hne, ?_, ?_⟩, Text.sealed_of_bare fun c hc ↦ ⟨?_, ?_⟩⟩
  · exact fun c hc ↦ isBlank_of_isPlainChar (h c (List.mem_of_mem_head? hc))
  · exact fun c hc ↦ isBlank_of_isPlainChar (h c (List.mem_of_getLast? hc))
  · exact isBare_of_isPlainChar (h c hc)
  · exact isListMark_of_isPlainChar (h c hc)

/-- At each of the marks alone, no list is cut in an item. -/
theorem IsItem.sealed_at {s : List Char} (h : IsItem s) {mark : Char}
    (hmark : isListMark mark = true) : Text.Sealed (· == mark) s :=
  h.sealed.mono fun _ hc ↦ eq_of_beq hc ▸ hmark

private theorem IsItem.around {s t : List Char} (hs : IsItem s) (mid : List Char)
    (hmid : Text.Sealed isListMark mid) (ht : IsItem t) : IsItem (s ++ (mid ++ t)) :=
  ⟨hs.edged.around mid ht.edged, hs.sealed.append (hmid.append ht.sealed)⟩

/-- Two items are an item as one text. -/
theorem IsItem.append {s t : List Char} (hs : IsItem s) (ht : IsItem t) : IsItem (s ++ t) :=
  hs.around [] rfl ht

/-- A text that closes what it opens is an item in parentheses. -/
theorem isItem_parens {s : List Char} (h : Text.walk isListMark (false, 1) s = some (false, 1)) :
    IsItem ('(' :: s ++ [')']) := by
  refine ⟨⟨List.cons_ne_nil _ _, ?_, ?_⟩, Text.sealed_parens h⟩
  · rintro c ⟨⟩
    decide
  · rw [List.getLast?_concat]
    rintro c ⟨⟩
    decide

private theorem isItem_quote (s : List Char) : IsItem (Text.quote s) := by
  refine ⟨⟨List.cons_ne_nil _ _, ?_, ?_⟩, Text.sealed_quote _ s⟩
  · rintro c ⟨⟩
    decide
  · rw [Text.quote, ← List.cons_append, List.getLast?_concat]
    rintro c ⟨⟩
    decide

/-! ### Constants -/

private theorem plain_of_within {α : Type} {p : Scanner Empty α} {s rest : List Char} {a : α}
    (hp : Within isTimeChar p) (h : p (s ++ rest) = .found a rest) :
    ∀ c ∈ s, isPlainChar c = true := by
  obtain ⟨w, hw, hall⟩ := hp.reads h
  obtain rfl := List.append_cancel_right hw
  exact fun c hc ↦ isPlainChar_of_isTimeChar (hall c hc)

private theorem plain_instant {t : Instant} (ht : t.date.IsShort) :
    ∀ c ∈ t.text, isPlainChar c = true :=
  plain_of_within Instant.within_scan (t.scan_text ht [])

private theorem plain_duration {d : Duration} (hd : d.IsPlain) :
    ∀ c ∈ d.text, isPlainChar c = true :=
  plain_of_within Duration.within_scan (d.scan_text hd (stops_nil _) (stops_nil _))

namespace Literal

private theorem isItem_spelling {n : Spelling} (hn : n.WellFormed) : IsItem n.text := by
  have hdigit {ds : List Char} (h : ∀ c ∈ ds, c.isDigit = true) : ∀ c ∈ ds, isPlainChar c = true :=
    fun c hc ↦ isPlainChar_of_isNameChar (RawStep.isNameChar_of_isDigit c (h c hc))
  have hsign : ∀ c ∈ n.signText, isPlainChar c = true := by
    unfold Spelling.signText
    split
    · exact List.all_eq_true.mp (by decide)
    · exact fun c hc ↦ by cases hc
  have hfraction : ∀ c ∈ n.fractionText, isPlainChar c = true := by
    unfold Spelling.fractionText
    cases h : n.fraction with
    | none => exact fun c hc ↦ by cases hc
    | some ds => exact List.forall_mem_cons.mpr ⟨by decide, hdigit (hn.fraction ds h).2⟩
  have hpower : ∀ c ∈ n.powerText, isPlainChar c = true := by
    unfold Spelling.powerText
    cases h : n.power with
    | none => exact fun c hc ↦ by cases hc
    | some p =>
      obtain ⟨hmark, hpsign, -, hdigits⟩ := hn.power p h
      refine List.forall_mem_cons.mpr ⟨?_, List.forall_mem_append.mpr ⟨?_, hdigit hdigits⟩⟩
      · rcases hmark with hmark | hmark <;> rw [hmark] <;> decide
      · intro c hc
        rcases hpsign c (Option.mem_toList.mp hc) with rfl | rfl <;> decide
  rw [Spelling.text_eq]
  refine isItem_of_plain ?_ ?_
  · exact fun h ↦ hn.whole.1 (List.append_eq_nil_iff.mp (List.append_eq_nil_iff.mp h).2).1
  · simp only [List.forall_mem_append]
    exact ⟨hsign, hdigit hn.whole.2, hfraction, hpower⟩

/-- The text of a constant that could have been read can stand in any list. -/
theorem isItem_text {c : Literal} (hc : c.Fit Duration.IsPlain) (hne : c.text ≠ []) :
    IsItem c.text := by
  have hword (s : List Char) (hne : s ≠ []) (h : s.all isPlainChar = true) : IsItem s :=
    isItem_of_plain hne (List.all_eq_true.mp h)
  cases c with
  | null => exact hword _ hne (by decide)
  | boolean b => cases b <;> exact hword _ hne (by decide)
  | integer i =>
    obtain ⟨n, hn, htext, -⟩ := Spelling.exists_of_integer i
    rw [show (integer i).text = n.text from htext.symm]
    exact isItem_spelling hn
  | double x =>
    obtain ⟨n, hn, htext, -⟩ := Spelling.exists_of_double hc
    rw [show (double x).text = n.text from htext.symm]
    exact isItem_spelling hn
  | string s => exact isItem_quote _
  | dateTime t => exact isItem_of_plain hne (plain_instant hc)
  | date d => exact isItem_of_plain hne (plain_of_within Date.within_scan (d.scan_text hc []))
  | time c =>
    exact isItem_of_plain hne (plain_of_within Clock.within_scan
      (c.scan_text (stops_nil _) (stops_nil _)))
  | duration d =>
    have hquote : '\'' ∉ d.text := fun hmem ↦ absurd (plain_duration hc _ hmem) (by decide)
    have htext : (duration d).text = "duration".toList ++ Text.quote d.text := by
      rw [Text.quote, Text.doubled_of_not_mem hquote]
      rfl
    rw [htext]
    exact (hword _ (by decide) (by decide)).append (isItem_quote _)
  | interval i =>
    refine isItem_of_plain hne (List.forall_mem_append.mpr ⟨?_, List.forall_mem_cons.mpr
      ⟨by decide, ?_⟩⟩) <;> cases i
    · exact plain_instant hc.1
    · exact plain_instant hc.1
    · exact plain_duration hc.1
    · exact plain_instant hc.2
    · exact plain_duration hc.2
    · exact plain_instant hc.2
  | geometry wkt =>
    have htext : (geometry wkt).text = "geography".toList ++ Text.quote wkt.toList := rfl
    rw [htext]
    exact (hword _ (by decide) (by decide)).append (isItem_quote _)

end Literal

/-! ### Expressions -/

/-- The text of a property path is an item. -/
theorem PropertyPath.Sorted.isItem_text {ctx : Context} {p : PropertyPath} {w : String}
    {more : List RawStep} (h : p.Sorted ctx w more) : IsItem p.text := by
  refine isItem_of_plain ?_ fun c hc ↦ ?_
  · rw [h.text_eq]
    intro hnil
    have hword := (List.append_eq_nil_iff.mp hnil).1
    rcases h.name.1 with hw | hw
    · rw [hw] at hword
      exact absurd hword (by decide)
    · exact hw.1 hword
  · rw [isPlainChar, h.isPathChar_text c hc, Bool.true_or]

namespace Expression

variable {ctx : Context}

private theorem isItem_inParens {text : List Char} (h : IsItem text) (b : Bool) :
    IsItem (inParens b text) := by
  unfold inParens
  cases b with
  | false => exact h
  | true => exact isItem_parens (h.sealed.walk (.inr rfl))

-- Within parentheses, commas between items separate nothing.
private theorem walk_arguments {arguments : List Expression}
    (h : ∀ e ∈ arguments, IsItem e.text) :
    Text.walk isListMark (false, 1) (argumentsText arguments) = some (false, 1) := by
  have hcomma : Text.walk isListMark (false, 1) [',', ' '] = some (false, 1) := rfl
  cases arguments with
  | nil => rfl
  | cons e es =>
    obtain ⟨he, hes⟩ := List.forall_mem_cons.mp h
    rw [argumentsText_cons, Text.walk_append, he.sealed.walk (.inr rfl), Option.bind_some]
    induction es with
    | nil => rfl
    | cons b es ih =>
      obtain ⟨hb, hes⟩ := List.forall_mem_cons.mp hes
      rw [List.flatMap_cons, Text.walk_append, Text.walk_append, hcomma, Option.bind_some,
        hb.sealed.walk (.inr rfl), Option.bind_some]
      exact ih (List.forall_mem_cons.mpr ⟨he, hes⟩) hes

/-- The text of an expression that could have been read can stand in any list. -/
theorem isItem_text {e : Expression} (h : e.Formed ctx Duration.IsPlain) : IsItem e.text := by
  induction h with
  | @constant c fit =>
    have hne : (constant c).text ≠ [] :=
      Formed.text_ne_nil (.constant fit : (constant c).Formed ctx _)
    exact Literal.isItem_text fit hne
  | path sorted free => exact sorted.isItem_text
  | @binary op left right _ _ _ _ ihLeft ihRight =>
    have hword : Text.Sealed isListMark (' ' :: op.keyword.toList ++ [' ']) := by
      cases op <;> rfl
    have htext : (binary op left right).text = inParens (needsParens op false left) left.text ++
        ((' ' :: op.keyword.toList ++ [' ']) ++
          inParens (needsParens op true right) right.text) := by
      simp [text]
    rw [htext]
    exact (isItem_inParens ihLeft _).around _ hword (isItem_inParens ihRight _)
  | @not operand _ _ ih =>
    have hword : IsItem ['n', 'o', 't'] :=
      isItem_of_plain (List.cons_ne_nil _ _) (List.all_eq_true.mp (by decide))
    exact hword.around [' '] rfl (isItem_inParens ih _)
  | @negate operand _ ih =>
    have hminus : IsItem ['-'] :=
      isItem_of_plain (List.cons_ne_nil _ _) (List.all_eq_true.mp (by decide))
    exact hminus.append (isItem_inParens ih _)
  | @call name arguments _ named _ _ ih =>
    have hname : IsItem name.toList :=
      isItem_of_plain named.ne_nil fun c hc ↦ isPlainChar_of_isNameChar (named.all c hc)
    rw [text, List.append_assoc]
    exact hname.append (isItem_parens (walk_arguments ih))

end Expression

/-- The text of an order is an item. -/
theorem Order.isItem_text {ctx : Context} {o : Order}
    (h : o.expression.Formed ctx Duration.IsPlain) : IsItem o.text := by
  unfold Order.text
  split
  · have hword : IsItem "desc".toList :=
      isItem_of_plain (by decide) (List.all_eq_true.mp (by decide))
    exact (Expression.isItem_text h).around [' '] rfl hword
  · rw [List.append_nil]
    exact Expression.isItem_text h

end SensorQuery
