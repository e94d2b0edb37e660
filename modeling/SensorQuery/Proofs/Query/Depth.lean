import SensorQuery.Proofs.Text.Form
import SensorQuery.Proofs.Query.Nested

/-!
# Options without a bound

Options are read with a bound on how deep they nest. The text in the parentheses of an expansion is
shorter than the text around it, so a bound beyond the length of the text is never met, and all such
bounds give the same answer, also where it is an error (`Query.read`).
-/

namespace SensorQuery

open Fallible

namespace Text

variable {s : List Char}

private theorem length_trim_le (s : List Char) : (trim s).length ≤ s.length := by
  have hend : (trimEnd (trimStart s)).length ≤ (trimStart s).length := by
    rw [trimEnd, List.length_reverse]
    exact (List.dropWhile_sublist isBlank).length_le.trans_eq List.length_reverse
  exact hend.trans (List.dropWhile_sublist isBlank).length_le

end Text

namespace Scope

/-- No piece of a list of options is longer than the list. -/
theorem length_le_of_pieces {scope : Scope} {s : List Char} {items : List (List Char)}
    (h : scope.pieces s = .ok items) {item : List Char} (hitem : item ∈ items) :
    item.length ≤ s.length := by
  cases scope with
  | request =>
    cases h
    rw [← Text.joined_splitAt '&' s]
    exact Query.length_le_joined hitem
  | expansion =>
    rw [pieces] at h
    split at h
    · next parts hparts =>
      cases h
      rw [← Text.joined_of_splitTopLevel hparts]
      exact Query.length_le_joined hitem
    · cases h

/-- What a text stands for is not longer. -/
theorem length_le_of_decode {scope : Scope} {s t : List Char} (h : scope.decode s = .ok t) :
    t.length ≤ s.length := by
  cases scope with
  | request =>
    rw [decode] at h
    split at h
    · next hdecode =>
      cases h
      exact Text.length_formDecode?_le hdecode
    · cases h
  | expansion =>
    cases h
    exact Nat.le_refl _

end Scope

namespace Query

/-- The value of an option is shorter than the option. -/
theorem length_lt_of_splitOption {scope : Scope} {item value : List Char} {name : String}
    (h : splitOption scope item = .ok (name, value)) : value.length < item.length := by
  unfold splitOption at h
  split at h
  · cases h
  · next rawName rawValue hcut =>
    obtain ⟨_, -, h⟩ := bind_eq_ok.mp h
    obtain ⟨decoded, hdecoded, h⟩ := bind_eq_ok.mp h
    cases h
    have htrim := Text.length_trim_le decoded
    have hdecode := Scope.length_le_of_decode hdecoded
    rw [(Text.cutAt?_eq_some hcut).1, List.length_append, List.length_cons]
    omega

/-- The options of an expansion are shorter than the expansion. -/
theorem length_lt_of_splitExpandItem {item path inner : List Char}
    (h : splitExpandItem item = .ok (path, some inner)) : inner.length < item.length := by
  obtain ⟨front, rfl, -⟩ := exists_of_splitExpandItem h
  simp only [List.length_append, List.length_cons, List.length_nil]
  omega

/-! ### Readers that agree on shorter texts -/

/-- The readers agree on texts that are shorter. -/
def AgreeBelow (n : Nat) (f g : List Char → Except QueryError Query) : Prop :=
  ∀ s, s.length < n → f s = g s

private theorem AgreeBelow.mono {m n : Nat} {f g : List Char → Except QueryError Query}
    (h : AgreeBelow n f g) (hmn : m ≤ n) : AgreeBelow m f g :=
  fun s hs ↦ h s (hs.trans_le hmn)

variable {ctx : Context} {f g : List Char → Except QueryError Query}

private theorem parseExpandItem_congr {item : List Char} (h : AgreeBelow item.length f g) :
    parseExpandItem ctx f item = parseExpandItem ctx g item := by
  refine bind_congr_ok fun trimmed htrimmed ↦ bind_congr_ok fun parts hparts ↦
    bind_congr_ok fun path _ ↦ congrArg (· >>= _) ?_
  obtain ⟨path, inner⟩ := parts
  cases inner with
  | none => rfl
  | some inner =>
    have hlength : inner.length < item.length := by
      have htrim := Text.length_trim_le item
      rw [← (parseItem_eq_ok htrimmed).1] at htrim
      exact (length_lt_of_splitExpandItem hparts).trans_le htrim
    simp only [parseNested, h inner hlength]

private theorem parseExpand_congr {value : List Char} (h : AgreeBelow value.length f g) :
    parseExpand ctx f value = parseExpand ctx g value := by
  refine bind_congr_ok fun parts hparts ↦ mapM_congr fun item hitem ↦ ?_
  refine parseExpandItem_congr (h.mono ?_)
  rw [← Text.joined_of_splitTopLevel (items_eq_ok.mp hparts)]
  exact length_le_joined hitem

private theorem setOption_congr {q : Query} {name : String} {value : List Char}
    (h : AgreeBelow value.length f g) :
    setOption ctx f q name value = setOption ctx g q name value := by
  rw [setOption, setOption, parseExpand_congr h]

private theorem readItems_congr {scope : Scope} {items : List (List Char)}
    (h : ∀ item ∈ items, AgreeBelow item.length f g) {q : Query} {seen : List String} :
    readItems ctx f scope q seen items = readItems ctx g scope q seen items := by
  induction items generalizing q seen with
  | nil => rfl
  | cons item items ih =>
    obtain ⟨hitem, hitems⟩ := List.forall_mem_cons.mp h
    rw [readItems, readItems, ih hitems]
    split
    · rfl
    · refine bind_congr_ok fun option hoption ↦ ?_
      obtain ⟨name, value⟩ := option
      have hvalue := length_lt_of_splitOption hoption
      simp only [setOption_congr (hitem.mono hvalue.le), ih hitems]

-- Bounds beyond the length of the text give the same answer: by induction on the bounds, which the
-- text in parentheses is again shorter than.
private theorem parseOptions_congr {depth depth' : Nat} {scope : Scope} {s : List Char}
    (h : s.length < depth) (h' : s.length < depth') :
    parseOptions ctx depth scope s = parseOptions ctx depth' scope s := by
  induction depth generalizing depth' scope s with
  | zero => cases h
  | succ depth ih =>
    cases depth' with
    | zero => cases h'
    | succ depth' =>
      rw [parseOptions, parseOptions]
      refine bind_congr_ok fun items hitems ↦ readItems_congr fun item hitem t ht ↦ ?_
      have hlength := Scope.length_le_of_pieces hitems hitem
      exact ih (by omega) (by omega)

/-! ### Reading at every depth -/

/-- The query of a list of options, however deep its expansions nest. -/
def read (ctx : Context) (scope : Scope) (s : List Char) : Except QueryError Query :=
  parseOptions ctx (s.length + 1) scope s

/-- The expansions in a value, with options of any depth. -/
def expansions (ctx : Context) (value : List Char) : Except QueryError (List (Expand Query)) :=
  parseExpand ctx (read ctx .expansion) value

private theorem parseOptions_eq_read {depth : Nat} {scope : Scope} {s : List Char}
    (h : s.length < depth) : parseOptions ctx depth scope s = read ctx scope s :=
  parseOptions_congr h (Nat.lt_succ_self _)

/-- A list of options is read item by item, and the options in parentheses by the same reader. -/
theorem read_eq (ctx : Context) (scope : Scope) (s : List Char) : read ctx scope s =
    (scope.pieces s >>= readItems ctx (read ctx .expansion) scope empty []) := by
  rw [read, parseOptions]
  refine bind_congr_ok fun items hitems ↦ readItems_congr fun item hitem t ht ↦ ?_
  exact parseOptions_eq_read (ht.trans_le (Scope.length_le_of_pieces hitems hitem))

/-- A query is read from the list of its options, a question mark in front apart. -/
theorem parse_eq_read (ctx : Context) (text : String) : parse ctx text =
    read ctx .request ((dropWord? ['?'] text.toList).getD text.toList) := rfl

end Query

end SensorQuery
