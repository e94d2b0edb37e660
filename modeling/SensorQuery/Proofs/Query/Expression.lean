import SensorQuery.Proofs.Query.Operand

/-!
# Expressions read back

An expression that could have been read is read back from its text. Its operands are read by the
tightest level, by induction on the length of the text, since what stands in parentheses, behind a
sign or among arguments is shorter; its binary operators by the levels, by induction on the tree.
-/

namespace SensorQuery

open Scanner
open RawStep (isNameChar)

namespace Expression

variable {ctx : Context} {P : Duration → Prop} {depth : Nat}

/-! ### Trees -/

/-- How tightly the expression holds together: as its operator, and beyond all of them if it is no
binary one. -/
def rank : Expression → Nat
  | .binary op _ _ => op.precedence
  | _ => 6

-- An operand as it stands in a tree: nothing holds together more tightly than parentheses.
private def rankInParens (b : Bool) (e : Expression) : Nat := if b then 6 else e.rank

private theorem le_rank_of_needsParens (op : BinaryOperator) (e : Expression) :
    op.precedence ≤ rankInParens (needsParens op false e) e := by
  have hle := op.precedence_le
  cases e with
  | binary inner left right =>
    simp only [rankInParens, needsParens, Bool.false_and, Bool.or_false, decide_eq_true_eq, rank]
    split <;> omega
  | _ => exact Nat.le_succ_of_le hle

private theorem lt_rank_of_needsParens (op : BinaryOperator) (e : Expression) :
    op.precedence < rankInParens (needsParens op true e) e := by
  have hle := op.precedence_le
  cases e with
  | binary inner left right =>
    simp only [rankInParens, needsParens, Bool.true_and, Bool.or_eq_true, decide_eq_true_eq, rank]
    split <;> omega
  | _ => exact Nat.lt_succ_of_le hle

-- At this depth the operands are read whose texts are no longer.
private def Covers (ctx : Context) (depth : Nat) : Prop :=
  ∀ (b : Bool) (e : Expression), e.Formed ctx Duration.IsPlain → b = true ∨ e.rank = 6 →
    (inParens b e.text).length ≤ depth → Reads (scanOperand ctx depth) [] (inParens b e.text) e

private theorem length_inParens_le (b : Bool) (text : List Char) :
    text.length ≤ (inParens b text).length := by
  cases b <;> simp [inParens]
  omega

private theorem spans_piece {e : Expression} (he : e.Formed ctx Duration.IsPlain)
    (hcovers : Covers ctx depth) (hspans : Spans (scanOperand ctx depth) e.rank e.text e) {b : Bool}
    (hlength : (inParens b e.text).length ≤ depth) :
    Spans (scanOperand ctx depth) (rankInParens b e) (inParens b e.text) e := by
  cases b with
  | true => exact (hcovers true e he (.inl rfl) hlength).spans _
  | false => exact hspans

-- Where operands are read, so are trees of them: by induction on the tree.
private theorem spans_of_covers (hcovers : Covers ctx depth) {e : Expression}
    (he : e.Formed ctx Duration.IsPlain) (hlength : e.text.length ≤ depth) :
    Spans (scanOperand ctx depth) e.rank e.text e := by
  have hcovered {e : Expression} (he : e.Formed ctx Duration.IsPlain) (hrank : e.rank = 6)
      (hlength : e.text.length ≤ depth) : Spans (scanOperand ctx depth) e.rank e.text e :=
    Reads.spans (hcovers false e he (.inr hrank) hlength) _
  induction he with
  | constant fit => exact hcovered (.constant fit) rfl hlength
  | path sorted free => exact hcovered (.path sorted free) rfl hlength
  | not formed check _ => exact hcovered (.not formed check) rfl hlength
  | negate formed _ => exact hcovered (.negate formed) rfl hlength
  | call formed named free made _ => exact hcovered (.call formed named free made) rfl hlength
  | @binary op left right formedLeft formedRight checkLeft checkRight ihLeft ihRight =>
    rw [text] at hlength
    simp only [List.length_append, List.length_cons] at hlength
    have hleft := length_inParens_le (needsParens op false left) left.text
    have hright := length_inParens_le (needsParens op true right) right.text
    have hspansLeft := spans_piece (b := needsParens op false left) formedLeft hcovers
      (ihLeft (by omega)) (by omega)
    have hspansRight := spans_piece (b := needsParens op true right) formedRight hcovers
      (ihRight (by omega)) (by omega)
    have hspans := hspansLeft.binary (le_rank_of_needsParens op left)
      (hspansRight.reads (lt_rank_of_needsParens op right)) .space .space
      (fun rest ↦ opens_isWhitespace.stops_inParens _ (opens_isWhitespace.stops_text formedRight))
      checkLeft checkRight
    simp only [List.append_assoc, List.cons_append, List.nil_append] at hspans
    rw [text, rank, List.append_assoc]
    exact hspans

/-! ### Operators in front -/

private theorem stops_append {p : Char → Bool} {w : List Char} (hne : w ≠ []) (h : Stops p w)
    (rest : List Char) : Stops p (w ++ rest) := by
  cases w with
  | nil => exact absurd rfl hne
  | cons c w => exact (stops_cons _ _ _).mpr ((stops_cons _ _ _).mp h)

private theorem formed_path_inv {q : PropertyPath} (h : (Expression.path q).Formed ctx P) :
    ∃ w more, q.Formed ctx w more ∧ w ∉ reservedWords := by
  cases h with
  | path sorted free => exact ⟨_, _, sorted, free⟩

private theorem formed_call_inv {name : String} {arguments : List Expression}
    (h : (Expression.call name arguments).Formed ctx P) : IsFunctionName name.toList := by
  cases h with
  | call formed named free made => exact named

private theorem not_mem_takeWhile_call {name : String} (h : IsFunctionName name.toList)
    {arguments : List Expression} (rest : List Char) :
    '-' ∉ ((Expression.call name arguments).text ++ rest).takeWhile isTimeChar := by
  rw [text]
  simp only [List.append_assoc, List.cons_append]
  intro hmem
  have hname := h.all _ (mem_of_mem_takeWhile ((stops_cons _ _ _).mpr (by decide)) hmem)
  exact absurd hname (by decide)

-- What stands behind a minus sign begins neither with a digit nor as a time.
private theorem negated_missed {e : Expression} (he : e.Formed ctx P) {rest : List Char}
    (h : Ends rest) :
    Stops Char.isDigit (inParens (!standsBare .negate e) e.text ++ rest) ∧
      '-' ∉ (inParens (!standsBare .negate e) e.text ++ rest).takeWhile isTimeChar := by
  have hparens : Stops Char.isDigit (inParens true e.text ++ rest) ∧
      '-' ∉ (inParens true e.text ++ rest).takeWhile isTimeChar := by
    have hstops {p : Char → Bool} (hp : p '(' = false) : Stops p (inParens true e.text ++ rest) :=
      (stops_cons _ _ _).mpr hp
    refine ⟨hstops (by decide), ?_⟩
    rw [(hstops (by decide) : Stops isTimeChar _).takeWhile_eq_nil]
    simp
  cases e with
  | path q =>
    obtain ⟨w, more, sorted, -⟩ := formed_path_inv he
    refine ⟨?_, fun hmem ↦ not_mem_path sorted
      (mem_of_mem_takeWhile (h.stops (by decide)) hmem)⟩
    simp only [standsBare, Bool.not_true, inParens, Bool.false_eq_true, ite_false, text]
    rw [sorted.text_eq, List.append_assoc]
    refine stops_append ?_ sorted.first.stops_isDigit _
    intro hnil
    have hfirst := sorted.first
    rw [hnil] at hfirst
    cases hfirst
  | call name arguments =>
    have hnamed := formed_call_inv he
    refine ⟨?_, not_mem_takeWhile_call hnamed rest⟩
    simp only [standsBare, Bool.not_true, inParens, Bool.false_eq_true, ite_false, text,
      List.append_assoc, List.cons_append]
    exact stops_append hnamed.ne_nil hnamed.stops_isDigit _
  | constant c => exact hparens
  | binary op left right => exact hparens
  | unary op operand => exact hparens

/-- A minus sign that no literal begins with is nothing else than a sign. -/
theorem scanPrimary_minus_missed {expression : Scanner ExpressionError Expression}
    {s : List Char} (hliteral : Literal.scan ('-' :: s) = .missed) :
    scanPrimary ctx expression ('-' :: s) = .missed := by
  have hstops {p : Char → Bool} (hp : p '-' = false) : Stops p ('-' :: s) :=
    (stops_cons _ _ _).mpr hp
  exact scanPrimary_missed_of_stops (hstops (by decide)) (hstops (by decide))
    (hstops (by decide)) hliteral

private theorem rank_of_standsBare {op : UnaryOperator} {e : Expression}
    (h : (!standsBare op e) = false) : e.rank = 6 := by
  cases e with
  | binary inner left right => cases h
  | _ => rfl

private theorem scanOperand_piece {op : UnaryOperator} {e : Expression}
    (he : e.Formed ctx Duration.IsPlain) (hcovers : Covers ctx depth)
    (hlength : (inParens (!standsBare op e) e.text).length ≤ depth) {rest : List Char}
    (h : Ends rest) :
    scanOperand ctx depth (inParens (!standsBare op e) e.text ++ rest) = .found e rest := by
  refine hcovers _ e he ?_ hlength rest ⟨h, by simp⟩
  cases hb : (!standsBare op e) with
  | true => exact .inl rfl
  | false => exact .inr (rank_of_standsBare hb)

private theorem scanOperand_not {e : Expression} (he : e.Formed ctx Duration.IsPlain)
    (hcheck : checkNegand e = .ok ()) (hcovers : Covers ctx depth)
    (hlength : (inParens (!standsBare .not e) e.text).length ≤ depth) {rest : List Char}
    (h : Ends rest) :
    scanOperand ctx (depth + 1) ((Expression.unary .not e).text ++ rest) =
      .found (.unary .not e) rest := by
  have htext : (Expression.unary .not e).text ++ rest =
      "not".toList ++ ' ' :: (inParens (!standsBare .not e) e.text ++ rest) := by
    rw [text]
    rfl
  have hblank : Stops Char.isWhitespace (inParens (!standsBare .not e) e.text ++ rest) :=
    opens_isWhitespace.stops_inParens _ (opens_isWhitespace.stops_text he)
  have hnot : (scanNot : Scanner ExpressionError Unit)
      ("not".toList ++ ' ' :: (inParens (!standsBare .not e) e.text ++ rest)) =
        .found () (inParens (!standsBare .not e) e.text ++ rest) := by
    unfold scanNot
    rw [bind_found (Literal.scanKeyword_append "not" ((stops_cons _ _ _).mpr (by decide))),
      blanks_space hblank]
  rw [htext, scanOperand, bind_found (optional_found hnot)]
  simp only
  rw [bind_found (scanOperand_piece he hcovers hlength h), hcheck, bind_found (ofExcept_ok () rest)]
  rfl

private theorem scanOperand_negate {e : Expression} (he : e.Formed ctx Duration.IsPlain)
    (hcovers : Covers ctx depth)
    (hlength : (inParens (!standsBare .negate e) e.text).length ≤ depth) {rest : List Char}
    (h : Ends rest) :
    scanOperand ctx (depth + 1) ((Expression.unary .negate e).text ++ rest) =
      .found (.unary .negate e) rest := by
  have htext : (Expression.unary .negate e).text ++ rest =
      '-' :: (inParens (!standsBare .negate e) e.text ++ rest) := by
    rw [text]
    rfl
  have hblank : Stops Char.isWhitespace (inParens (!standsBare .negate e) e.text ++ rest) :=
    opens_isWhitespace.stops_inParens _ (opens_isWhitespace.stops_text he)
  have hminus : (scanMinus : Scanner ExpressionError Unit)
      ('-' :: (inParens (!standsBare .negate e) e.text ++ rest)) =
        .found () (inParens (!standsBare .negate e) e.text ++ rest) := by
    unfold scanMinus
    rw [bind_found (char_cons '-' _), blanks_of_stops hblank]
  obtain ⟨hdigit, hhyphen⟩ := negated_missed he h
  rw [htext, scanOperand,
    bind_found (optional_missed (scanNot_missed_of_stops ((stops_cons _ _ _).mpr (by decide))))]
  refine (orElse_missed (scanPrimary_minus_missed
    (Literal.scan_minus_missed hdigit hhyphen))).trans ?_
  rw [bind_found hminus, bind_found (scanOperand_piece he hcovers hlength h)]
  rfl

/-! ### The whole -/

private theorem rank_pos (e : Expression) : 0 < e.rank := by
  cases e with
  | binary op left right => exact op.precedence_pos
  | _ => exact Nat.succ_pos 5

private theorem Covers.reads (hcovers : Covers ctx depth) {e : Expression}
    (he : e.Formed ctx Duration.IsPlain) (hlength : e.text.length ≤ depth) :
    Reads (scanOperand ctx depth) BinaryOperator.levels e.text e :=
  (spans_of_covers hcovers he hlength).reads (rank_pos e)

private theorem length_argument_le {e : Expression} {es : List Expression} (h : e ∈ es) :
    e.text.length ≤ (argumentsText es).length := by
  cases es with
  | nil => cases h
  | cons a es =>
    rw [argumentsText_cons, List.length_append]
    rcases List.mem_cons.mp h with rfl | h
    · omega
    · obtain ⟨front, back, rfl⟩ := List.append_of_mem h
      simp only [List.flatMap_append, List.flatMap_cons, List.length_append, List.length_cons]
      omega

-- At each depth the operands are read whose texts are no longer: by induction on the depth, since
-- the parts of an operand that are nested in it have shorter texts.
private theorem covers (ctx : Context) (depth : Nat) : Covers ctx depth := by
  induction depth with
  | zero =>
    intro b e he _ hlength
    have hle := length_inParens_le b e.text
    exact absurd (List.length_eq_zero_iff.mp (by omega)) he.text_ne_nil
  | succ depth ih =>
    intro b e he hb hlength rest hrest
    have h := hrest.ends
    cases b with
    | true =>
      refine scanOperand_parens he (ih.reads he ?_) rest
      simp only [inParens, ite_true, List.length_cons, List.length_append] at hlength
      omega
    | false =>
      simp only [inParens, Bool.false_eq_true, ite_false] at hlength ⊢
      cases he with
      | constant fit => exact scanOperand_constant fit h
      | path sorted free => exact scanOperand_path sorted free h
      | @binary op left right _ _ _ _ =>
        have hle := op.precedence_le
        simp only [rank, Bool.false_eq_true, false_or] at hb
        omega
      | not formed check =>
        refine scanOperand_not formed check ih ?_ h
        simp only [text, UnaryOperator.text, List.length_append, List.length_cons] at hlength
        omega
      | negate formed =>
        refine scanOperand_negate formed ih ?_ h
        simp only [text, UnaryOperator.text, List.length_append, List.length_cons] at hlength
        omega
      | call formed named free made =>
        refine scanOperand_call formed named free made (fun a ha ↦ ih.reads (formed a ha) ?_) rest
        have hle := length_argument_le ha
        simp only [text, List.length_append, List.length_cons] at hlength
        omega

/-- An expression that could have been read, with durations that are finite, is read back from its
text in front of whatever may follow it. -/
theorem scan_text {e : Expression} (he : e.Formed ctx Duration.IsPlain) {rest : List Char}
    (h : Closes BinaryOperator.levels rest) : scan ctx (e.text ++ rest) = .found e rest := by
  refine (covers ctx _).reads he ?_ rest h
  rw [List.length_append]
  omega

end Expression

end SensorQuery
