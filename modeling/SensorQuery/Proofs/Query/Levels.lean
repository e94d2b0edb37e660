import SensorQuery.Proofs.Query.Formed

/-!
# Levels of operators

How the chains of binary operators read a text, over an arbitrary reader of operands. A text that
the tighter levels read is read by a level (`Reads`), and where a text is a left operand, its level
goes on from it with turns to spare (`Chains`). The two carry the left spine of a tree through its
level: one operator more on the right is one turn of the chain. A tree is read by all levels looser
than its operator (`Spans`).
-/

namespace SensorQuery

open Scanner
open RawStep (isNameChar)

/-- A name ends, and so does any operand, where blanks follow. -/
theorem Scanner.IsGap.ends {gap : List Char} (hgap : IsGap gap) (s : List Char) :
    Ends (gap ++ s) := by
  obtain ⟨c, gap, rfl⟩ := List.exists_cons_of_ne_nil hgap.ne_nil
  exact (ends_cons _ _).mpr ((ends_cons _ _).mp (ends_of_blank hgap.blank))

private theorem Scanner.IsGap.stops_isNameChar {gap : List Char} (hgap : IsGap gap)
    (s : List Char) :
    Stops isNameChar (gap ++ s) := (hgap.ends s).stops (by decide)

namespace BinaryOperator

/-- The words of operators are made of name characters. -/
theorem isNameChar_keyword (op : BinaryOperator) :
    ∀ c ∈ op.keyword.toList, isNameChar c = true := by
  cases op <;> exact List.all_eq_true.mp (by decide)

private theorem keyword_injective {op op' : BinaryOperator}
    (h : op.keyword.toList = op'.keyword.toList) :
    op = op' := by
  cases op <;> cases op' <;> first | rfl | exact absurd h (by decide)

/-- The words of operators are not empty. -/
theorem keyword_ne_nil (op : BinaryOperator) : op.keyword.toList ≠ [] := by
  cases op <;> decide

private theorem stops_isWhitespace_name {name : List Char} (hne : name ≠ [])
    (hname : ∀ c ∈ name, isNameChar c = true) (rest : List Char) :
    Stops Char.isWhitespace (name ++ rest) := by
  cases name with
  | nil => exact absurd rfl hne
  | cons c name =>
    exact (stops_cons _ _ _).mpr
      (RawStep.not_isWhitespace_of_isNameChar c (hname c List.mem_cons_self))

/-- A word behind blanks is no operator of a level that has no such keyword. -/
theorem scan_word_missed {ε : Type} {ops : List BinaryOperator} {gap name rest : List Char}
    (hgap : IsGap gap) (hname : ∀ c ∈ name, isNameChar c = true) (hne : name ≠ [])
    (hrest : Stops isNameChar rest) (hops : ∀ op ∈ ops, op.keyword.toList ≠ name) :
    (scan ops : Scanner ε BinaryOperator) (gap ++ (name ++ rest)) = .missed := by
  unfold scan
  rw [bind_found (blanks1_append hgap (stops_isWhitespace_name hne hname rest))]
  apply firstOf_eq_missed
  intro p hp
  obtain ⟨op, hop, rfl⟩ := List.mem_map.mp hp
  exact bind_missed (Literal.scanKeyword_missed op.isNameChar_keyword hname hrest (hops op hop))

/-- An operator of the level is read between blanks. -/
theorem scan_append {ε : Type} {ops : List BinaryOperator} {op : BinaryOperator} (hop : op ∈ ops)
    {before after s : List Char} (hbefore : IsGap before) (hafter : IsGap after)
    (hs : Stops Char.isWhitespace s) :
    (scan ops : Scanner ε BinaryOperator) (before ++ (op.keyword.toList ++ (after ++ s))) =
      .found op s := by
  have hblank : Stops isNameChar (after ++ s) := hafter.stops_isNameChar s
  have hfound : (do
      Literal.scanKeyword op.keyword
      blanks
      pure op : Scanner ε BinaryOperator) (op.keyword.toList ++ (after ++ s)) = .found op s := by
    rw [bind_found (Literal.scanKeyword_append op.keyword hblank),
      bind_found (blanks_append hafter.blank hs)]
    rfl
  unfold scan
  rw [bind_found (blanks1_append hbefore
    (stops_isWhitespace_name op.keyword_ne_nil op.isNameChar_keyword _))]
  apply firstOf_of_agree
  · intro p hp
    obtain ⟨op', -, rfl⟩ := List.mem_map.mp hp
    by_cases heq : op' = op
    · rw [heq]
      exact .inr hfound
    · refine .inl (bind_missed ?_)
      refine Literal.scanKeyword_missed op'.isNameChar_keyword op.isNameChar_keyword hblank ?_
      exact fun hk ↦ heq (keyword_injective hk)
  · exact ⟨_, List.mem_map.mpr ⟨op, hop, rfl⟩, hfound⟩

/-- No operator binds more tightly than 5. -/
theorem precedence_le (op : BinaryOperator) : op.precedence ≤ 5 := by
  cases op <;> decide

/-- Every operator has a level. -/
theorem precedence_pos (op : BinaryOperator) : 0 < op.precedence := by
  cases op <;> decide

/-- The level of an operator stands where its precedence says. -/
theorem exists_level (op : BinaryOperator) : ∃ ops, op ∈ ops ∧
    levels.drop (op.precedence - 1) = ops :: levels.drop op.precedence := by
  cases op <;> exact ⟨_, by decide, rfl⟩

/-- The operators of the levels from one on bind tighter than those of the levels before. -/
theorem lt_precedence {k : Nat} {ops : List BinaryOperator} (hops : ops ∈ levels.drop k)
    {op : BinaryOperator} (hop : op ∈ ops) : k < op.precedence := by
  have hall : ∀ k < 6, ∀ ops ∈ levels.drop k, ∀ op ∈ ops, k < op.precedence := by decide
  by_cases hk : k < 6
  · exact hall k hk ops hops op hop
  · rw [List.drop_eq_nil_of_le (by have : levels.length = 5 := rfl; omega)] at hops
    cases hops

end BinaryOperator

namespace Expression

/-- What may follow an operand of the levels: the end of an operand, and no operator of theirs. -/
structure Closes (levels : List (List BinaryOperator)) (rest : List Char) : Prop where
  ends : Ends rest
  missed : ∀ ops ∈ levels,
    (BinaryOperator.scan ops : Scanner ExpressionError BinaryOperator) rest = .missed

/-- No operator follows where no blank does. -/
theorem closes_of_stops (levels : List (List BinaryOperator)) {rest : List Char} (h : Ends rest)
    (hblank : Stops Char.isWhitespace rest) : Closes levels rest :=
  ⟨h, fun _ _ ↦ bind_missed (blanks1_missed hblank)⟩

/-- No operator is read from blanks. -/
theorem closes_of_blank (levels : List (List BinaryOperator)) {rest : List Char}
    (hblank : ∀ c ∈ rest, c.isWhitespace = true) : Closes levels rest := by
  refine ⟨ends_of_blank hblank, fun ops _ ↦ ?_⟩
  cases rest with
  | nil => exact bind_missed (blanks1_missed (stops_nil _))
  | cons c rest =>
    have hgap : IsGap (c :: rest) := ⟨List.cons_ne_nil c rest, hblank⟩
    have hend := blanks1_append (ε := ExpressionError) hgap (stops_nil _)
    rw [List.append_nil] at hend
    unfold BinaryOperator.scan
    rw [bind_found hend]
    apply firstOf_eq_missed
    intro p hp
    obtain ⟨op, -, rfl⟩ := List.mem_map.mp hp
    have hword : ∀ c ∈ ([] : List Char), isNameChar c = true := by simp
    exact bind_missed (Literal.scanKeyword_missed op.isNameChar_keyword hword (stops_nil _)
      op.keyword_ne_nil)

/-- An operator closes the operands of the tighter levels. -/
theorem closes_operator {op : BinaryOperator} {k : Nat} (hk : op.precedence ≤ k)
    {before after : List Char} (hbefore : IsGap before) (hafter : IsGap after) (s : List Char) :
    Closes (BinaryOperator.levels.drop k) (before ++ (op.keyword.toList ++ (after ++ s))) := by
  refine ⟨hbefore.ends _, ?_⟩
  intro ops hops
  refine BinaryOperator.scan_word_missed hbefore op.isNameChar_keyword op.keyword_ne_nil
    (hafter.stops_isNameChar s) ?_
  intro op' hop' heq
  obtain rfl := BinaryOperator.keyword_injective heq
  have hlt := BinaryOperator.lt_precedence hops hop'
  omega

/-- The levels read the text as the expression, in front of what may follow it. -/
def Reads (operand : Scanner ExpressionError Expression) (levels : List (List BinaryOperator))
    (text : List Char) (e : Expression) : Prop :=
  ∀ rest, Closes levels rest → scanLevels operand levels (text ++ rest) = .found e rest

/-- The level reads the text as the expression, and goes on from there with a turn for each
character that is left. -/
def Chains (operand : Scanner ExpressionError Expression) (ops : List BinaryOperator)
    (tighter : List (List BinaryOperator)) (text : List Char) (e : Expression) : Prop :=
  ∀ rest, Closes tighter rest → ∃ n, rest.length ≤ n ∧
    scanLevels operand (ops :: tighter) (text ++ rest) =
      scanChainFrom ops (scanLevels operand tighter) n e rest

variable {operand : Scanner ExpressionError Expression} {ops : List BinaryOperator}
  {tighter : List (List BinaryOperator)} {text : List Char} {e : Expression}

private theorem Reads.chains (h : Reads operand tighter text e) :
    Chains operand ops tighter text e := by
  intro rest hrest
  refine ⟨rest.length, Nat.le_refl _, ?_⟩
  rw [scanLevels, scanChain]
  exact bind_found (h rest hrest)

private theorem Chains.reads (h : Chains operand ops tighter text e) :
    Reads operand (ops :: tighter) text e := by
  intro rest hrest
  obtain ⟨n, -, hn⟩ := h rest ⟨hrest.ends, fun ops' hops' ↦
    hrest.missed ops' (List.mem_cons_of_mem ops hops')⟩
  rw [hn]
  cases n with
  | zero => rfl
  | succ n =>
    rw [scanChainFrom, bind_found (optional_missed (hrest.missed ops List.mem_cons_self))]
    rfl

/-- The looser levels read what a tighter level reads. -/
theorem Reads.of_drop {m : Nat} (h : Reads operand (BinaryOperator.levels.drop m) text e) {k : Nat}
    (hk : k ≤ m) : Reads operand (BinaryOperator.levels.drop k) text e := by
  induction m with
  | zero =>
    obtain rfl : k = 0 := by omega
    exact h
  | succ m ih =>
    rcases Nat.eq_or_lt_of_le hk with rfl | hlt
    · exact h
    · apply ih ?_ (by omega)
      by_cases hm : m < BinaryOperator.levels.length
      · rw [List.drop_eq_getElem_cons hm]
        exact h.chains.reads
      · rw [List.drop_eq_nil_of_le (by omega)] at h ⊢
        exact h

/-- The chain of a level goes on over one more operator with its right operand. -/
theorem Chains.binary {op : BinaryOperator} {left right : Expression}
    {leftText before after rightText : List Char} (hop : op ∈ ops)
    (hleft : Chains operand ops (BinaryOperator.levels.drop op.precedence) leftText left)
    (hright : Reads operand (BinaryOperator.levels.drop op.precedence) rightText right)
    (hbefore : IsGap before) (hafter : IsGap after)
    (hblank : ∀ rest, Stops Char.isWhitespace (rightText ++ rest))
    (checkLeft : checkOperand op left = .ok ()) (checkRight : checkOperand op right = .ok ()) :
    Chains operand ops (BinaryOperator.levels.drop op.precedence)
      (leftText ++ before ++ op.keyword.toList ++ after ++ rightText) (.binary op left right) := by
  intro rest hrest
  obtain ⟨n, hle, hn⟩ := hleft _
    (closes_operator (Nat.le_refl _) hbefore hafter (rightText ++ rest))
  have hpos : 0 < before.length := List.length_pos_iff.mpr hbefore.ne_nil
  simp only [List.length_append] at hle
  cases n with
  | zero => omega
  | succ n =>
    refine ⟨n, ?_, ?_⟩
    · omega
    · simp only [List.append_assoc] at hn ⊢
      rw [hn, scanChainFrom,
        bind_found (optional_found (BinaryOperator.scan_append hop hbefore hafter (hblank rest)))]
      simp only
      rw [bind_found (hright rest hrest), checkLeft, bind_found (ofExcept_ok () rest), checkRight,
        bind_found (ofExcept_ok () rest)]

/-- The text is read as the expression by all levels that are looser than a rank, which is beyond
all levels for an operand. -/
structure Spans (operand : Scanner ExpressionError Expression) (rank : Nat) (text : List Char)
    (e : Expression) : Prop where
  chains : ∀ {k ops}, BinaryOperator.levels.drop k = ops :: BinaryOperator.levels.drop (k + 1) →
    k < rank → Chains operand ops (BinaryOperator.levels.drop (k + 1)) text e
  reads : ∀ {k}, k < rank → Reads operand (BinaryOperator.levels.drop k) text e

private theorem Reads.of_operand (h : Reads operand [] text e) (k : Nat) :
    Reads operand (BinaryOperator.levels.drop k) text e := by
  by_cases hk : k ≤ 5
  · exact Reads.of_drop (m := 5) h hk
  · rw [List.drop_eq_nil_of_le (by have : BinaryOperator.levels.length = 5 := rfl; omega)]
    exact h

/-- An operand that is read is read by all levels of operators. -/
theorem Reads.spans (h : Reads operand [] text e) (rank : Nat) : Spans operand rank text e where
  chains _ _ := (h.of_operand _).chains
  reads _ := h.of_operand _

/-- A binary expression is read by the levels that are looser than its operator: by its own level
as one more turn of the chain, by the others as it stands. -/
theorem Spans.binary {op : BinaryOperator} {left right : Expression} {rank : Nat}
    {leftText before after rightText : List Char} (hleft : Spans operand rank leftText left)
    (hrank : op.precedence ≤ rank)
    (hright : Reads operand (BinaryOperator.levels.drop op.precedence) rightText right)
    (hbefore : IsGap before) (hafter : IsGap after)
    (hblank : ∀ rest, Stops Char.isWhitespace (rightText ++ rest))
    (checkLeft : checkOperand op left = .ok ()) (checkRight : checkOperand op right = .ok ()) :
    Spans operand op.precedence (leftText ++ before ++ op.keyword.toList ++ after ++ rightText)
      (.binary op left right) := by
  have hpos := op.precedence_pos
  obtain ⟨ops, hop, hops⟩ := op.exists_level
  have hlevel : op.precedence - 1 + 1 = op.precedence := by omega
  have hchainsLeft := hleft.chains (hops.trans (by rw [hlevel])) (by omega)
  rw [hlevel] at hchainsLeft
  have hchains := hchainsLeft.binary hop hright hbefore hafter hblank checkLeft checkRight
  have hreads := hchains.reads
  rw [← hops] at hreads
  constructor
  · intro k ops' hops' hk
    by_cases heq : k + 1 = op.precedence
    · rw [show k = op.precedence - 1 by omega, hlevel, hops] at hops'
      obtain rfl := (List.cons.inj hops').1
      rw [heq]
      exact hchains
    · exact (hreads.of_drop (by omega)).chains
  · intro k hk
    exact hreads.of_drop (by omega)

/-- Levels miss where no operand can be read. -/
theorem scanLevels_missed {s : List Char} (h : operand s = .missed)
    (levels : List (List BinaryOperator)) : scanLevels operand levels s = .missed := by
  induction levels with
  | nil => exact h
  | cons ops tighter ih => exact bind_missed ih

end Expression

end SensorQuery
