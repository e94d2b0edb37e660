import SensorQuery.Proofs.Query.Levels
import SensorQuery.Proofs.Query.Steady

/-!
# The grammar reads apart from what follows

The scanners of the grammar are steady: constants, calls and paths at any place, the operands of
chains within parentheses, where something must follow the blanks behind them. The bound on the
nesting may differ between the two readings.
-/

namespace SensorQuery

open Scanner
open RawStep (isNameChar)

variable {n n' : Nat} {place : Bool × Nat} {depth : Nat}

private theorem solid_isNameChar : Text.Solid isNameChar := by decide

private theorem solid_isTimeChar : Text.Solid isTimeChar := by decide

/-! ### Constants -/

namespace Literal

private theorem moves_scanKeyword {ε : Type} {word : String} (hword : word.toList ≠ []) :
    Moves (scanKeyword word : Scanner ε Unit) := by
  apply (moves_exactly hword).bind_left
  intro _ s _ rest h
  exact Nat.le_of_eq (congrArg List.length (notBefore_eq_found.mp h).1.symm)

/-- A keyword of name characters is steady. -/
theorem steady_scanKeyword {ε : Type} {word : String}
    (hword : ∀ c ∈ word.toList, isNameChar c = true) :
    Steady n place place (scanKeyword word : Scanner ε Unit) (scanKeyword word) :=
  .bind (.of_within (.exactly hword) solid_isNameChar) fun _ ↦ .notBefore solid_isNameChar

private theorem steady_scanWord {ε : Type} :
    Steady n place place (scanWord : Scanner ε Literal) scanWord := by
  have hword {word : String} (hword : word.toList.all isNameChar = true) (c : Literal) :
      Steady n place place (do scanKeyword word; pure c : Scanner ε Literal)
        (do scanKeyword word; pure c) :=
    .bind (steady_scanKeyword (List.all_eq_true.mp hword)) fun _ ↦ .pure c
  exact .firstOf_cons (hword (by decide) .null) (.firstOf_cons (hword (by decide) (.boolean true))
    (.firstOf_cons (hword (by decide) (.boolean false)) .firstOf_nil))

private theorem quotedInMessage_append (s : List Char) {t : List Char} (ht : Ends t) :
    quotedInMessage (s ++ t) = quotedInMessage s :=
  takeWhile_append_left (ht.stops (by decide))

private theorem steady_scanDuration :
    Steady n (false, depth) (false, depth) scanDuration scanDuration := by
  have hopen : Text.walk (fun _ ↦ false) (false, depth) "duration'".toList = some (true, depth) :=
    rfl
  refine .bind (.exactly hopen (by decide)) fun _ ↦ .orElse ?_ ?_
  · exact .bind (.of_within Duration.within_scan solid_isTimeChar) fun _ ↦
      .bind (.char rfl (.inl rfl)) fun _ ↦ .pure _
  · constructor
    · intro s c rest h
      cases h
    · intro s t _ _ ht
      simp only [quotedInMessage_append s ht]
      rfl

private theorem steady_scanString {ε : Type} :
    Steady n (false, depth) (false, depth) (scanString : Scanner ε (List Char)) scanString := by
  have hquote : Steady n (true, depth) (true, depth)
      (do exactly ['\'', '\'']; pure '\'' : Scanner ε Char)
      (do exactly ['\'', '\'']; pure '\'') :=
    .bind (.exactly rfl (by decide)) fun _ ↦ .pure '\''
  have hmoves : Moves (do exactly ['\'', '\'']; pure '\'' : Scanner ε Char) :=
    (moves_exactly (List.cons_ne_nil _ _)).bind_left fun h ↦ by
      cases h
      exact Nat.le_refl _
  have hbody := Steady.many (.orElse hquote .quotedChar) (hmoves.orElse (moves_satisfy _)) rfl
  exact .bind (.char rfl (.inl rfl)) fun _ ↦ .bind hbody fun body ↦
    .bind (.char rfl (.inl rfl)) fun _ ↦ .pure body

private theorem steady_scanGeometry :
    Steady n (false, depth) (false, depth) scanGeometry scanGeometry := by
  refine .bind (.orElse (.exactly rfl (by decide)) (.exactly rfl (by decide))) fun _ ↦
    .bind steady_scanString fun wkt ↦ ?_
  split
  · exact .pure _
  · exact .refuse _

private theorem steady_scanTemporal : Steady n place place scanTemporal scanTemporal := by
  have hscan : Steady n place place Interval.scan Interval.scan :=
    .bind (.of_within Interval.within_scanSides solid_isTimeChar) fun _ ↦ .ofExcept _
  have hinterval : Steady n place place scanInterval scanInterval := by
    apply Steady.mapCause (.bind hscan fun _ ↦ .pure _)
    intro s t ht
    rw [quotedInMessage_append s ht]
  refine .firstOf_cons hinterval <| .firstOf_cons ?_ <| .firstOf_cons ?_ <|
    .firstOf_cons ?_ .firstOf_nil
  · exact .bind (.of_within Instant.within_scan solid_isTimeChar) fun t ↦ .pure _
  · exact .bind (.of_within Date.within_scan solid_isTimeChar) fun d ↦
      .bind (.notBefore (by decide)) fun _ ↦ .pure _
  · exact .bind (.of_within Clock.within_scan solid_isTimeChar) fun c ↦ .pure _

private theorem steady_digits {ε : Type} :
    Steady n place place (digits : Scanner ε (List Char)) digits :=
  .of_within (.run1 fun _ hc ↦ hc) (by decide)

private theorem steady_scanNumber : Steady n place place scanNumber scanNumber := by
  have hpower : Steady n place place (Spelling.scanPower : Scanner ExpressionError Power)
      Spelling.scanPower :=
    .bind (.of_within (.satisfy fun _ hc ↦ hc) (by decide)) fun mark ↦
      .bind (.optional (.of_within (.satisfy fun _ hc ↦ hc) (by decide))) fun sign ↦
        .bind steady_digits fun ds ↦ .pure _
  have hsign : Steady n place place (char '-' : Scanner ExpressionError Unit) (char '-') :=
    .of_within (P := (· == '-')) (.char rfl) (by decide)
  have hpoint : Steady n place place (char '.' : Scanner ExpressionError Unit) (char '.') :=
    .of_within (P := (· == '.')) (.char rfl) (by decide)
  refine .bind (.bind (.optional hsign) fun sign ↦ .bind steady_digits fun whole ↦
    .bind (.optional (.bind hpoint fun _ ↦ steady_digits)) fun fraction ↦
      .bind (.optional hpower) fun power ↦ .bind (.notBefore solid_isNameChar) fun _ ↦
        .pure _) fun n ↦ ?_
  split
  · exact .pure _
  · split
    · exact .pure _
    · exact .refuse _

private theorem steady_scan : Steady n (false, depth) (false, depth) scan scan :=
  .firstOf_cons steady_scanWord <| .firstOf_cons steady_scanDuration <|
    .firstOf_cons steady_scanGeometry <| .firstOf_cons steady_scanTemporal <|
      .firstOf_cons steady_scanNumber <|
        .firstOf_cons (.bind steady_scanString fun _ ↦ .pure _) .firstOf_nil

end Literal

private theorem PropertyPath.steady_scan (ctx : Context) :
    Steady n place place (scan ctx) (scan ctx) :=
  .bind (.of_within within_scanPath (by decide)) fun raws ↦
    .bind (.ofExcept _) fun _ ↦ .pure _

/-! ### Operators and their operands -/

namespace BinaryOperator

-- The blanks behind an operator need an operand that ends them.
private theorem steady_words {ε : Type} (n depth : Nat) (ops : List BinaryOperator) :
    Steady n (false, depth + 1) (false, depth + 1)
      (firstOf (ops.map fun op ↦ do
        Literal.scanKeyword op.keyword
        blanks
        pure op) : Scanner ε BinaryOperator)
      (firstOf (ops.map fun op ↦ do
        Literal.scanKeyword op.keyword
        blanks
        pure op)) := by
  induction ops with
  | nil => exact .firstOf_nil
  | cons op ops ih =>
    refine .firstOf_cons (.bind (Literal.steady_scanKeyword op.isNameChar_keyword) fun _ ↦ ?_) ih
    exact .bind .blanks fun _ ↦ .pure op

private theorem steady_scan {ε : Type} (ops : List BinaryOperator) :
    Steady n (false, depth + 1) (false, depth + 1) (scan ops : Scanner ε BinaryOperator)
      (scan ops) := .bind .blanks1 fun _ ↦ steady_words n depth ops

private theorem moves_scan {ε : Type} (ops : List BinaryOperator) :
    Moves (scan ops : Scanner ε BinaryOperator) :=
  moves_blanks1.bind_left (steady_words 0 0 ops).length_le

end BinaryOperator

namespace Expression

variable {ctx : Context} {X X' : Scanner ExpressionError Expression}

-- A chain is steady within parentheses, if it has turns enough in both readings.
private theorem steady_scanChainFrom (ops : List BinaryOperator) {k m : Nat}
    (hX : Steady n (false, depth + 1) (false, depth + 1) X X') (hn : n ≤ k + 1) (hm : k ≤ m)
    (left : Expression) : Steady n (false, depth + 1) (false, depth + 1)
      (scanChainFrom ops X k left) (scanChainFrom ops X' m left) := by
  induction k generalizing n m left with
  | zero =>
    constructor
    · intro s e rest h
      cases h
      exact ⟨[], rfl, rfl⟩
    · intro s t hs hshut _
      obtain rfl : s = [] := List.length_eq_zero_iff.mp (by omega)
      cases Text.eq_of_shuts_nil hshut
  | succ k ih =>
    cases m with
    | zero => omega
    | succ m =>
      refine .optional_moves (BinaryOperator.steady_scan ops) (BinaryOperator.moves_scan ops)
        (fun op ↦ ?_) (.pure left)
      have hX := hX.mono (Nat.sub_le n 1)
      exact .bind hX fun right ↦ .bind (.ofExcept _) fun _ ↦ .bind (.ofExcept _) fun _ ↦
        ih hX (by omega) (by omega) _

/-- The levels of operators are steady within parentheses, if operands are. -/
theorem steady_scanLevels
    (hX : Steady n (false, depth + 1) (false, depth + 1) X X')
    (levels : List (List BinaryOperator)) : Steady n (false, depth + 1) (false, depth + 1)
      (scanLevels X levels) (scanLevels X' levels) := by
  induction levels with
  | nil => exact hX
  | cons ops tighter ih =>
    refine .bind ih fun left ↦ ?_
    constructor
    · intro s e rest h
      exact (steady_scanChainFrom ops (ih.mono (Nat.zero_le n)) (Nat.zero_le _) (Nat.le_refl _)
        left).reads h
    · intro s t hn hs ht
      refine (steady_scanChainFrom ops (ih.mono hn) (Nat.le_refl _) ?_ left).before
        (Nat.lt_succ_self _) hs ht
      rw [List.length_append]
      omega

private theorem steady_scanParens
    (hX : Steady (n - 1) (false, depth + 1) (false, depth + 1) X X') :
    Steady n (false, depth) (false, depth) (scanParens X) (scanParens X') := by
  refine .bind_moves (.char rfl (.inl rfl)) (moves_char '(') fun _ ↦ ?_
  exact .bind .blanks fun _ ↦ .bind hX fun e ↦ .bind .blanks fun _ ↦
    .bind (.char rfl (.inr (by simp))) fun _ ↦ .pure e

private theorem steady_scanFunctionName {ε : Type} :
    Steady n place place (scanFunctionName : Scanner ε (List Char)) scanFunctionName := by
  refine .bind (.of_within (.run1 fun _ hc ↦ hc) solid_isNameChar) fun name ↦ ?_
  split
  · exact .pure name
  · exact .miss

private theorem steady_scanComma {ε : Type} :
    Steady n (false, depth + 1) (false, depth + 1) (scanComma : Scanner ε Unit) scanComma :=
  .bind .blanks fun _ ↦ .bind (.char rfl (.inr (by simp))) fun _ ↦ .blanks

private theorem moves_scanComma {ε : Type} : Moves (scanComma : Scanner ε Unit) :=
  .bind_right length_le_blanks fun _ ↦ (moves_char ',').bind_left length_le_blanks

private theorem steady_scanCall (functions : Catalog)
    (hX : Steady (n - 1) (false, depth + 1) (false, depth + 1) X X') :
    Steady n (false, depth) (false, depth) (scanCall functions X) (scanCall functions X') := by
  have harguments := Steady.separated steady_scanComma hX moves_scanComma rfl
  refine .bind steady_scanFunctionName fun name ↦
    .bind_moves (.char rfl (.inl rfl)) (moves_char '(') fun _ ↦ ?_
  exact .bind .blanks fun _ ↦ .bind (.optional harguments) fun _ ↦
    .bind .blanks fun _ ↦ .bind (.char rfl (.inr (by simp))) fun _ ↦ .ofExcept _

/-- A primary operand is steady, if what stands in its parentheses is. -/
theorem steady_scanPrimary (ctx : Context)
    (hX : Steady (n - 1) (false, depth + 1) (false, depth + 1) X X') :
    Steady n (false, depth) (false, depth) (scanPrimary ctx X) (scanPrimary ctx X') :=
  .firstOf_cons (steady_scanParens hX) <|
    .firstOf_cons (.bind Literal.steady_scan fun _ ↦ .pure _) <|
      .firstOf_cons (steady_scanCall ctx.functions hX) <|
        .firstOf_cons (.bind (PropertyPath.steady_scan ctx) fun _ ↦ .pure _) .firstOf_nil

private theorem steady_scanNot {ε : Type} :
    Steady n (false, depth + 1) (false, depth + 1) (scanNot : Scanner ε Unit) scanNot :=
  .bind (Literal.steady_scanKeyword (List.all_eq_true.mp (by decide))) fun _ ↦ .blanks

private theorem moves_scanNot {ε : Type} : Moves (scanNot : Scanner ε Unit) :=
  (Literal.moves_scanKeyword (by decide)).bind_left length_le_blanks

private theorem steady_scanMinus {ε : Type} :
    Steady n (false, depth + 1) (false, depth + 1) (scanMinus : Scanner ε Unit) scanMinus :=
  .bind (.char rfl (.inl rfl)) fun _ ↦ .blanks

private theorem moves_scanMinus {ε : Type} : Moves (scanMinus : Scanner ε Unit) :=
  (moves_char '-').bind_left length_le_blanks

/-- Operands within parentheses are steady, if the nesting is bounded no less in the second
reading: by induction on the bound. -/
theorem steady_scanOperand (ctx : Context) (hn : n ≤ n') (depth : Nat) :
    Steady n (false, depth + 1) (false, depth + 1) (scanOperand ctx n) (scanOperand ctx n') := by
  induction n generalizing n' depth with
  | zero =>
    constructor
    · intro s e rest h
      cases h
    · intro s t hs
      exact absurd hs (Nat.not_lt_zero _)
  | succ n ih =>
    cases n' with
    | zero => omega
    | succ n' =>
      have hless (depth : Nat) := ih (Nat.le_of_succ_le_succ hn) depth
      refine .optional_moves steady_scanNot moves_scanNot (fun _ ↦ ?_) (.orElse ?_ ?_)
      · exact .bind (hless depth) fun _ ↦ .bind (.ofExcept _) fun _ ↦ .pure _
      · exact steady_scanPrimary ctx (steady_scanLevels (hless (depth + 1)) _)
      · exact .bind_moves steady_scanMinus moves_scanMinus fun _ ↦
          .bind (hless depth) fun _ ↦ .pure _

end Expression

end SensorQuery
