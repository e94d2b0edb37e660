import SensorQuery.Proofs.Query.Levels

/-!
# Operands read back

Constants, paths, expressions in parentheses and calls are read as operands from their texts. The
alternatives before each are shown to miss, from how its text begins. Lists with commas, which
stand in calls and in orders, are read item by item.
-/

namespace SensorQuery

open Scanner
open RawStep (isNameChar)

namespace Expression

variable {ctx : Context} {P : Duration → Prop}

/-! ### How a text begins -/

private theorem not_beq_of_isNameChar {mark : Char} (hmark : isNameChar mark = false) (c : Char)
    (hc : isNameChar c = true) : (c == mark) = false := by
  rw [beq_eq_false_iff_ne]
  rintro rfl
  rw [hmark] at hc
  cases hc

private theorem stops_constant {p : Char → Bool} (hname : ∀ c, isNameChar c = true → p c = false)
    (hminus : p '-' = false) (hquote : p '\'' = false) {c : Literal} (hc : c.Fit P)
    (rest : List Char) : Stops p (c.text ++ rest) := by
  refine Literal.stops_text c hc ?_ (fun _ ↦ hname 'n' (by decide)) rest
  intro x hx
  simp only [Literal.isOpening, Bool.or_eq_true, List.contains_iff_mem, List.mem_cons,
    List.not_mem_nil, or_false] at hx
  rcases hx with hx | rfl | rfl | rfl | rfl | rfl | rfl | rfl
  · exact hname x (RawStep.isNameChar_of_isDigit x hx)
  · exact hminus
  · exact hname _ (by decide)
  · exact hquote
  all_goals exact hname _ (by decide)

private theorem stops_word {p : Char → Bool} (hname : ∀ c, isNameChar c = true → p c = false)
    {w : List Char} (hne : w ≠ []) (hw : ∀ c ∈ w, isNameChar c = true) (rest : List Char) :
    Stops p (w ++ rest) := by
  cases w with
  | nil => exact absurd rfl hne
  | cons c w => exact (stops_cons _ _ _).mpr (hname c (hw c List.mem_cons_self))

/-- A function has a name. -/
theorem IsFunctionName.ne_nil {w : List Char} (h : IsFunctionName w) : w ≠ [] := by
  rintro rfl
  cases h.first

private theorem stops_path {p : Char → Bool} (hname : ∀ c, isNameChar c = true → p c = false)
    (halias : p '@' = false) {q : PropertyPath} {w : String} {more : List RawStep}
    (h : q.Formed ctx w more) (rest : List Char) : Stops p (q.text ++ rest) := by
  rw [h.text_eq, List.append_assoc]
  rcases h.name.1 with hw | ⟨hne, hw⟩
  · rw [hw]
    exact (stops_cons _ _ _).mpr halias
  · exact stops_word hname hne hw _

private theorem stops_call {p : Char → Bool} (hname : ∀ c, isNameChar c = true → p c = false)
    {name : String} {arguments : List Expression} (h : IsFunctionName name.toList)
    (rest : List Char) : Stops p ((Expression.call name arguments).text ++ rest) := by
  rw [text]
  simp only [List.append_assoc, List.cons_append]
  exact stops_word hname h.ne_nil h.all _

/-- An expression begins with a name, the alias of the key, a sign, a quote or a parenthesis. -/
structure Opens (p : Char → Bool) : Prop where
  name : ∀ c, isNameChar c = true → p c = false
  keyAlias : p '@' = false
  minus : p '-' = false
  quote : p '\'' = false
  paren : p '(' = false

/-- No expression begins with a blank. -/
theorem opens_isWhitespace : Opens Char.isWhitespace :=
  ⟨RawStep.not_isWhitespace_of_isNameChar, rfl, rfl, rfl, rfl⟩

/-- What opens an operand opens it in parentheses. -/
theorem Opens.stops_inParens {p : Char → Bool} (hp : Opens p) (b : Bool) {text rest : List Char}
    (h : ∀ t, Stops p (text ++ t)) : Stops p (inParens b text ++ rest) := by
  unfold inParens
  cases b with
  | false => exact h rest
  | true => exact (stops_cons _ _ _).mpr (hp.paren)

/-- What no expression begins with ends in front of an expression. -/
theorem Opens.stops_text {p : Char → Bool} (hp : Opens p) {e : Expression} (h : e.Formed ctx P)
    (rest : List Char) : Stops p (e.text ++ rest) := by
  induction h generalizing rest with
  | constant fit =>
    exact stops_constant hp.name hp.minus hp.quote fit rest
  | path sorted free => exact stops_path hp.name hp.keyAlias sorted rest
  | @binary op left right _ _ _ _ ihLeft _ =>
    rw [text]
    simp only [List.append_assoc, List.cons_append]
    exact hp.stops_inParens (needsParens op false left) ihLeft
  | not _ _ _ => exact (stops_cons _ _ _).mpr (hp.name 'n' (by decide))
  | negate _ _ => exact (stops_cons _ _ _).mpr hp.minus
  | call _ named _ _ _ => exact stops_call hp.name named rest

/-- No expression is written with an empty text. -/
theorem Formed.text_ne_nil {e : Expression} (h : e.Formed ctx P) : e.text ≠ [] := by
  intro hnil
  have hstops := opens_isWhitespace.stops_text h [' ']
  rw [hnil] at hstops
  exact absurd hstops (by simp)

/-! ### Calls and paths -/

private theorem scanFunctionName_append {ε : Type} {w rest : List Char} (hw : IsFunctionName w)
    (h : Stops isNameChar rest) :
    (scanFunctionName : Scanner ε (List Char)) (w ++ rest) = .found w rest := by
  unfold scanFunctionName
  rw [bind_found (run1_append hw.ne_nil hw.all h), hw.first]
  rfl

/-- A name without a parenthesis behind it is no call. -/
theorem scanCall_missed {functions : Catalog}
    {expression : Scanner ExpressionError Expression} {s : List Char}
    (h : ∀ w rest, s = w ++ rest → (∀ c ∈ w, isNameChar c = true) → Stops isNameChar rest →
      Stops (· == '(') rest) : scanCall functions expression s = .missed := by
  unfold scanCall
  rw [bind_eq_missed]
  unfold scanFunctionName
  by_cases hname : (s.takeWhile isNameChar).isEmpty = true
  · refine .inl (bind_missed ?_)
    rw [run1, if_pos hname]
  · have hrun : (run1 isNameChar : Scanner ExpressionError (List Char)) s =
        .found (s.takeWhile isNameChar) (s.dropWhile isNameChar) := by
      rw [run1, if_neg hname]
    have hopen := h _ _ List.takeWhile_append_dropWhile.symm
      (List.all_eq_true.mp List.all_takeWhile) (stops_dropWhile isNameChar s)
    rw [bind_found hrun]
    split
    · exact .inr ⟨_, _, rfl, bind_missed (char_missed hopen)⟩
    · exact .inl rfl

/-- Only one run of name characters begins a text. -/
theorem stops_of_run {p : Char → Bool} {v rest w t : List Char}
    (hv : ∀ c ∈ v, isNameChar c = true) (hrest : Stops isNameChar rest) (hp : Stops p rest)
    (hw : ∀ c ∈ w, isNameChar c = true) (ht : Stops isNameChar t) (h : v ++ rest = w ++ t) :
    Stops p t := by
  obtain rfl := run_unique hv hw hrest ht h
  rw [← List.append_cancel_left h]
  exact hp

/-! ### Lists with commas -/

private theorem scanComma_append {ε : Type} {gap : List Char} (hgap : gap = [] ∨ gap = [' '])
    {s : List Char} (hs : Stops Char.isWhitespace s) :
    (scanComma : Scanner ε Unit) (',' :: gap ++ s) = .found () s := by
  unfold scanComma
  rw [List.cons_append, bind_found (blanks_of_stops ((stops_cons _ _ _).mpr (by decide))),
    bind_found (char_cons ',' _)]
  rcases hgap with rfl | rfl
  · exact blanks_of_stops hs
  · exact blanks_space hs

private theorem scanComma_missed {ε : Type} {s : List Char} (hblank : Stops Char.isWhitespace s)
    (hcomma : Stops (· == ',') s) : (scanComma : Scanner ε Unit) s = .missed := by
  unfold scanComma
  rw [bind_found (blanks_of_stops hblank)]
  exact bind_missed (char_missed hcomma)

/-- Items are read in order, with a comma and at most one blank between them. -/
theorem separated_append {ε α : Type} {p : Scanner ε α} {render : α → List Char}
    {gap rest : List Char} {a : α} {as : List α} (hgap : gap = [] ∨ gap = [' '])
    (hends : Ends rest) (hblank : Stops Char.isWhitespace rest) (hcomma : Stops (· == ',') rest)
    (hopens : ∀ b ∈ a :: as, ∀ t, Stops Char.isWhitespace (render b ++ t))
    (h : ∀ b ∈ a :: as, ∀ t, Ends t → Stops Char.isWhitespace t →
      p (render b ++ t) = .found b t) :
    separated scanComma p (render a ++ (as.flatMap (fun b ↦ ',' :: gap ++ render b) ++ rest)) =
      .found (a :: as) rest := by
  have hchain : Chain (do scanComma; p)
      as (as.flatMap (fun b ↦ ',' :: gap ++ render b) ++ rest) rest := by
    refine chain_of_render_of (fun t ↦ Ends t ∧ Stops Char.isWhitespace t)
      ⟨hends, hblank⟩ ?_ ?_
    · intro b mid
      exact ⟨(ends_cons _ _).mpr rfl, (stops_cons _ _ _).mpr (by decide)⟩
    · intro b hb mid hmid
      rw [List.append_assoc,
        bind_found (scanComma_append hgap (hopens b (List.mem_cons_of_mem a hb) mid))]
      exact h b (List.mem_cons_of_mem a hb) mid hmid.1 hmid.2
  have hmany := many_of_chain hchain (bind_missed (scanComma_missed hblank hcomma)) <| by
    have hlength := length_le_flatMap (fun b ↦ ',' :: gap ++ render b) as (by simp)
    rw [List.length_append]
    omega
  have hfirst : p (render a ++ (as.flatMap (fun b ↦ ',' :: gap ++ render b) ++ rest)) =
      .found a (as.flatMap (fun b ↦ ',' :: gap ++ render b) ++ rest) := by
    apply h a List.mem_cons_self
    · cases as with
      | nil => exact hends
      | cons b as => exact (ends_cons _ _).mpr rfl
    · cases as with
      | nil => exact hblank
      | cons b as => exact (stops_cons _ _ _).mpr (by decide)
  unfold separated
  rw [bind_found hfirst]
  refine (bind_found hmany).trans ?_
  rfl

/-- Arguments behind the first have a comma in front of them. -/
theorem argumentsText_cons (e : Expression) (es : List Expression) :
    argumentsText (e :: es) = e.text ++ es.flatMap fun b ↦ ',' :: [' '] ++ b.text := by
  induction es generalizing e with
  | nil => simp [argumentsText]
  | cons b es ih =>
    rw [argumentsText, ih b, List.flatMap_cons]
    · simp
    · simp

/-! ### Operands -/

/-- There is no `not` where no `n` stands. -/
theorem scanNot_missed_of_stops {ε : Type} {s : List Char} (h : Stops (· == 'n') s) :
    (scanNot : Scanner ε Unit) s = .missed := by
  apply bind_missed
  apply bind_missed
  apply exactly_missed
  rintro ⟨t, rfl⟩
  have hn : ('n' == 'n') = false := (stops_cons (· == 'n') 'n' (['o', 't'] ++ t)).mp h
  cases hn

private theorem scanNot_word_missed {ε : Type} {w rest : List Char}
    (hw : ∀ c ∈ w, isNameChar c = true) (hne : w ≠ ['n', 'o', 't'])
    (h : Stops isNameChar rest) : (scanNot : Scanner ε Unit) (w ++ rest) = .missed :=
  bind_missed (Literal.scanKeyword_missed (List.all_eq_true.mp (by decide)) hw h
    fun heq ↦ hne heq.symm)

private theorem scanNot_constant_missed {ε : Type} {c : Literal} (hc : c.Fit P)
    {rest : List Char} (h : Ends rest) : (scanNot : Scanner ε Unit) (c.text ++ rest) = .missed := by
  have hother (hnull : c ≠ .null) : Stops (· == 'n') (c.text ++ rest) := by
    refine Literal.stops_text c hc ?_ (fun heq ↦ absurd heq hnull) rest
    intro x hx
    rw [beq_eq_false_iff_ne]
    rintro rfl
    exact absurd hx (by decide)
  cases c with
  | null =>
    exact scanNot_word_missed (w := ['n', 'u', 'l', 'l']) (List.all_eq_true.mp (by decide))
      (by decide)
      (h.stops (by decide))
  | _ => exact scanNot_missed_of_stops (hother (by simp))

variable {depth : Nat}

/-- Where `not` cannot be read, an operand is what can be read first. -/
theorem scanOperand_of_primary {s rest : List Char} {e : Expression}
    (hnot : (scanNot : Scanner ExpressionError Unit) s = .missed)
    (h : scanPrimary ctx (scanLevels (scanOperand ctx depth) BinaryOperator.levels) s =
      .found e rest) : scanOperand ctx (depth + 1) s = .found e rest := by
  rw [scanOperand, bind_found (optional_missed hnot)]
  exact orElse_found h

/-- There are no parentheses where none opens. -/
theorem scanParens_missed {expression : Scanner ExpressionError Expression}
    {s : List Char} (h : Stops (· == '(') s) : scanParens expression s = .missed :=
  bind_missed (char_missed h)

/-- A constant is read back as an operand. -/
theorem scanOperand_constant {c : Literal} (hc : c.Fit Duration.IsPlain)
    {rest : List Char} (h : Ends rest) :
    scanOperand ctx (depth + 1) (c.text ++ rest) = .found (.constant c) rest := by
  apply scanOperand_of_primary (scanNot_constant_missed hc h)
  refine (firstOf_missed (scanParens_missed (stops_constant
    (not_beq_of_isNameChar (by decide)) (by decide) (by decide) hc rest))).trans ?_
  apply firstOf_found
  rw [bind_found (Literal.scan_text c hc h)]
  rfl

private theorem ne_of_free (word : String) {w : String} (hfree : w ∉ reservedWords)
    (hword : word ∈ reservedWords) : word.toList ≠ w.toList := by
  intro heq
  rw [String.toList_inj] at heq
  rw [heq] at hword
  exact hfree hword

/-- No path holds a minus sign. -/
theorem not_mem_path {q : PropertyPath} {w : String} {more : List RawStep}
    (h : q.Formed ctx w more) : '-' ∉ q.text :=
  fun hmem ↦ absurd (h.isPathChar_text _ hmem) (by decide)

-- What a path is not read as: nothing that the grammar tries before it.
private theorem path_missed {q : PropertyPath} {w : String} {more : List RawStep}
    (h : q.Formed ctx w more) (hfree : w ∉ reservedWords) {rest : List Char} (hrest : Ends rest)
    (expression : Scanner ExpressionError Expression) :
    (scanNot : Scanner ExpressionError Unit) (q.text ++ rest) = .missed ∧
      Literal.scan (q.text ++ rest) = .missed ∧
      scanCall ctx.functions expression (q.text ++ rest) = .missed := by
  have hhyphen : '-' ∉ (q.text ++ rest).takeWhile isTimeChar := fun hmem ↦
    not_mem_path h (mem_of_mem_takeWhile (hrest.stops (by decide)) hmem)
  have hstops {p : Char → Bool} (hindex : p '[' = false) (hstep : p '/' = false)
      (hp : Stops p rest) : Stops p (more.flatMap RawStep.innerText ++ rest) :=
    RawStep.stops_inner hindex hstep hp
  have hname : Stops isNameChar (more.flatMap RawStep.innerText ++ rest) :=
    hstops (by decide) (by decide) (hrest.stops (by decide))
  have hopen : Stops (· == '(') (more.flatMap RawStep.innerText ++ rest) :=
    hstops (by decide) (by decide) (hrest.stops (by decide))
  rw [h.text_eq, List.append_assoc] at hhyphen ⊢
  rcases h.name.1 with hw | ⟨hne, hw⟩
  · rw [hw]
    refine ⟨scanNot_missed_of_stops ((stops_cons _ _ _).mpr (by decide)),
      Literal.scan_missed_of_stops ((stops_cons _ _ _).mpr (by decide))
        ((stops_cons _ _ _).mpr (by decide)) ((stops_cons _ _ _).mpr (by decide)),
      scanCall_missed ?_⟩
    intro v t hv hvname ht
    exact stops_of_run (v := []) (by simp) ((stops_cons _ _ _).mpr (by decide))
      ((stops_cons _ _ _).mpr (by decide)) hvname ht hv
  · refine ⟨scanNot_word_missed hw (ne_of_free "not" hfree (by decide)).symm hname, ?_,
      scanCall_missed ?_⟩
    · refine Literal.scan_name_missed hw hne h.first.stops_isDigit ?_ hname
        (hstops (by decide) (by decide) (hrest.stops (by decide))) hhyphen
      exact fun word hword ↦ ne_of_free word hfree (List.mem_cons_of_mem _ hword)
    · intro v t hv hvname ht
      exact stops_of_run hw hname hopen hvname ht hv

/-- A property path is read back as an operand, if its first name is no reserved word. -/
theorem scanOperand_path {q : PropertyPath} {w : String} {more : List RawStep}
    (h : q.Formed ctx w more) (hfree : w ∉ reservedWords) {rest : List Char} (hrest : Ends rest) :
    scanOperand ctx (depth + 1) (q.text ++ rest) = .found (.path q) rest := by
  obtain ⟨hnot, hliteral, hcall⟩ := path_missed h hfree hrest
    (scanLevels (scanOperand ctx depth) BinaryOperator.levels)
  apply scanOperand_of_primary hnot
  refine (firstOf_missed (scanParens_missed (stops_path
    (not_beq_of_isNameChar (by decide)) (by decide) h rest))).trans ?_
  refine (firstOf_missed (bind_missed hliteral)).trans ?_
  refine (firstOf_missed hcall).trans ?_
  apply firstOf_found
  rw [bind_found (h.scan_text (RawStep.follows_of_ends hrest))]
  rfl

/-- The operand that is read in parentheses. -/
theorem scanOperand_parens {e : Expression} (he : e.Formed ctx P)
    (h : Reads (scanOperand ctx depth) BinaryOperator.levels e.text e) (rest : List Char) :
    scanOperand ctx (depth + 1) (inParens true e.text ++ rest) = .found e rest := by
  have hclose : Ends (')' :: rest) := (ends_cons _ _).mpr rfl
  have hblank : Stops Char.isWhitespace (')' :: rest) := (stops_cons _ _ _).mpr (by decide)
  have htext : inParens true e.text ++ rest = '(' :: (e.text ++ ')' :: rest) := by
    simp only [inParens, ite_true, List.cons_append, List.append_assoc, List.nil_append]
  rw [htext]
  apply scanOperand_of_primary (scanNot_missed_of_stops ((stops_cons _ _ _).mpr (by decide)))
  apply firstOf_found
  unfold scanParens
  rw [bind_found (char_cons '(' _),
    bind_found (blanks_of_stops (opens_isWhitespace.stops_text he _)),
    bind_found (h _ (closes_of_stops _ hclose hblank)), bind_found (blanks_of_stops hblank),
    bind_found (char_cons ')' rest)]
  rfl

/-- Nothing is read where none of the alternatives begins. -/
theorem scanPrimary_missed_of_stops {expression : Scanner ExpressionError Expression}
    {s : List Char} (hopen : Stops (· == '(') s) (hname : Stops isNameChar s)
    (halias : Stops (· == '@') s) (hliteral : Literal.scan s = .missed) :
    scanPrimary ctx expression s = .missed := by
  apply firstOf_eq_missed
  intro p hp
  simp only [List.mem_cons, List.not_mem_nil, or_false] at hp
  rcases hp with rfl | rfl | rfl | rfl
  · exact scanParens_missed hopen
  · exact bind_missed hliteral
  · exact bind_missed (bind_missed (run1_missed hname))
  · exact bind_missed (PropertyPath.scan_missed_of_stops hname halias)

/-- No operand begins with a closing parenthesis. -/
theorem scanOperand_close_missed (rest : List Char) :
    scanOperand ctx depth (')' :: rest) = .missed := by
  have hstops {p : Char → Bool} (hp : p ')' = false) : Stops p (')' :: rest) :=
    (stops_cons _ _ _).mpr hp
  cases depth with
  | zero => rfl
  | succ depth =>
    rw [scanOperand, bind_found (optional_missed (scanNot_missed_of_stops (hstops (by decide))))]
    refine (orElse_missed ?_).trans (bind_missed (bind_missed (char_missed (hstops (by decide)))))
    exact scanPrimary_missed_of_stops (hstops (by decide)) (hstops (by decide))
      (hstops (by decide)) (Literal.scan_missed_of_stops (hstops (by decide))
        (hstops (by decide)) (hstops (by decide)))

private theorem optional_arguments {arguments : List Expression}
    (hformed : ∀ a ∈ arguments, a.Formed ctx P)
    (h : ∀ a ∈ arguments, Reads (scanOperand ctx depth) BinaryOperator.levels a.text a)
    (rest : List Char) : ∃ o,
      optional (separated scanComma (scanLevels (scanOperand ctx depth) BinaryOperator.levels))
        (argumentsText arguments ++ ')' :: rest) = .found o (')' :: rest) ∧
        o.getD [] = arguments := by
  cases arguments with
  | nil =>
    refine ⟨none, ?_, rfl⟩
    exact optional_missed (bind_missed (scanLevels_missed (scanOperand_close_missed rest) _))
  | cons e es =>
    refine ⟨some (e :: es), optional_found ?_, rfl⟩
    rw [argumentsText_cons, List.append_assoc]
    refine separated_append (.inr rfl) ((ends_cons _ _).mpr rfl)
      ((stops_cons _ _ _).mpr (by decide)) ((stops_cons _ _ _).mpr (by decide)) ?_ ?_
    · exact fun b hb t ↦ opens_isWhitespace.stops_text (hformed b hb) t
    · exact fun b hb t ht hblank ↦ h b hb t (closes_of_stops _ ht hblank)

/-- The name of a function does not begin with a digit. -/
theorem IsFunctionName.stops_isDigit {w : List Char} (h : IsFunctionName w) :
    Stops Char.isDigit w := by
  have hfirst := h.first
  cases w with
  | nil => simp
  | cons c w =>
    rw [stops_cons]
    cases hc : c.isDigit with
    | false => rfl
    | true => simp [RawStep.isAlphabetic_of_isDigit c hc] at hfirst

-- What the name of a call is not read as: neither `not` nor a literal.
private theorem name_missed {name : String} (hnamed : IsFunctionName name.toList)
    (hfree : name ∉ reservedWords) (s : List Char) :
    (scanNot : Scanner ExpressionError Unit) (name.toList ++ '(' :: s) = .missed ∧
      Literal.scan (name.toList ++ '(' :: s) = .missed := by
  have hstops {p : Char → Bool} (hp : p '(' = false) : Stops p ('(' :: s) :=
    (stops_cons _ _ _).mpr hp
  refine ⟨scanNot_word_missed hnamed.all (ne_of_free "not" hfree (by decide)).symm
    (hstops (by decide)), ?_⟩
  refine Literal.scan_name_missed hnamed.all hnamed.ne_nil ?_ ?_ (hstops (by decide))
    (hstops (by decide)) ?_
  · exact hnamed.stops_isDigit
  · exact fun word hword ↦ ne_of_free word hfree (List.mem_cons_of_mem _ hword)
  · intro hmem
    have hname := hnamed.all _ (mem_of_mem_takeWhile (hstops (by decide)) hmem)
    exact absurd hname (by decide)

/-- A call is read back as an operand, if its arguments are and its name is no reserved word. -/
theorem scanOperand_call {name : String} {arguments : List Expression}
    (hformed : ∀ a ∈ arguments, a.Formed ctx P) (hnamed : IsFunctionName name.toList)
    (hfree : name ∉ reservedWords)
    (hmade : makeCall ctx.functions name arguments = .ok (.call name arguments))
    (h : ∀ a ∈ arguments, Reads (scanOperand ctx depth) BinaryOperator.levels a.text a)
    (rest : List Char) :
    scanOperand ctx (depth + 1) ((Expression.call name arguments).text ++ rest) =
      .found (.call name arguments) rest := by
  have htext : (Expression.call name arguments).text ++ rest =
      name.toList ++ '(' :: (argumentsText arguments ++ ')' :: rest) := by
    rw [text]
    simp only [List.append_assoc, List.cons_append, List.nil_append]
  obtain ⟨hnot, hliteral⟩ := name_missed hnamed hfree (argumentsText arguments ++ ')' :: rest)
  obtain ⟨o, ho, hgetD⟩ := optional_arguments hformed h rest
  have hblank : Stops Char.isWhitespace (argumentsText arguments ++ ')' :: rest) := by
    cases arguments with
    | nil => exact (stops_cons _ _ _).mpr (by decide)
    | cons e es =>
      rw [argumentsText_cons, List.append_assoc]
      exact opens_isWhitespace.stops_text (hformed e List.mem_cons_self) _
  rw [htext]
  apply scanOperand_of_primary hnot
  refine (firstOf_missed (scanParens_missed (stops_word
    (not_beq_of_isNameChar (by decide)) hnamed.ne_nil hnamed.all _))).trans ?_
  refine (firstOf_missed (bind_missed hliteral)).trans ?_
  apply firstOf_found
  unfold scanCall
  rw [bind_found (scanFunctionName_append hnamed ((stops_cons _ _ _).mpr (by decide))),
    bind_found (char_cons '(' _), bind_found (blanks_of_stops hblank), bind_found ho,
    bind_found (blanks_of_stops ((stops_cons _ _ _).mpr (by decide))),
    bind_found (char_cons ')' rest), hgetD, String.ofList_toList, hmade]
  rfl

end Expression

end SensorQuery
