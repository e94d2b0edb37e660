import SensorQuery.Proofs.Query.Apart
import SensorQuery.Proofs.Query.Operand

/-!
# Operands that stand alone

A filter that is nothing but a path, a call or an expression in parentheses is read as an operand
wherever an operand may stand (`IsOperand.exists_stands`). That the whole filter is one operand
shows in its value, which is no binary expression, or in its text, which is enclosed in one pair of
parentheses.
-/

namespace SensorQuery

open Scanner

namespace Expression

variable {ctx : Context} {X : Scanner ExpressionError Expression}

/-! ### Reading in front of any end -/

/-- The text is read as the expression wherever an operand is looked for, with any bound on the
nesting that its length allows. -/
structure Stands (ctx : Context) (text : List Char) (e : Expression) : Prop where
  opens : ∀ rest, Stops Char.isWhitespace (text ++ rest)
  reads : ∀ {depth}, text.length ≤ depth → Reads (scanOperand ctx (depth + 1)) [] text e

private theorem scanNot_missed_iff {s : List Char} :
    (scanNot : Scanner ExpressionError Unit) s = .missed ↔
      (Literal.scanKeyword "not" : Scanner ExpressionError Unit) s = .missed := by
  unfold scanNot
  rw [bind_eq_missed]
  constructor
  · rintro (h | ⟨_, mid, -, h⟩)
    · exact h
    · cases h
  · exact .inl

-- An operand with no operator in front of it is read.
private structure ReadsPrimary (ctx : Context) (n : Nat) (s : List Char) (e : Expression)
    (rest : List Char) : Prop where
  misses : (scanNot : Scanner ExpressionError Unit) s = .missed
  primary : scanPrimary ctx (scanLevels (scanOperand ctx n) BinaryOperator.levels) s = .found e rest

private theorem steady_primary (ctx : Context) {k m : Nat} (hkm : k ≤ m) :
    Steady (k + 1) (false, 0) (false, 0)
      (scanPrimary ctx (scanLevels (scanOperand ctx k) BinaryOperator.levels))
      (scanPrimary ctx (scanLevels (scanOperand ctx m) BinaryOperator.levels)) :=
  steady_scanPrimary ctx (steady_scanLevels (steady_scanOperand ctx hkm 0) BinaryOperator.levels)

private theorem ReadsPrimary.exists_shuts {n : Nat} {s rest : List Char} {e : Expression}
    (h : ReadsPrimary ctx n s e rest) : ∃ w, s = w ++ rest ∧ Text.Shuts (false, 0) w :=
  (steady_primary ctx (Nat.le_refl n)).reads h.primary

-- What is read so in front of an end stands alone.
private theorem ReadsPrimary.stands {n : Nat} {text rest : List Char} {e : Expression}
    (h : ReadsPrimary ctx n (text ++ rest) e rest) (hn : text.length ≤ n) (hrest : Ends rest)
    (hopens : ∀ t, Stops Char.isWhitespace (text ++ t)) : Stands ctx text e := by
  obtain ⟨hnot, h⟩ := h
  have hshuts : Text.Shuts (false, 0) text := by
    obtain ⟨w, hw, hwalk⟩ := ReadsPrimary.exists_shuts ⟨hnot, h⟩
    rw [List.append_cancel_right hw]
    exact hwalk
  -- read in front of the end, hence read alone, hence read in front of any end
  have hself :
      scanPrimary ctx (scanLevels (scanOperand ctx text.length) BinaryOperator.levels) text =
        .found e [] := by
    rw [(steady_primary ctx hn).before (Nat.lt_succ_self _) hshuts hrest] at h
    exact Scan.before_eq_found.mp h
  have hkeyword : Steady (text.length + 1) (false, 0) (false, 0)
      (Literal.scanKeyword "not" : Scanner ExpressionError Unit) (Literal.scanKeyword "not") :=
    Literal.steady_scanKeyword (List.all_eq_true.mp (by decide))
  refine ⟨hopens, fun {m} hm t ht ↦ scanOperand_of_primary ?_ ?_⟩
  · rw [scanNot_missed_iff] at hnot ⊢
    rw [hkeyword.before (Nat.lt_succ_self _) hshuts hrest, Scan.before_eq_missed] at hnot
    rw [hkeyword.before (Nat.lt_succ_self _) hshuts ht.ends, hnot]
    rfl
  · rw [(steady_primary ctx hm).before (Nat.lt_succ_self _) hshuts ht.ends, hself]
    rfl

private theorem binary_or_of_scanChainFrom {ops : List BinaryOperator} {k : Nat}
    {left e : Expression} {s rest : List Char}
    (h : scanChainFrom ops X k left s = .found e rest) :
    left = e ∧ s = rest ∨ (∃ op l r, e = .binary op l r) ∧ ∃ op last,
      (BinaryOperator.scan ops : Scanner ExpressionError BinaryOperator) s = .found op last := by
  induction k generalizing left s with
  | zero =>
    cases h
    exact .inl ⟨rfl, rfl⟩
  | succ k ih =>
    obtain ⟨o, mid, ho, h⟩ := bind_eq_found.mp h
    rcases optional_eq_found.mp ho with ⟨op, rfl, hop⟩ | ⟨rfl, -, rfl⟩
    · obtain ⟨right, _, _, h⟩ := bind_eq_found.mp h
      obtain ⟨_, _, _, h⟩ := bind_eq_found.mp h
      obtain ⟨_, _, _, h⟩ := bind_eq_found.mp h
      refine .inr ⟨?_, op, mid, hop⟩
      rcases ih h with ⟨rfl, -⟩ | ⟨hbinary, -⟩
      · exact ⟨op, left, right, rfl⟩
      · exact hbinary
    · cases h
      exact .inl ⟨rfl, rfl⟩

-- What the levels read begins with an operand. It is this operand, or binary if an operator is read
-- behind the operand.
private theorem exists_first {levels : List (List BinaryOperator)} {s rest : List Char}
    {e : Expression} (h : scanLevels X levels s = .found e rest) :
    ∃ first mid, X s = .found first mid ∧ (first = e ∧ mid = rest ∨
      (∃ op l r, e = .binary op l r) ∧ ∃ ops op last,
        (BinaryOperator.scan ops : Scanner ExpressionError BinaryOperator) mid =
          .found op last) := by
  induction levels generalizing e rest with
  | nil => exact ⟨e, rest, h, .inl ⟨rfl, rfl⟩⟩
  | cons ops tighter ih =>
    obtain ⟨left, mid, hleft, h⟩ := bind_eq_found.mp h
    obtain ⟨first, behind, hfirst, hcases⟩ := ih hleft
    refine ⟨first, behind, hfirst, ?_⟩
    rcases binary_or_of_scanChainFrom h with ⟨rfl, rfl⟩ | ⟨hbinary, op, last, hop⟩
    · exact hcases
    · rcases hcases with ⟨-, rfl⟩ | ⟨-, hbehind⟩
      · exact .inr ⟨hbinary, ops, op, last, hop⟩
      · exact .inr ⟨hbinary, hbehind⟩

private theorem of_scan_operator {ops : List BinaryOperator} {op : BinaryOperator}
    {s rest : List Char}
    (h : (BinaryOperator.scan ops : Scanner ExpressionError BinaryOperator) s = .found op rest) :
    ¬ Stops Char.isWhitespace s ∧ ∃ c ∈ s, c.isWhitespace = false := by
  constructor
  · intro hstops
    unfold BinaryOperator.scan at h
    rw [bind_missed (blanks1_missed hstops)] at h
    cases h
  · obtain ⟨_, mid, hblanks, hword⟩ := bind_eq_found.mp h
    obtain ⟨w, _, hw, hpure⟩ := bind_eq_found.mp hblanks
    cases hpure
    obtain ⟨rfl, -⟩ := run1_eq_found.mp hw
    obtain ⟨p, hp, hword⟩ := exists_of_firstOf_eq_found hword
    obtain ⟨op', -, rfl⟩ := List.mem_map.mp hp
    obtain ⟨_, last, hkeyword, -⟩ := bind_eq_found.mp hword
    obtain ⟨rfl, -⟩ := Literal.scanKeyword_eq_found.mp hkeyword
    obtain ⟨c, name, hname⟩ := List.exists_cons_of_ne_nil op'.keyword_ne_nil
    have hc : c ∈ op'.keyword.toList := by
      rw [hname]
      exact List.mem_cons_self
    refine ⟨c, ?_, RawStep.not_isWhitespace_of_isNameChar c (op'.isNameChar_keyword c hc)⟩
    exact List.mem_append_right w (List.mem_append_left last hc)

-- An operand is read as a primary one, unless it is unary and does not begin with a parenthesis.
private theorem primary_or_of_scanOperand {n : Nat} {s rest : List Char} {e : Expression}
    (h : scanOperand ctx (n + 1) s = .found e rest) :
    (∃ op operand, e = .unary op operand) ∧ Stops (· == '(') s ∨
      ReadsPrimary ctx n s e rest := by
  obtain ⟨o, mid, ho, h⟩ := bind_eq_found.mp h
  rcases optional_eq_found.mp ho with ⟨_, rfl, hnot⟩ | ⟨rfl, hnot, rfl⟩
  · obtain ⟨operand, _, _, h⟩ := bind_eq_found.mp h
    obtain ⟨_, _, _, h⟩ := bind_eq_found.mp h
    cases h
    obtain ⟨_, _, hkeyword, -⟩ := bind_eq_found.mp hnot
    obtain ⟨rfl, -⟩ := Literal.scanKeyword_eq_found.mp hkeyword
    exact .inl ⟨⟨.not, operand, rfl⟩, (stops_cons _ _ _).mpr rfl⟩
  · rcases orElse_eq_found.mp h with h | ⟨-, h⟩
    · exact .inr ⟨hnot, h⟩
    · obtain ⟨_, _, hminus, h⟩ := bind_eq_found.mp h
      obtain ⟨operand, _, _, h⟩ := bind_eq_found.mp h
      cases h
      obtain ⟨_, _, hchar, -⟩ := bind_eq_found.mp hminus
      rw [char_eq_found.mp hchar]
      exact .inl ⟨⟨.negate, operand, rfl⟩, (stops_cons _ _ _).mpr rfl⟩

/-! ### Texts that hold one operand -/

/-- There are only blanks beside the core of the text. -/
def Pads (core text : List Char) : Prop :=
  ∃ lead trail, text = lead ++ (core ++ trail) ∧ (∀ c ∈ lead, c.isWhitespace = true) ∧
    ∀ c ∈ trail, c.isWhitespace = true

/-- The text stands in one matching pair of parentheses. -/
def Enclosed (text : List Char) : Prop :=
  ∃ body, Pads ('(' :: body ++ [')']) text ∧ Text.Sealed (fun _ ↦ false) body

/-- The filter is one operand: a path or a call, or no constant, in parentheses. -/
inductive IsOperand (ctx : Context) (text : String) : Expression → Prop where
  | path {p : PropertyPath} (parses : parse ctx text = .ok (.path p)) : IsOperand ctx text (.path p)
  | call {name : String} {arguments : List Expression}
    (parses : parse ctx text = .ok (.call name arguments)) :
    IsOperand ctx text (.call name arguments)
  | parens {e : Expression} (parses : parse ctx text = .ok e) (enclosed : Enclosed text.toList)
    (free : ∀ c, e ≠ .constant c) : IsOperand ctx text e

namespace IsOperand

variable {text : String} {e : Expression}

private theorem parses (h : IsOperand ctx text e) : parse ctx text = .ok e := by
  cases h with
  | path parses => exact parses
  | call parses => exact parses
  | parens parses => exact parses

/-- An operand is admitted by every operator. -/
theorem checkOperand_eq_ok (h : IsOperand ctx text e) (op : BinaryOperator) :
    checkOperand op e = .ok () := by
  cases h with
  | path => rfl
  | call => rfl
  | parens _ _ free =>
    cases e with
    | constant c => exact absurd rfl (free c)
    | _ => rfl

-- What is read up to where all parentheses are closed is followed by blanks only.
private theorem blank_of_closed {body trail w mid : List Char}
    (hbody : Text.Sealed (fun _ ↦ false) body) (htrail : ∀ c ∈ trail, c.isWhitespace = true)
    (heq : body ++ ')' :: trail = w ++ mid)
    (hw : Text.walk (fun _ ↦ false) (false, 1) w = some (false, 0)) :
    ∀ c ∈ mid, c.isWhitespace = true := by
  rcases List.append_eq_append_iff.mp heq with ⟨v, rfl, hv⟩ | ⟨v, rfl, -⟩
  · cases v with
    | nil =>
      rw [List.append_nil, hbody.walk (.inr rfl)] at hw
      cases hw
    | cons c v =>
      obtain ⟨-, rfl⟩ := List.cons.inj hv
      exact fun c hc ↦ htrail c (List.mem_append_right v hc)
  · -- within the parentheses, the first of them stays open
    rw [Text.Sealed, Text.walk_append] at hbody
    obtain ⟨place, hplace, -⟩ := Option.bind_eq_some_iff.mp hbody
    have hshift := Text.walk_shift hplace (k := 1) (.inr rfl)
    rw [Nat.zero_add, hw, Option.some.injEq, Prod.mk.injEq] at hshift
    omega

-- The whole operand is read with no operator in front of it, behind blanks.
private theorem exists_primary (h : IsOperand ctx text e) :
    ∃ s rest, text.toList.dropWhile Char.isWhitespace = s ∧
      (∀ c ∈ rest, c.isWhitespace = true) ∧ ReadsPrimary ctx s.length s e rest := by
  obtain ⟨rest, hscan, hblank⟩ := found_of_entire h.parses
  obtain ⟨s, hs⟩ : ∃ s, text.toList.dropWhile Char.isWhitespace = s := ⟨_, rfl⟩
  rw [hs] at hscan
  refine ⟨s, rest, hs, hblank, ?_⟩
  obtain ⟨first, mid, hfirst, hcases⟩ := exists_first hscan
  have hplain (hbinary : ¬ ∃ op l r, e = .binary op l r)
      (hunary : ¬ ∃ op operand, e = .unary op operand) : ReadsPrimary ctx s.length s e rest := by
    obtain ⟨rfl, rfl⟩ := hcases.resolve_right fun h ↦ hbinary h.1
    exact (primary_or_of_scanOperand hfirst).resolve_left fun h ↦ hunary h.1
  cases h with
  | path => exact hplain (by rintro ⟨_, _, _, ⟨⟩⟩) (by rintro ⟨_, _, ⟨⟩⟩)
  | call => exact hplain (by rintro ⟨_, _, _, ⟨⟩⟩) (by rintro ⟨_, _, ⟨⟩⟩)
  | parens _ enclosed =>
    obtain ⟨body, ⟨lead, trail, htext, hlead, htrail⟩, hbody⟩ := enclosed
    have hparen : Stops Char.isWhitespace ('(' :: body ++ [')'] ++ trail) :=
      (stops_cons _ _ _).mpr rfl
    rw [htext, dropWhile_append_of_stops hlead hparen] at hs
    simp only [List.append_assoc, List.cons_append, List.nil_append] at hs
    subst hs
    have hprimary := (primary_or_of_scanOperand hfirst).resolve_left
      fun h ↦ absurd ((stops_cons _ _ _).mp h.2) (by decide)
    rcases hcases with ⟨rfl, rfl⟩ | ⟨-, ops, op, last, hop⟩
    · exact hprimary
    · -- an operator is read neither in front of the parentheses nor behind them
      exfalso
      obtain ⟨hstart, c, hc, hspace⟩ := of_scan_operator hop
      obtain ⟨w, hw, hwalk⟩ := hprimary.exists_shuts
      cases w with
      | nil =>
        rw [List.nil_append] at hw
        rw [← hw] at hstart
        exact hstart ((stops_cons _ _ _).mpr rfl)
      | cons d w =>
        obtain ⟨rfl, hbehind⟩ := List.cons.inj hw
        rw [blank_of_closed hbody htrail hbehind hwalk c hc] at hspace
        cases hspace

/-- An operand stands alone, but for blanks at its ends. -/
theorem exists_stands (h : IsOperand ctx text e) :
    ∃ core, Pads core text.toList ∧ Stands ctx core e := by
  obtain ⟨s, rest, hs, hblank, hprimary⟩ := h.exists_primary
  have hstops : Stops Char.isWhitespace s := by
    rw [← hs]
    exact stops_dropWhile Char.isWhitespace _
  obtain ⟨core, hcore, -⟩ := hprimary.exists_shuts
  cases core with
  | nil =>
    -- what begins with no blank and has only blanks is empty, and nothing is read from it
    cases rest with
    | nil =>
      have hmissed (X : Scanner ExpressionError Expression) : scanPrimary ctx X [] = .missed := rfl
      have hfound := hprimary.primary
      rw [hcore, List.append_nil, hmissed] at hfound
      cases hfound
    | cons c rest =>
      rw [hcore] at hstops
      have hc := (stops_cons _ _ _).mp hstops
      rw [hblank c List.mem_cons_self] at hc
      cases hc
  | cons c core =>
    rw [hcore] at hprimary hstops
    refine ⟨c :: core, ⟨text.toList.takeWhile Char.isWhitespace, rest, ?_,
      fun c hc ↦ List.mem_takeWhile_imp hc, hblank⟩, ?_⟩
    · rw [← hcore, ← hs, List.takeWhile_append_dropWhile]
    · apply hprimary.stands
      · rw [List.length_append]
        exact Nat.le_add_right _ _
      · exact ends_of_blank hblank
      · exact fun t ↦ (stops_cons _ _ _).mpr ((stops_cons _ _ _).mp hstops)

end IsOperand

end Expression

end SensorQuery
