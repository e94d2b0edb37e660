import SensorQuery.Proofs.Model.Within
import SensorQuery.Proofs.Query.Expression
import SensorQuery.Proofs.Query.Settled

/-!
# Expressions read in larger models

An expression that is read in a model is read alike in a larger one, if it is settled there. Names
that are sorted alike are read alike, so the two readings go the same way, except in what is read
and then dropped: the arguments of a call that is not closed need not be settled. Such a call is
read as a path in front of an opening parenthesis, which nothing can stand behind. So the two
readings are compared in front of texts that open no parenthesis (`Scanner.Replays`).
-/

namespace SensorQuery

open Fallible Scanner
open RawStep (isNameChar)

variable {ctx : Context} {more : Registry}

/-! ### Names -/

namespace PropertyPath

private theorem classifyStep_of_within (hwithin : ctx.model.Within more)
    (hlinks : ctx.customLinks = false) {position : Position} {raw : RawStep}
    {p : PathStep × Position} (h : classifyStep ctx position raw = .ok p)
    (hsettled : ∀ name, p.1 = .property name → more.isNavigationName name = false) :
    classifyStep { ctx with model := more } position raw = .ok p := by
  obtain ⟨step, next⟩ := p
  rw [classifyStep_eq_ok_iff] at h ⊢
  cases h with
  | primaryKey => exact .primaryKey
  | navigation notAlias link => exact .navigation notAlias (hwithin.isNavigationName link)
  | property notAlias notLink value =>
    exact .property notAlias (hsettled _ rfl) (hwithin.isEntityPropertyName value)
  | customLink on =>
    rw [hlinks] at on
    cases on
  | custom => exact .custom (by rw [hlinks, if_neg Bool.false_ne_true])
  | index i => exact .index i

private theorem classify_of_within (hwithin : ctx.model.Within more)
    (hlinks : ctx.customLinks = false) {position : Position} {raws : List RawStep}
    {steps : List PathStep} (h : classify ctx position raws = .ok steps)
    (hsettled : Settled more ⟨steps⟩) :
    classify { ctx with model := more } position raws = .ok steps := by
  induction raws generalizing position steps with
  | nil => exact h
  | cons raw raws ih =>
    obtain ⟨p, others, hstep, hothers, rfl⟩ := classify_cons h
    have hfirst : ∀ name, p.1 = .property name → more.isNavigationName name = false :=
      fun name hname ↦ hsettled name (hname ▸ List.mem_cons_self)
    have hrest : Settled more ⟨others⟩ :=
      fun name hname ↦ hsettled name (List.mem_cons_of_mem _ hname)
    rw [classify, classifyStep_of_within hwithin hlinks hstep hfirst]
    simp only [ok_bind, ih hothers hrest]
    rfl

/-- A path that is read in a model is read alike in a larger one, if it is settled there. -/
theorem scan_of_within (hwithin : ctx.model.Within more) (hlinks : ctx.customLinks = false)
    {s rest : List Char} {p : PropertyPath} (h : scan ctx s = .found p rest)
    (hp : p.Settled more) : scan { ctx with model := more } s = .found p rest := by
  obtain ⟨raws, mid, hraws, h⟩ := bind_eq_found.mp h
  obtain ⟨steps, mid', hsteps, h⟩ := bind_eq_found.mp h
  cases h
  obtain ⟨hsorted, rfl⟩ := ofExcept_eq_found.mp hsteps
  unfold scan
  rw [bind_found hraws, classify_of_within hwithin hlinks hsorted hp,
    bind_found (ofExcept_ok steps mid)]
  rfl

/-- Where a path is read that no opening parenthesis follows, no call is. -/
theorem scanCall_missed_of_scan {s rest : List Char} {p : PropertyPath}
    (h : scan ctx s = .found p rest) (hrest : Stops (· == '(') rest) {functions : Catalog}
    {expression : Scanner ExpressionError Expression} :
    Expression.scanCall functions expression s = .missed := by
  obtain ⟨raws, mid, hraws, h⟩ := bind_eq_found.mp h
  obtain ⟨_, _, hsteps, h⟩ := bind_eq_found.mp h
  cases h
  obtain ⟨-, rfl⟩ := ofExcept_eq_found.mp hsteps
  obtain ⟨w, t, hname, hopen⟩ :=
    RawStep.exists_scanName_of_scanPath (by decide) (by decide) hraws hrest
  obtain ⟨rfl, hw, hstops⟩ := RawStep.scanName_eq_found hname
  apply Expression.scanCall_missed
  intro v t' hv hvname ht'
  by_cases halias : w = PathStep.keyAlias.toList
  · subst halias
    exact Expression.stops_of_run (v := []) (by simp) ((stops_cons _ _ _).mpr (by decide))
      ((stops_cons _ _ _).mpr (by decide)) hvname ht' hv
  · exact Expression.stops_of_run (hw.resolve_left halias).2 (hstops.resolve_left halias) hopen
      hvname ht' hv

/-- A path that a text denotes in a model is denoted in a larger one, if it is settled there. -/
theorem parse_of_within (hwithin : ctx.model.Within more) (hlinks : ctx.customLinks = false)
    {t : String} {p : PropertyPath} (h : parse ctx t = .ok p) (hp : p.Settled more) :
    parse { ctx with model := more } t = .ok p := by
  obtain ⟨rest, hfound, hrest⟩ := entire_eq_ok_iff.mp h
  exact entire_eq_ok_iff.mpr ⟨rest, scan_of_within hwithin hlinks hfound hp, hrest⟩

end PropertyPath

/-! ### Scanners -/

namespace Scanner

variable {α : Type}

/-- What the scanner finds with the property in front of a text that opens no parenthesis, the other
finds too. -/
def Replays (P : α → Prop) (p p' : Scanner ExpressionError α) : Prop :=
  ∀ s a rest, p s = .found a rest → Stops (· == '(') rest → P a → p' s = .found a rest

/-- Blanks open no parenthesis. -/
theorem stops_open_of_dropWhile {s : List Char}
    (h : Stops (· == '(') (s.dropWhile Char.isWhitespace)) : Stops (· == '(') s := by
  cases s with
  | nil => exact stops_nil _
  | cons c s =>
    by_cases hc : c.isWhitespace = true
    · rw [stops_cons, beq_eq_false_iff_ne]
      rintro rfl
      exact absurd hc (by decide)
    · rwa [List.dropWhile_cons_of_neg hc] at h

private theorem stops_open_of_blanks1 {s rest : List Char} {u : Unit}
    (h : (blanks1 : Scanner ExpressionError Unit) s = .found u rest) : Stops (· == '(') s := by
  obtain ⟨w, _, hw, -⟩ := bind_eq_found.mp h
  obtain ⟨rfl, hne, hall, -⟩ := run1_eq_found.mp hw
  obtain ⟨c, w, rfl⟩ := List.exists_cons_of_ne_nil hne
  rw [List.cons_append, stops_cons, beq_eq_false_iff_ne]
  rintro rfl
  exact absurd (hall _ List.mem_cons_self) (by decide)

private theorem stops_open_of_blank {s : List Char} (h : ∀ c ∈ s, c.isWhitespace = true) :
    Stops (· == '(') s := by
  apply stops_open_of_dropWhile
  rw [List.dropWhile_eq_nil_iff.mpr h]
  exact stops_nil _

/-- In front of a character between blanks, no parenthesis is opened unless by the character. -/
theorem stops_open_of_char {c : Char} (hc : c ≠ '(') {s rest : List Char} {u : Unit}
    (h : (do blanks; char c : Scanner ExpressionError Unit) s = .found u rest) :
    Stops (· == '(') s := by
  rw [bind_found (blanks_apply s), char_eq_found] at h
  apply stops_open_of_dropWhile
  rw [h, stops_cons, beq_eq_false_iff_ne]
  exact hc

private theorem stops_open_of_scanComma {s rest : List Char} {u : Unit}
    (h : (Expression.scanComma : Scanner ExpressionError Unit) s = .found u rest) :
    Stops (· == '(') s := by
  obtain ⟨_, mid, hblanks, h⟩ := bind_eq_found.mp h
  obtain ⟨_, _, hcomma, -⟩ := bind_eq_found.mp h
  have hchar : (do blanks; char ',' : Scanner ExpressionError Unit) s = .found () _ :=
    bind_eq_found.mpr ⟨_, mid, hblanks, hcomma⟩
  exact stops_open_of_char (by decide) hchar

variable {P : α → Prop} {p p' : Scanner ExpressionError α}

private theorem Replays.chain (h : Replays P p p') {as : List α} {s rest : List Char}
    (has : Chain (do Expression.scanComma; p) as s rest) (hrest : Stops (· == '(') rest)
    (hP : ∀ a ∈ as, P a) : Chain (do Expression.scanComma; p') as s rest := by
  have hcomma : ∀ s a rest, (do Expression.scanComma; p : Scanner ExpressionError α) s =
      .found a rest → Stops (· == '(') s := by
    intro s a rest hs
    obtain ⟨_, _, hcomma, -⟩ := bind_eq_found.mp hs
    exact stops_open_of_scanComma hcomma
  induction has with
  | nil s => exact .nil s
  | cons head tail ih =>
    obtain ⟨ha, has⟩ := List.forall_mem_cons.mp hP
    obtain ⟨_, mid, hread, hfound⟩ := bind_eq_found.mp head
    refine .cons ?_ (ih hrest has)
    rw [bind_found hread]
    exact h _ _ _ hfound (tail.stops hcomma hrest) ha

/-- A list with commas is found by both, if no comma follows it. -/
theorem Replays.separated (h : Replays P p p') {as : List α} {s rest : List Char}
    (has : separated Expression.scanComma p s = .found as rest) (hrest : Stops (· == '(') rest)
    (hcomma : (Expression.scanComma : Scanner ExpressionError Unit) rest = .missed)
    (hP : ∀ a ∈ as, P a) : Scanner.separated Expression.scanComma p' s = .found as rest := by
  obtain ⟨a, mid, ha, has⟩ := bind_eq_found.mp has
  obtain ⟨others, _, hothers, has⟩ := bind_eq_found.mp has
  cases has
  obtain ⟨hPa, hPothers⟩ := List.forall_mem_cons.mp hP
  have hchain := chain_of_many hothers
  have hmid : Stops (· == '(') mid := by
    refine hchain.stops (fun s b rest hb ↦ ?_) hrest
    obtain ⟨_, _, hread, -⟩ := bind_eq_found.mp hb
    exact stops_open_of_scanComma hread
  have hmany := many_of_chain (h.chain hchain hrest hPothers) (bind_missed hcomma)
    (length_le_of_many hothers)
  unfold Scanner.separated
  rw [bind_found (h _ _ _ ha hmid hPa)]
  refine (bind_found hmany).trans ?_
  rfl

end Scanner

/-! ### The grammar -/

namespace Expression

variable {operand operand' expression expression' : Scanner ExpressionError Expression}

-- The left operand of a chain is settled if the chain is, and no parenthesis is opened behind it.
private theorem replays_scanChainFrom (h : Replays (Settled more) operand operand')
    {ops : List BinaryOperator} (n : Nat) {left e : Expression} {s rest : List Char}
    (he : scanChainFrom ops operand n left s = .found e rest) (hrest : Stops (· == '(') rest)
    (hsettled : e.Settled more) : left.Settled more ∧ Stops (· == '(') s ∧
      scanChainFrom ops operand' n left s = .found e rest := by
  induction n generalizing left s with
  | zero =>
    cases he
    exact ⟨hsettled, hrest, rfl⟩
  | succ n ih =>
    obtain ⟨o, mid, ho, he⟩ := bind_eq_found.mp he
    rw [scanChainFrom, bind_found ho]
    rcases optional_eq_found.mp ho with ⟨op, rfl, hop⟩ | ⟨rfl, -, rfl⟩
    · obtain ⟨right, mid', hright, he⟩ := bind_eq_found.mp he
      obtain ⟨_, _, hcheckLeft, he⟩ := bind_eq_found.mp he
      obtain ⟨_, _, hcheckRight, he⟩ := bind_eq_found.mp he
      obtain ⟨-, rfl⟩ := ofExcept_eq_found.mp hcheckLeft
      obtain ⟨-, rfl⟩ := ofExcept_eq_found.mp hcheckRight
      obtain ⟨hboth, hopen, hmore⟩ := ih he
      obtain ⟨hleft, hsettledRight⟩ := settled_binary.mp hboth
      refine ⟨hleft, ?_, ?_⟩
      · obtain ⟨_, _, hblanks, -⟩ := bind_eq_found.mp hop
        exact stops_open_of_blanks1 hblanks
      · refine (bind_found (h _ _ _ hright hopen hsettledRight)).trans ?_
        rw [bind_found hcheckLeft, bind_found hcheckRight]
        exact hmore
    · cases he
      exact ⟨hsettled, hrest, rfl⟩

private theorem replays_scanLevels (h : Replays (Settled more) operand operand')
    (levels : List (List BinaryOperator)) :
    Replays (Settled more) (scanLevels operand levels) (scanLevels operand' levels) := by
  induction levels with
  | nil => exact h
  | cons ops tighter ih =>
    intro s e rest he hrest hsettled
    obtain ⟨left, mid, hleft, he⟩ := bind_eq_found.mp he
    obtain ⟨hsettledLeft, hopen, hchain⟩ := replays_scanChainFrom ih _ he hrest hsettled
    exact (bind_found (ih _ _ _ hleft hopen hsettledLeft)).trans hchain

private theorem replays_scanParens (h : Replays (Settled more) expression expression') :
    Replays (Settled more) (scanParens expression) (scanParens expression') := by
  intro s e rest he _ hsettled
  obtain ⟨_, _, hopen, he⟩ := bind_eq_found.mp he
  obtain ⟨_, _, hlead, he⟩ := bind_eq_found.mp he
  obtain ⟨e', mid, hread, he⟩ := bind_eq_found.mp he
  obtain ⟨_, _, htrail, he⟩ := bind_eq_found.mp he
  obtain ⟨_, _, hclose, he⟩ := bind_eq_found.mp he
  cases he
  have hstops := stops_open_of_char (by decide) (bind_eq_found.mpr ⟨_, _, htrail, hclose⟩)
  unfold scanParens
  rw [bind_found hopen, bind_found hlead, bind_found (h _ _ _ hread hstops hsettled),
    bind_found htrail, bind_found hclose]
  rfl

private theorem replays_arguments (h : Replays (Settled more) expression expression')
    (hclose : ∀ t, expression' (')' :: t) = .missed) {s mid rest : List Char}
    {arguments : Option (List Expression)} (hblank : Stops Char.isWhitespace s)
    (harguments : optional (separated scanComma expression) s = .found arguments mid)
    (hmid : mid.dropWhile Char.isWhitespace = ')' :: rest)
    (hsettled : ∀ e ∈ arguments.getD [], e.Settled more) :
    optional (separated scanComma expression') s = .found arguments mid := by
  rcases optional_eq_found.mp harguments with ⟨es, rfl, hes⟩ | ⟨rfl, -, rfl⟩
  · have hopen : Stops (· == '(') mid := by
      apply stops_open_of_dropWhile
      rw [hmid, stops_cons]
      decide
    have hcomma : (scanComma : Scanner ExpressionError Unit) mid = .missed := by
      unfold scanComma
      rw [bind_found (blanks_apply mid), hmid]
      exact bind_missed (char_missed ((stops_cons _ _ _).mpr (by decide)))
    exact optional_found (h.separated hes hopen hcomma hsettled)
  · rw [hblank.dropWhile_eq] at hmid
    rw [hmid]
    exact optional_missed (bind_missed (hclose rest))

private theorem replays_scanCall (h : Replays (Settled more) expression expression')
    (hclose : ∀ t, expression' (')' :: t) = .missed) (functions : Catalog) :
    Replays (Settled more) (scanCall functions expression) (scanCall functions expression') := by
  intro s e rest he _ hsettled
  obtain ⟨name, _, hname, he⟩ := bind_eq_found.mp he
  obtain ⟨_, mid, hopen, he⟩ := bind_eq_found.mp he
  obtain ⟨_, front, hlead, he⟩ := bind_eq_found.mp he
  obtain ⟨arguments, back, harguments, he⟩ := bind_eq_found.mp he
  obtain ⟨_, _, htrail, he⟩ := bind_eq_found.mp he
  obtain ⟨_, _, hend, he⟩ := bind_eq_found.mp he
  obtain ⟨hmade, rfl⟩ := ofExcept_eq_found.mp he
  obtain ⟨f, -, -, -, rfl⟩ := makeCall_eq_ok.mp hmade
  have hfront : Stops Char.isWhitespace front := by
    rw [blanks_apply, Scan.found.injEq] at hlead
    exact hlead.2 ▸ stops_dropWhile _ _
  have hback := char_eq_found.mp hend
  rw [blanks_apply, Scan.found.injEq] at htrail
  have harguments' := replays_arguments h hclose hfront harguments (htrail.2.trans hback)
    (settled_call.mp hsettled)
  unfold scanCall
  rw [bind_found hname, bind_found hopen, bind_found hlead, bind_found harguments',
    bind_found (blanks_apply back), htrail.2, bind_found hend, hmade]
  rfl

private theorem scanPrimary_open (expression : Scanner ExpressionError Expression)
    (t : List Char) : scanPrimary ctx expression ('(' :: t) = scanParens expression ('(' :: t) := by
  have hstops {p : Char → Bool} (hp : p '(' = false) : Stops p ('(' :: t) :=
    (stops_cons _ _ _).mpr hp
  apply orElse_of_missed
  apply firstOf_eq_missed
  intro p hp
  simp only [List.mem_cons, List.not_mem_nil, or_false] at hp
  rcases hp with rfl | rfl | rfl
  · exact bind_missed (Literal.scan_missed_of_stops (hstops (by decide)) (hstops (by decide))
      (hstops (by decide)))
  · exact bind_missed (bind_missed (run1_missed (hstops (by decide))))
  · exact bind_missed (PropertyPath.scan_missed_of_stops (hstops (by decide))
      (hstops (by decide)))

private theorem replays_scanPrimary (hwithin : ctx.model.Within more)
    (hlinks : ctx.customLinks = false) (h : Replays (Settled more) expression expression')
    (hclose : ∀ t, expression' (')' :: t) = .missed) :
    Replays (Settled more) (scanPrimary ctx expression)
      (scanPrimary { ctx with model := more } expression') := by
  intro s e rest he hrest hsettled
  rcases stops_or_exists '(' s with hopen | ⟨t, rfl⟩
  · refine (firstOf_missed (scanParens_missed hopen)).trans ?_
    unfold scanPrimary at he
    rw [firstOf_missed (scanParens_missed hopen)] at he
    rcases orElse_eq_found.mp he with he | ⟨hliteral, he⟩
    · exact firstOf_found he
    refine (firstOf_missed hliteral).trans ?_
    rcases orElse_eq_found.mp he with he | ⟨-, he⟩
    · exact firstOf_found (replays_scanCall h hclose ctx.functions _ _ _ he hrest hsettled)
    rcases orElse_eq_found.mp he with he | ⟨-, he⟩
    · obtain ⟨p, _, hp, he⟩ := bind_eq_found.mp he
      cases he
      refine (firstOf_missed (PropertyPath.scanCall_missed_of_scan hp hrest)).trans ?_
      apply firstOf_found
      rw [bind_found (PropertyPath.scan_of_within hwithin hlinks hp (settled_path.mp hsettled))]
      rfl
    · cases he
  · rw [scanPrimary_open] at he ⊢
    exact replays_scanParens h _ _ _ he hrest hsettled

private theorem scanPrimary_missed_of_minus {s : List Char}
    (h : scanPrimary ctx expression ('-' :: s) = .missed) :
    scanPrimary { ctx with model := more } expression' ('-' :: s) = .missed := by
  apply scanPrimary_minus_missed
  have hliteral := missed_of_firstOf h _ (List.mem_cons_of_mem _ List.mem_cons_self)
  rcases bind_eq_missed.mp hliteral with hliteral | ⟨c, mid, -, hc⟩
  · exact hliteral
  · cases hc

-- Operands are read alike: by induction on the nesting.
private theorem replays_scanOperand (hwithin : ctx.model.Within more)
    (hlinks : ctx.customLinks = false) (depth : Nat) :
    Replays (Settled more) (scanOperand ctx depth)
      (scanOperand { ctx with model := more } depth) := by
  induction depth with
  | zero =>
    intro s e rest he
    cases he
  | succ depth ih =>
    intro s e rest he hrest hsettled
    obtain ⟨o, mid, ho, he⟩ := bind_eq_found.mp he
    rw [scanOperand, bind_found ho]
    rcases optional_eq_found.mp ho with ⟨_, rfl, -⟩ | ⟨rfl, -, rfl⟩
    · obtain ⟨operand, mid', hoperand, he⟩ := bind_eq_found.mp he
      obtain ⟨_, _, hcheck, he⟩ := bind_eq_found.mp he
      obtain ⟨-, rfl⟩ := ofExcept_eq_found.mp hcheck
      cases he
      refine (bind_found (ih _ _ _ hoperand hrest (settled_unary.mp hsettled))).trans ?_
      rw [bind_found hcheck]
      rfl
    · have hlevels := replays_scanLevels ih BinaryOperator.levels
      have hclose (t : List Char) : scanLevels (scanOperand { ctx with model := more } depth)
          BinaryOperator.levels (')' :: t) = .missed :=
        scanLevels_missed (scanOperand_close_missed t) _
      rcases orElse_eq_found.mp he with he | ⟨hmissed, he⟩
      · exact orElse_found
          (replays_scanPrimary hwithin hlinks hlevels hclose _ _ _ he hrest hsettled)
      · obtain ⟨_, mid', hminus, he⟩ := bind_eq_found.mp he
        obtain ⟨operand, _, hoperand, he⟩ := bind_eq_found.mp he
        cases he
        obtain ⟨_, _, hsign, -⟩ := bind_eq_found.mp hminus
        obtain rfl := char_eq_found.mp hsign
        refine (orElse_missed (scanPrimary_missed_of_minus hmissed)).trans ?_
        rw [bind_found hminus]
        refine (bind_found (ih _ _ _ hoperand hrest (settled_unary.mp hsettled))).trans ?_
        rfl

/-- An expression that is read in a model is read alike in a larger one. -/
theorem replays_scan (hwithin : ctx.model.Within more) (hlinks : ctx.customLinks = false) :
    Replays (Settled more) (scan ctx) (scan { ctx with model := more }) :=
  fun _ _ _ ↦ replays_scanLevels (replays_scanOperand hwithin hlinks _) _ _ _ _

/-- A filter is read alike in a larger model, if it is settled there. -/
theorem parse_of_within (hwithin : ctx.model.Within more) (hlinks : ctx.customLinks = false)
    {t : String} {e : Expression} (h : parse ctx t = .ok e) (he : e.Settled more) :
    parse { ctx with model := more } t = .ok e := by
  obtain ⟨rest, hfound, hrest⟩ := entire_eq_ok_iff.mp h
  exact entire_eq_ok_iff.mpr
    ⟨rest, replays_scan hwithin hlinks _ _ _ hfound (stops_open_of_blank hrest) he, hrest⟩

end Expression

namespace Order

private theorem replays_scan (hwithin : ctx.model.Within more) (hlinks : ctx.customLinks = false) :
    Replays (fun o : Order ↦ o.expression.Settled more) (scan ctx)
      (scan { ctx with model := more }) := by
  intro s o rest ho hrest hsettled
  obtain ⟨e, mid, he, ho⟩ := bind_eq_found.mp ho
  obtain ⟨direction, _, hdirection, ho⟩ := bind_eq_found.mp ho
  cases ho
  have hmid : Stops (· == '(') mid := by
    rcases optional_eq_found.mp hdirection with ⟨_, -, hd⟩ | ⟨-, -, rfl⟩
    · obtain ⟨_, _, hblanks, -⟩ := bind_eq_found.mp hd
      exact stops_open_of_blanks1 hblanks
    · exact hrest
  unfold scan
  rw [bind_found (Expression.replays_scan hwithin hlinks _ _ _ he hmid hsettled)]
  refine (bind_found hdirection).trans ?_
  rfl

/-- Orders are read alike in a larger model, if they are settled there. -/
theorem parse_of_within (hwithin : ctx.model.Within more) (hlinks : ctx.customLinks = false)
    {t : String} {os : List Order} (h : parse ctx t = .ok os)
    (hos : ∀ o ∈ os, o.expression.Settled more) :
    parse { ctx with model := more } t = .ok os := by
  obtain ⟨rest, hfound, hrest⟩ := entire_eq_ok_iff.mp h
  refine entire_eq_ok_iff.mpr ⟨rest, ?_, hrest⟩
  refine (replays_scan hwithin hlinks).separated hfound (stops_open_of_blank hrest) ?_ hos
  unfold Expression.scanComma
  rw [bind_found (blanks_apply rest), List.dropWhile_eq_nil_iff.mpr hrest]
  exact bind_missed (char_missed (stops_nil _))

end Order

end SensorQuery
