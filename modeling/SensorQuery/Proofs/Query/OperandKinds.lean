import SensorQuery.Proofs.Path.Addressed
import SensorQuery.Proofs.Query.RoundTrip

/-!
# Constants beside operators

A constant that is the operand of an operator is of a kind that the operator is for, at every node
of an expression that is read (`Expression.OperandsFit`), with one exception: a minus sign is not
checked, so truth values, texts and geometries may stand behind it. Which kinds an operator is for
is written down apart from the checks of the grammar.
-/

namespace SensorQuery

/-! ### Kinds of operands -/

/-- The operator is for constants of the kind: connectives for truth values, arithmetic for numbers
and times, comparisons for all constants, and every operator for null. -/
inductive BinaryOperator.Takes : BinaryOperator → Literal.Kind → Prop where
  | null (op : BinaryOperator) : Takes op .null
  | truth {op : BinaryOperator} (connective : op = .and ∨ op = .or) : Takes op .boolean
  | number {op : BinaryOperator}
    (arithmetic : op ∈ [.add, .subtract, .multiply, .divide, .modulo]) : Takes op .numeric
  | time {op : BinaryOperator}
    (arithmetic : op ∈ [.add, .subtract, .multiply, .divide, .modulo]) : Takes op .temporal
  | compared {op : BinaryOperator} (comparison : op ∈ comparisons) (kind : Literal.Kind) :
    Takes op kind

/-- The operator is for constants of the kind: `not` for truth values, the minus sign for numbers
and times, and both for null. -/
inductive UnaryOperator.Takes : UnaryOperator → Literal.Kind → Prop where
  | null (op : UnaryOperator) : Takes op .null
  | truth : Takes .not .boolean
  | number : Takes .negate .numeric
  | time : Takes .negate .temporal

private theorem BinaryOperator.mem_of_isArithmetic {op : BinaryOperator}
    (h : op.isArithmetic = true) :
    op ∈ [.add, .subtract, .multiply, .divide, .modulo] := by
  revert h
  cases op <;> decide

/-- An operator that is no connective and does not compute compares. -/
theorem BinaryOperator.mem_comparisons {op : BinaryOperator}
    (hconnective : ¬ (op = .and ∨ op = .or)) (harithmetic : ¬ op.isArithmetic = true) :
    op ∈ comparisons := by
  revert hconnective harithmetic
  cases op <;> decide

private theorem BinaryOperator.takes_of_admits {op : BinaryOperator} {kind : Literal.Kind}
    (h : op.admits kind = true) : op.Takes kind := by
  unfold admits at h
  split at h
  · next hnull => exact hnull ▸ .null op
  split at h
  · next hconnective =>
    obtain rfl : kind = .boolean := by simpa using h
    exact .truth hconnective
  next hconnective =>
    split at h
    · next harithmetic =>
      have hmem := mem_of_isArithmetic harithmetic
      obtain rfl | rfl : kind = .numeric ∨ kind = .temporal := by simpa using h
      · exact .number hmem
      · exact .time hmem
    · next harithmetic => exact .compared (mem_comparisons hconnective harithmetic) kind

/-- The minus sign is for all kinds but truth values, texts and geometries. -/
theorem UnaryOperator.not_takes_negate_iff {kind : Literal.Kind} :
    ¬ UnaryOperator.negate.Takes kind ↔ kind ∈ [.boolean, .text, .geometry] := by
  cases kind with
  | null => exact iff_of_false (not_not_intro (.null _)) (by decide)
  | numeric => exact iff_of_false (not_not_intro .number) (by decide)
  | temporal => exact iff_of_false (not_not_intro .time) (by decide)
  | boolean | text | geometry => exact iff_of_true nofun (by decide)

namespace Expression

/-! ### Nodes -/

mutual

/-- The expression and all expressions in it. -/
def nodes : Expression → List Expression
  | .constant c => [.constant c]
  | .path p => [.path p]
  | .binary op left right => .binary op left right :: (left.nodes ++ right.nodes)
  | .unary op operand => .unary op operand :: operand.nodes
  | .call name arguments => .call name arguments :: nodesOfAll arguments

/-- The expressions and all expressions in them. -/
def nodesOfAll : List Expression → List Expression
  | [] => []
  | e :: es => e.nodes ++ nodesOfAll es

end

/-- A constant that is a direct operand of the node is of a kind that the operator of the node is
for. -/
def OperandsFit : Expression → Prop
  | .binary op left right => ∀ c, left = .constant c ∨ right = .constant c → op.Takes c.kind
  | .unary op operand => ∀ c, operand = .constant c → op.Takes c.kind
  | _ => True

/-- The node fits, unless it is a minus sign in front of a constant. -/
def Checked (node : Expression) : Prop :=
  (∀ c, node ≠ .unary .negate (.constant c)) → node.OperandsFit

variable {ctx : Context}

/-- An expression is one of its nodes. -/
@[simp] theorem self_mem_nodes (e : Expression) : e ∈ e.nodes := by
  cases e <;> simp [nodes]

private theorem forall_nodesOfAll {P : Expression → Prop} {es : List Expression}
    (h : ∀ e ∈ es, ∀ node ∈ e.nodes, P node) : ∀ node ∈ nodesOfAll es, P node := by
  induction es with
  | nil => exact List.forall_mem_nil _
  | cons e es ih =>
    obtain ⟨he, hes⟩ := List.forall_mem_cons.mp h
    rw [nodesOfAll, List.forall_mem_append]
    exact ⟨he, ih hes⟩

private theorem takes_of_checkOperand {op : BinaryOperator} {c : Literal}
    (h : checkOperand op (.constant c) = .ok ()) : op.Takes c.kind := by
  rw [checkOperand] at h
  split at h
  · next hadmits => exact BinaryOperator.takes_of_admits hadmits
  · cases h

private theorem takes_of_checkNegand {c : Literal}
    (h : checkNegand (.constant c) = .ok ()) : UnaryOperator.not.Takes c.kind := by
  rw [checkNegand] at h
  split at h
  · next hkind =>
    rcases hkind with hkind | hkind <;> rw [hkind]
    · exact .truth
    · exact .null _
  · cases h

/-- Every place that builds an operator checks its operands, but the one that reads a minus sign. -/
theorem hereditary_checked (ctx : Context) :
    Hereditary ctx fun e ↦ ∀ node ∈ e.nodes, node.Checked where
  constant _ := List.forall_mem_singleton.mpr fun _ ↦ trivial
  path _ _ _ := List.forall_mem_singleton.mpr fun _ ↦ trivial
  binary hleft hright checkLeft checkRight := by
    refine List.forall_mem_cons.mpr ⟨?_, List.forall_mem_append.mpr ⟨hleft, hright⟩⟩
    rintro - c (rfl | rfl)
    · exact takes_of_checkOperand checkLeft
    · exact takes_of_checkOperand checkRight
  not hoperand check := by
    refine List.forall_mem_cons.mpr ⟨?_, hoperand⟩
    rintro - c rfl
    exact takes_of_checkNegand check
  negate hoperand := by
    refine List.forall_mem_cons.mpr ⟨?_, hoperand⟩
    intro hother c hc
    exact absurd (congrArg _ hc) (hother c)
  call _ harguments hmade := by
    obtain ⟨f, -, -, -, rfl⟩ := makeCall_eq_ok.mp hmade
    exact List.forall_mem_cons.mpr ⟨fun _ ↦ trivial, forall_nodesOfAll harguments⟩

/-- An operand of a checked node that does not fit is one behind a minus sign. -/
theorem Checked.not_operandsFit_iff {node : Expression} (h : node.Checked) :
    ¬ node.OperandsFit ↔
      ∃ c, node = .unary .negate (.constant c) ∧ c.kind ∈ [.boolean, .text, .geometry] := by
  constructor
  · intro hnot
    by_contra hother
    push Not at hother
    refine hnot (h fun c hc ↦ ?_)
    subst hc
    refine hnot fun d hd ↦ ?_
    cases hd
    exact not_not.mp fun hkind ↦ hother c rfl (UnaryOperator.not_takes_negate_iff.mp hkind)
  · rintro ⟨c, rfl, hkind⟩ hfit
    exact UnaryOperator.not_takes_negate_iff.mpr hkind (hfit c rfl)

/-! ### Behind a minus sign -/

private theorem fit_of_parse {t : String} {c : Literal} (h : parse ctx t = .ok (.constant c)) :
    c.Fit Duration.IsUnsigned := by
  have hereditary : Hereditary ctx fun e ↦ ∀ c, e = .constant c → c.Fit Duration.IsUnsigned := {
    constant := fun hscan c hc ↦ by
      cases hc
      exact Literal.fit_of_scan hscan
    path := fun _ _ _ c hc ↦ by cases hc
    binary := fun _ _ _ _ c hc ↦ by cases hc
    not := fun _ _ c hc ↦ by cases hc
    negate := fun _ c hc ↦ by cases hc
    call := fun _ _ hmade c hc ↦ by
      obtain ⟨f, -, -, -, rfl⟩ := makeCall_eq_ok.mp hmade
      cases hc }
  exact hereditary.of_parse h c rfl

private theorem durations_eq_nil {c : Literal} (h : c.kind ∈ [.boolean, .text, .geometry]) :
    c.durations = [] := by
  cases c with
  | duration | interval => simp [Literal.kind] at h
  | _ => rfl

/-- A minus sign is read in front of every constant that it is not for. -/
theorem parse_negated {t : String} {c : Literal} (h : parse ctx t = .ok (.constant c))
    (hkind : c.kind ∈ [.boolean, .text, .geometry]) :
    parse ctx (String.ofList (Expression.unary .negate (.constant c)).text) =
      .ok (.unary .negate (.constant c)) := by
  have hfit : c.Fit Duration.IsPlain := by
    refine (fit_of_parse h).imp fun d hd ↦ ?_
    rw [durations_eq_nil hkind] at hd
    cases hd
  exact (Formed.negate (.constant hfit)).parse_text

end Expression

/-- At every node of a filter and of an expression to sort by, constants fit the operator that they
are operands of, except where a truth value, a text or a geometry stands behind a minus sign. There
all of them may stand: the minus sign is read in front of each such constant that is a filter. -/
theorem misfit_operands_are_negated (ctx : Context) (text : String) :
    (∀ e, Expression.parse ctx text = .ok e → ∀ node ∈ e.nodes, ¬ node.OperandsFit ↔
      ∃ c, node = .unary .negate (.constant c) ∧ c.kind ∈ [.boolean, .text, .geometry]) ∧
    (∀ orders, Order.parse ctx text = .ok orders → ∀ o ∈ orders, ∀ node ∈ o.expression.nodes,
      ¬ node.OperandsFit ↔
        ∃ c, node = .unary .negate (.constant c) ∧ c.kind ∈ [.boolean, .text, .geometry]) ∧
    ∀ c, Expression.parse ctx text = .ok (.constant c) → c.kind ∈ [.boolean, .text, .geometry] →
      Expression.parse ctx (String.ofList (Expression.unary .negate (.constant c)).text) =
        .ok (.unary .negate (.constant c)) := by
  have hereditary := Expression.hereditary_checked ctx
  refine ⟨fun e h node hnode ↦ ?_, fun orders h o ho node hnode ↦ ?_, fun c h hkind ↦ ?_⟩
  · exact (hereditary.of_parse h node hnode).not_operandsFit_iff
  · exact (hereditary.of_parse_orders h o ho node hnode).not_operandsFit_iff
  · exact Expression.parse_negated h hkind

/-- What `not (null and code ne -'x')` is read as. -/
def Museum.negatedText : Expression :=
  .unary .not (.binary .and (.constant .null) (.binary .notEqual (.path ⟨[.property "code"]⟩)
    (.unary .negate (.constant (.string "x")))))

/-- The theorem at a filter with a text behind a minus sign, whose other constants fit, and at the
text by itself. -/
theorem museum_misfit_operand_is_negated :
    Museum.negatedText.OperandsFit ∧
      ¬ (Expression.unary .negate (.constant (.string "x"))).OperandsFit ∧
      Expression.parse Museum.context "-('x')" =
        .ok (.unary .negate (.constant (.string "x"))) := by
  have hparse : Expression.parse Museum.context "not (null and code ne -'x')" =
      .ok Museum.negatedText := by decide +kernel
  have htext : Expression.parse Museum.context "'x'" = .ok (.constant (.string "x")) := by
    decide +kernel
  have hwritten : String.ofList (Expression.unary .negate (.constant (.string "x"))).text =
      "-('x')" := by rfl
  obtain ⟨hfilter, -, -⟩ :=
    misfit_operands_are_negated Museum.context "not (null and code ne -'x')"
  obtain ⟨-, -, hnegated⟩ := misfit_operands_are_negated Museum.context "'x'"
  have hnodes := hfilter _ hparse
  refine ⟨?_, ?_, ?_⟩
  · refine not_not.mp fun hnot ↦ ?_
    obtain ⟨c, hc, -⟩ := (hnodes _ (Expression.self_mem_nodes _)).mp hnot
    cases hc
  · refine (hnodes _ ?_).mpr ⟨.string "x", rfl, by decide⟩
    simp [Museum.negatedText, Expression.nodes]
  · rw [← hwritten]
    exact hnegated _ htext (by decide)

/-- Not all operands fit: a text is read behind a minus sign. -/
theorem negated_text_does_not_fit :
    ¬ ∀ (ctx : Context) (text : String) (e : Expression), Expression.parse ctx text = .ok e →
      ∀ node ∈ e.nodes, node.OperandsFit := by
  intro h
  have hparse : Expression.parse Museum.context "-'x'" =
      .ok (.unary .negate (.constant (.string "x"))) := by decide +kernel
  have hfit : (Expression.unary .negate (.constant (.string "x"))).OperandsFit :=
    h _ _ _ hparse _ (Expression.self_mem_nodes _)
  cases hfit (.string "x") rfl

end SensorQuery
