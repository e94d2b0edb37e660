import SensorQuery.Proofs.Query.Expression
import SensorQuery.Proofs.Query.Pieces

/-!
# Filters and orders read back

A filter that was read, and a list of orders that was read, are read again from their texts, unless
they hold a duration whose seconds are beyond the range of numbers.
-/

namespace SensorQuery

open Scanner

namespace Expression

variable {ctx : Context}

/-- A filter that was read could have been read. -/
theorem formed_of_parse (hnames : ∀ f ∈ ctx.functions.signatures, f.name ∉ reservedWords)
    {t : String} {e : Expression} (h : parse ctx t = .ok e) : e.Formed ctx Duration.IsUnsigned :=
  (hereditary_formed hnames).of_parse h

/-- A filter that could have been read is read from its text. -/
theorem Formed.parse_text {e : Expression} (h : e.Formed ctx Duration.IsPlain) :
    parse ctx (String.ofList e.text) = .ok e := by
  have hblank := opens_isWhitespace.stops_text h []
  have hfound := scan_text h (closes_of_stops _ ends_nil (stops_nil _))
  rw [List.append_nil] at hblank hfound
  exact entire_of_found hblank hfound

end Expression

namespace Order

variable {ctx : Context}

private theorem closes_descending (rest : List Char) (h : Ends rest) :
    Expression.Closes BinaryOperator.levels (" desc".toList ++ rest) := by
  refine ⟨(ends_cons ' ' ("desc".toList ++ rest)).mpr rfl, ?_⟩
  intro ops hops
  have hname : ∀ c ∈ "desc".toList, RawStep.isNameChar c = true :=
    List.all_eq_true.mp (by decide)
  refine BinaryOperator.scan_word_missed .space hname (by decide) (h.stops (by decide)) ?_
  intro op _
  cases op <;> decide

private theorem scanDirection_descending {ε : Type} (rest : List Char) (h : Ends rest) :
    (scanDirection : Scanner ε Bool) (" desc".toList ++ rest) = .found true rest := by
  have hstops : Stops RawStep.isNameChar rest := h.stops (by decide)
  have hname : ∀ c ∈ "desc".toList, RawStep.isNameChar c = true :=
    List.all_eq_true.mp (by decide)
  have hblank : Stops Char.isWhitespace ("desc".toList ++ rest) :=
    (stops_cons _ _ _).mpr (by decide)
  unfold scanDirection
  rw [show " desc".toList ++ rest = ' ' :: ("desc".toList ++ rest) from rfl,
    bind_found (blanks1_space hblank)]
  refine (orElse_missed (bind_missed ?_)).trans ?_
  · exact Literal.scanKeyword_missed (List.all_eq_true.mp (by decide)) hname hstops (by decide)
  · rw [bind_found (Literal.scanKeyword_append "desc" hstops)]
    rfl

/-- An order that could have been read is read back from its text. -/
theorem scan_text {o : Order} (ho : o.expression.Formed ctx Duration.IsPlain) {rest : List Char}
    (hends : Ends rest) (hblank : Stops Char.isWhitespace rest) :
    scan ctx (o.text ++ rest) = .found o rest := by
  obtain ⟨e, descending⟩ := o
  unfold scan text
  cases descending with
  | false =>
    simp only [Bool.false_eq_true, ite_false, List.append_nil]
    have hdirection : (scanDirection : Scanner ExpressionError Bool) rest = .missed :=
      bind_missed (blanks1_missed hblank)
    rw [bind_found (Expression.scan_text ho (Expression.closes_of_stops _ hends hblank)),
      bind_found (optional_missed hdirection)]
    rfl
  | true =>
    simp only [ite_true, List.append_assoc]
    rw [bind_found (Expression.scan_text ho (closes_descending rest hends)),
      bind_found (optional_found (scanDirection_descending rest hends))]
    rfl

/-- Orders that were read could have been read, and there is at least one. -/
theorem formed_of_parse
    (hnames : ∀ f ∈ ctx.functions.signatures, f.name ∉ Expression.reservedWords) {t : String}
    {orders : List Order} (h : parse ctx t = .ok orders) :
    orders ≠ [] ∧ ∀ o ∈ orders, o.expression.Formed ctx Duration.IsUnsigned := by
  refine ⟨?_, fun o ho ↦ (Expression.hereditary_formed hnames).of_parse_orders h o ho⟩
  obtain ⟨rest, hscan, -⟩ := found_of_entire h
  obtain ⟨_, _, _, hscan⟩ := bind_eq_found.mp hscan
  obtain ⟨_, _, _, hscan⟩ := bind_eq_found.mp hscan
  cases hscan
  exact List.cons_ne_nil _ _

/-- Orders that could have been read are read from their texts with commas between them. -/
theorem parse_joined {orders : List Order} (hne : orders ≠ [])
    (h : ∀ o ∈ orders, o.expression.Formed ctx Duration.IsPlain) :
    parse ctx (String.ofList (Query.joined ',' (orders.map text))) = .ok orders := by
  have hopens {o : Order} (ho : o ∈ orders) (t : List Char) :
      Stops Char.isWhitespace (o.text ++ t) := by
    rw [text, List.append_assoc]
    exact Expression.opens_isWhitespace.stops_text (h o ho) _
  cases orders with
  | nil => exact absurd rfl hne
  | cons o os =>
    have hjoined : Query.joined ',' ((o :: os).map text) =
        o.text ++ ((os.flatMap fun b ↦ ',' :: [] ++ b.text) ++ []) := by
      rw [List.map_cons, Query.joined_cons, List.flatMap_map, List.append_nil]
      rfl
    rw [hjoined]
    refine entire_of_found (hopens List.mem_cons_self _) ?_
    exact Expression.separated_append (.inl rfl) ends_nil (stops_nil _) (stops_nil _)
      (fun b hb t ↦ hopens hb t)
      (fun b hb t hends hblank ↦ scan_text (h b hb) hends hblank)

end Order

/-- Reading a filter or a list of orders, writing it and reading it once more changes nothing,
whatever the model and the catalog, as long as no function is spelled as one of the words `not`,
`null`, `true` and `false` and no duration is beyond the range of numbers. -/
theorem filter_and_orders_read_back (ctx : Context)
    (hnames : ∀ f ∈ ctx.functions.signatures, f.name ∉ Expression.reservedWords) (t : String) :
    (∀ e, Expression.parse ctx t = .ok e → (∀ d ∈ e.durations, d.seconds.isFinite = true) →
      Expression.parse ctx (String.ofList e.text) = .ok e) ∧
    ∀ orders, Order.parse ctx t = .ok orders →
      (∀ o ∈ orders, ∀ d ∈ o.expression.durations, d.seconds.isFinite = true) →
      Order.parse ctx (String.ofList (Query.joined ',' (orders.map Order.text))) = .ok orders := by
  constructor
  · intro e h hfinite
    exact ((Expression.formed_of_parse hnames h).imp fun d hd hunsigned ↦
      hunsigned.isPlain (hfinite d hd)).parse_text
  · intro orders h hfinite
    obtain ⟨hne, hformed⟩ := Order.formed_of_parse hnames h
    exact Order.parse_joined hne fun o ho ↦ (hformed o ho).imp fun d hd hunsigned ↦
      hunsigned.isPlain (hfinite o ho d hd)

/-- An empty model, and a catalog of one function. -/
def nowContext : Context :=
  ⟨.ofTable .empty [] [], ⟨[.ofParameters "now" .temporal [] .temporal]⟩, false⟩

/-- What `now() lt duration'P1D'` is read as. -/
def nowFilter : Expression :=
  .binary .lessThan (.call "now" []) (.constant (.duration ⟨false, 0, 0, 0, 1, 0, 0, .zero⟩))

/-- The theorem at a filter with a call and a duration, and at a list of one order. -/
theorem now_filter_and_orders_read_back :
    Expression.parse nowContext (String.ofList nowFilter.text) = .ok nowFilter ∧
      Order.parse nowContext
        (String.ofList (Query.joined ',' ([⟨nowFilter, true⟩].map Order.text))) =
        .ok [⟨nowFilter, true⟩] := by
  have hnames : ∀ f ∈ nowContext.functions.signatures, f.name ∉ Expression.reservedWords := by
    decide
  have hfinite : ∀ d ∈ nowFilter.durations, d.seconds.isFinite = true := by decide
  have hfilter : Expression.parse nowContext "now() lt  duration'P1D'" = .ok nowFilter := by
    decide +kernel
  have horders :
      Order.parse nowContext "now() lt  duration'P1D' desc" = .ok [⟨nowFilter, true⟩] := by
    decide +kernel
  refine ⟨(filter_and_orders_read_back nowContext hnames _).1 _ hfilter hfinite,
    (filter_and_orders_read_back nowContext hnames _).2 _ horders ?_⟩
  intro o ho
  rw [List.mem_singleton] at ho
  rw [ho]
  exact hfinite

end SensorQuery
