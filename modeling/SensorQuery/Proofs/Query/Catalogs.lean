import SensorQuery.Proofs.Alike
import SensorQuery.Proofs.Function.Grown
import SensorQuery.Proofs.Path.Addressed
import SensorQuery.Proofs.Query.Formed
import SensorQuery.Query.Options

/-!
# Larger catalogs

What is read with a catalog of functions is read alike when the catalog has grown, results and
errors, unless it fails for a function that the catalog has come to know. The catalog is consulted
for the names of calls, and once more for the calls among the arguments of a call, which are of
functions that it knows (`Expression.CallsKnown`). The first unknown name ends the reading.
-/

namespace SensorQuery

open Scanner

variable {functions more : Catalog}

/-- The error is about a function that the catalog knows. -/
def ExpressionError.IsKnownTo (more : Catalog) (e : ExpressionError) : Prop :=
  ∃ name, e = .unknownFunction name ∧ more.get? name ≠ none

/-- The error is about a function in an option, and the catalog knows it. -/
def QueryError.IsKnownTo (more : Catalog) (e : QueryError) : Prop :=
  ∃ option name, e = .expression option (.unknownFunction name) ∧ more.get? name ≠ none

/-- What is scanned alike denotes alike. -/
theorem Scanner.Alike.entire {α : Type} {lost : ExpressionError → Prop} {P : α → Prop}
    {p p' : Scanner ExpressionError α} (h : Alike lost P p p') (text : String) :
    Fallible.Alike lost (p.entire text) (p'.entire text) := by
  have hpadded : Alike lost (fun _ ↦ True) (do blanks; let a ← p; blanks; pure a)
      (do blanks; let a ← p'; blanks; pure a) :=
    .bind (.same _) fun _ _ ↦ .bind h fun _ _ ↦ .bind (.same _) fun _ _ ↦ .pure trivial
  unfold Scanner.entire whole
  rcases hpadded text.toList with ⟨e, he, hs⟩ | ⟨hs, -⟩
  · exact .inl ⟨e, he, by simp only [hs]⟩
  · exact .inr (by simp only [hs])

namespace PropertyPath

private theorem classify_functions (ctx : Context) (more : Catalog) (position : Position)
    (raws : List RawStep) :
    classify { ctx with functions := more } position raws = classify ctx position raws := by
  have hstep (position : Position) (raw : RawStep) :
      classifyStep { ctx with functions := more } position raw = classifyStep ctx position raw := by
    cases position <;> cases raw <;> rfl
  induction raws generalizing position with
  | nil => rfl
  | cons raw raws ih => simp only [classify, hstep, ih]

/-- The functions play no part in property paths. -/
theorem scan_functions (ctx : Context) (more : Catalog) :
    scan { ctx with functions := more } = scan ctx := by
  simp only [scan, classify_functions]

private theorem parse_functions (ctx : Context) (more : Catalog) (text : String) :
    parse { ctx with functions := more } text = parse ctx text := by
  simp only [parse, scan_functions]

end PropertyPath

namespace Expression

/-! ### Calls -/

/-- If the expression is a call, it is of a function of the catalog. -/
def CallsKnown (functions : Catalog) : Expression → Prop
  | .call name _ => ∃ f, functions.get? name = some f
  | _ => True

private theorem misfit?_of_within (hgrown : functions.Within more) (expected : ArgumentKind)
    {e : Expression} (he : e.CallsKnown functions) :
    misfit? more expected e = misfit? functions expected e := by
  cases e with
  | call name arguments =>
    obtain ⟨f, hf⟩ := he
    rw [misfit?, misfit?, hf, hgrown hf]
  | _ => rfl

private theorem argumentError?_of_within (hgrown : functions.Within more) (f : Signature)
    {arguments : List Expression} (h : ∀ e ∈ arguments, e.CallsKnown functions) (position : Nat) :
    argumentError? more f position arguments = argumentError? functions f position arguments := by
  induction arguments generalizing position with
  | nil => rfl
  | cons e es ih =>
    obtain ⟨he, hes⟩ := List.forall_mem_cons.mp h
    rw [argumentError?, argumentError?, misfit?_of_within hgrown _ he, ih hes]

private theorem resolve_of_get? {c : Catalog} {name : String} {f : Signature}
    (h : c.get? name = some f) (received : Nat) :
    c.resolve name received = if f.arity.accepts received then .ok f
      else .error (.invalidArity f.name f.arity received) := by
  rw [Catalog.resolve, h]

private theorem alike_makeCall (hgrown : functions.Within more) (name : String)
    {arguments : List Expression} (h : ∀ e ∈ arguments, e.CallsKnown functions) :
    Alike (ExpressionError.IsKnownTo more) (CallsKnown functions)
      (ofExcept (makeCall functions name arguments)) (ofExcept (makeCall more name arguments)) := by
  cases hf : functions.get? name with
  | some f =>
    have hsame : makeCall more name arguments = makeCall functions name arguments := by
      unfold makeCall
      simp only [resolve_of_get? hf, resolve_of_get? (hgrown hf),
        argumentError?_of_within hgrown _ h]
    rw [hsame]
    refine .refl fun s e rest he ↦ ?_
    obtain ⟨hmade, -⟩ := ofExcept_eq_found.mp he
    obtain ⟨g, hg, -, -, rfl⟩ := makeCall_eq_ok.mp hmade
    exact ⟨g, (Catalog.get?_eq_some hg).2.2⟩
  | none =>
    have hfailed : makeCall functions name arguments = .error (.unknownFunction name) := by
      rw [makeCall, Catalog.resolve, hf]
    rw [hfailed]
    cases hmore : more.get? name with
    | some f => exact fun s ↦ .inl ⟨_, ⟨name, rfl, by simp [hmore]⟩, rfl⟩
    | none =>
      have hfailed' : makeCall more name arguments = .error (.unknownFunction name) := by
        rw [makeCall, Catalog.resolve, hmore]
      rw [hfailed']
      exact .refuse _

/-! ### The grammar -/

variable {operand operand' expression expression' : Scanner ExpressionError Expression}

private theorem alike_scanChainFrom (ops : List BinaryOperator)
    (h : Alike (ExpressionError.IsKnownTo more) (CallsKnown functions) operand operand') (n : Nat)
    {left : Expression} (hleft : left.CallsKnown functions) :
    Alike (ExpressionError.IsKnownTo more) (CallsKnown functions)
      (scanChainFrom ops operand n left) (scanChainFrom ops operand' n left) := by
  induction n generalizing left with
  | zero => exact .pure hleft
  | succ n ih =>
    rw [scanChainFrom, scanChainFrom]
    refine .bind (.same _) fun o _ ↦ ?_
    cases o with
    | none => exact .pure hleft
    | some op =>
      exact .bind h fun _ _ ↦ .bind (.same _) fun _ _ ↦ .bind (.same _) fun _ _ ↦
        ih trivial

private theorem alike_scanLevels
    (h : Alike (ExpressionError.IsKnownTo more) (CallsKnown functions) operand operand')
    (levels : List (List BinaryOperator)) :
    Alike (ExpressionError.IsKnownTo more) (CallsKnown functions) (scanLevels operand levels)
      (scanLevels operand' levels) := by
  induction levels with
  | nil => exact h
  | cons ops tighter ih =>
    exact .bind ih fun left hleft s ↦ alike_scanChainFrom ops ih s.length hleft s

private theorem alike_scanParens
    (h : Alike (ExpressionError.IsKnownTo more) (CallsKnown functions) expression expression') :
    Alike (ExpressionError.IsKnownTo more) (CallsKnown functions) (scanParens expression)
      (scanParens expression') :=
  .bind (.same _) fun _ _ ↦ .bind (.same _) fun _ _ ↦ .bind h fun _ he ↦
    .bind (.same _) fun _ _ ↦ .bind (.same _) fun _ _ ↦ .pure he

private theorem alike_scanCall (hgrown : functions.Within more)
    (h : Alike (ExpressionError.IsKnownTo more) (CallsKnown functions) expression expression') :
    Alike (ExpressionError.IsKnownTo more) (CallsKnown functions) (scanCall functions expression)
      (scanCall more expression') := by
  refine .bind (.same _) fun name _ ↦ .bind (.same _) fun _ _ ↦ .bind (.same _) fun _ _ ↦
    .bind h.separated.optional fun arguments harguments ↦ .bind (.same _) fun _ _ ↦
    .bind (.same _) fun _ _ ↦ alike_makeCall hgrown _ ?_
  cases arguments with
  | none => exact List.forall_mem_nil _
  | some arguments => exact harguments arguments rfl

variable {ctx : Context}

private theorem alike_scanPrimary (hgrown : ctx.functions.Within more)
    (h : Alike (ExpressionError.IsKnownTo more) (CallsKnown ctx.functions) expression expression') :
    Alike (ExpressionError.IsKnownTo more) (CallsKnown ctx.functions) (scanPrimary ctx expression)
      (scanPrimary { ctx with functions := more } expression') := by
  unfold scanPrimary
  rw [PropertyPath.scan_functions ctx more]
  refine .orElse (alike_scanParens h) (.orElse ?_ (.orElse (alike_scanCall hgrown h)
    (.orElse ?_ .miss)))
  · exact .bind (.same _) fun _ _ ↦ .pure trivial
  · exact .bind (.same _) fun _ _ ↦ .pure trivial

-- Operands are read alike: by induction on the nesting.
private theorem alike_scanOperand (hgrown : ctx.functions.Within more) (depth : Nat) :
    Alike (ExpressionError.IsKnownTo more) (CallsKnown ctx.functions) (scanOperand ctx depth)
      (scanOperand { ctx with functions := more } depth) := by
  induction depth with
  | zero => exact .miss
  | succ depth ih =>
    rw [scanOperand, scanOperand]
    refine .bind (.same _) fun o _ ↦ ?_
    cases o with
    | some =>
      exact .bind ih fun operand _ ↦ .bind (.same _) fun _ _ ↦ .pure trivial
    | none =>
      exact .orElse (alike_scanPrimary hgrown (alike_scanLevels ih _)) <|
        .bind (.same _) fun _ _ ↦ .bind ih fun operand _ ↦ .pure trivial

private theorem alike_scan (hgrown : ctx.functions.Within more) :
    Alike (ExpressionError.IsKnownTo more) (CallsKnown ctx.functions) (scan ctx)
      (scan { ctx with functions := more }) :=
  fun s ↦ alike_scanLevels (alike_scanOperand hgrown (s.length + 1)) BinaryOperator.levels s

/-- A filter is read alike. -/
theorem alike_parse (hgrown : ctx.functions.Within more) (text : String) :
    Fallible.Alike (ExpressionError.IsKnownTo more) (parse ctx text)
      (parse { ctx with functions := more } text) := (alike_scan hgrown).entire text

end Expression

variable {ctx : Context}

/-- Orders are read alike. -/
theorem Order.alike_parse (hgrown : ctx.functions.Within more) (text : String) :
    Fallible.Alike (ExpressionError.IsKnownTo more) (parse ctx text)
      (parse { ctx with functions := more } text) := by
  have hscan : Alike (ExpressionError.IsKnownTo more) (fun _ ↦ True) (scan ctx)
      (scan { ctx with functions := more }) :=
    .bind (Expression.alike_scan hgrown) fun _ _ ↦ .bind (.same _) fun _ _ ↦ .pure trivial
  exact hscan.separated.entire text

/-! ### Options -/

namespace Query

open Fallible (Alike)

private theorem alike_inOption {α : Type} {x x' : Except ExpressionError α}
    (h : Alike (ExpressionError.IsKnownTo more) x x') (option : String) :
    Alike (QueryError.IsKnownTo more) (inOption option x) (inOption option x') := by
  rcases h with ⟨_, ⟨name, rfl, hname⟩, rfl⟩ | rfl
  · exact .inl ⟨_, ⟨option, name, rfl, hname⟩, rfl⟩
  · exact .refl _

private theorem parseSelect_functions (ctx : Context) (more : Catalog) (value : List Char) :
    parseSelect { ctx with functions := more } value = parseSelect ctx value := by
  have hitem : selectItem { ctx with functions := more } = selectItem ctx := by
    funext select item
    simp only [selectItem, PropertyPath.parse_functions]
  simp only [parseSelect, hitem]

variable {nested nested' : List Char → Except QueryError Query}

private theorem alike_parseExpand
    (h : ∀ s, Alike (QueryError.IsKnownTo more) (nested s) (nested' s)) (value : List Char) :
    Alike (QueryError.IsKnownTo more) (parseExpand ctx nested value)
      (parseExpand { ctx with functions := more } nested' value) := by
  refine .bind (.refl _) fun parts ↦ .mapM (fun item ↦ ?_) parts
  refine .bind (.refl _) fun trimmed ↦ .bind (.refl _) fun p ↦ ?_
  obtain ⟨path, inner⟩ := p
  simp only [PropertyPath.parse_functions]
  refine .bind (.refl _) fun path ↦ .bind ?_ fun query ↦ .refl _
  cases inner with
  | none => exact .refl _
  | some s => exact .ite (.refl _) (.bind (h s) fun query ↦ .refl _)

private theorem alike_setOption (hgrown : ctx.functions.Within more)
    (h : ∀ s, Alike (QueryError.IsKnownTo more) (nested s) (nested' s)) (q : Query) (name : String)
    (value : List Char) : Alike (QueryError.IsKnownTo more) (setOption ctx nested q name value)
      (setOption { ctx with functions := more } nested' q name value) := by
  unfold setOption
  rw [parseSelect_functions ctx more]
  refine .ite (.refl _) (.ite (.refl _) (.ite (.refl _) (.ite ?filter (.ite ?orderBy
    (.ite (.refl _) (.ite ?expand (.refl _)))))))
  case filter => exact .bind (alike_inOption (Expression.alike_parse hgrown _) name) fun e ↦ .refl _
  case orderBy => exact .bind (alike_inOption (Order.alike_parse hgrown _) name) fun os ↦ .refl _
  case expand => exact .bind (alike_parseExpand h value) fun es ↦ .refl _

private theorem alike_readItems (hgrown : ctx.functions.Within more)
    (h : ∀ s, Alike (QueryError.IsKnownTo more) (nested s) (nested' s)) (scope : Scope)
    (items : List (List Char)) (q : Query) (seen : List String) :
    Alike (QueryError.IsKnownTo more) (readItems ctx nested scope q seen items)
      (readItems { ctx with functions := more } nested' scope q seen items) := by
  induction items generalizing q seen with
  | nil => exact .refl _
  | cons item items ih =>
    rw [readItems, readItems]
    refine .ite (ih q seen) (.bind (.refl _) fun option ↦ ?_)
    obtain ⟨name, value⟩ := option
    exact .ite (.refl _) (.bind (alike_setOption hgrown h q name value) fun q ↦ ih q (name :: seen))

private theorem alike_parseOptions (hgrown : ctx.functions.Within more) (depth : Nat)
    (scope : Scope) (s : List Char) :
    Alike (QueryError.IsKnownTo more) (parseOptions ctx depth scope s)
      (parseOptions { ctx with functions := more } depth scope s) := by
  induction depth generalizing scope s with
  | zero => exact .refl _
  | succ depth ih =>
    exact .bind (.refl _) fun items ↦ alike_readItems hgrown (ih .expansion) scope items empty []

/-- A query is read alike. -/
theorem alike_parse (hgrown : ctx.functions.Within more) (text : String) :
    Alike (QueryError.IsKnownTo more) (parse ctx text)
      (parse { ctx with functions := more } text) :=
  alike_parseOptions hgrown _ .request _

end Query

/-- Whatever is registered in a catalog, a filter, orders and a query are read alike afterwards,
results and errors, unless they failed for a function that the catalog has come to know. -/
theorem grown_catalogs_read_alike (model : Registry) (functions : Catalog) (customLinks : Bool)
    (requests : List Catalog.Registration) (text : String) :
    ((∀ name, Expression.parse ⟨model, functions, customLinks⟩ text =
        .error (.unknownFunction name) → (functions.afterEach requests).get? name = none) →
      Expression.parse ⟨model, functions.afterEach requests, customLinks⟩ text =
        Expression.parse ⟨model, functions, customLinks⟩ text) ∧
    ((∀ name, Order.parse ⟨model, functions, customLinks⟩ text =
        .error (.unknownFunction name) → (functions.afterEach requests).get? name = none) →
      Order.parse ⟨model, functions.afterEach requests, customLinks⟩ text =
        Order.parse ⟨model, functions, customLinks⟩ text) ∧
    ((∀ option name, Query.parse ⟨model, functions, customLinks⟩ text =
        .error (.expression option (.unknownFunction name)) →
          (functions.afterEach requests).get? name = none) →
      Query.parse ⟨model, functions.afterEach requests, customLinks⟩ text =
        Query.parse ⟨model, functions, customLinks⟩ text) := by
  have hgrown : (Context.mk model functions customLinks).functions.Within
    (functions.afterEach requests) := functions.within_afterEach requests
  refine ⟨fun h ↦ ?_, fun h ↦ ?_, fun h ↦ ?_⟩
  · refine (Expression.alike_parse hgrown text).eq ?_
    rintro _ he ⟨name, rfl, hknown⟩
    exact hknown (h name he)
  · refine (Order.alike_parse hgrown text).eq ?_
    rintro _ he ⟨name, rfl, hknown⟩
    exact hknown (h name he)
  · refine (Query.alike_parse hgrown text).eq ?_
    rintro _ he ⟨option, name, rfl, hknown⟩
    exact hknown (h option name he)

namespace Museum

/-- A catalog with a function of texts. -/
def lengths : Catalog := ⟨[.ofParameters "length" .string [.text] .numeric]⟩

/-- Functions to register behind it: one whose name is taken, and after a new one another. -/
def requests : List Catalog.Registration :=
  [.one (.ofParameters "LENGTH" .string [.any] .text),
    .all [.ofParameters "hall" .string [.text] .text, .ofParameters "length" .string [.any] .text,
      .ofParameters "size" .string [.text] .numeric]]

/-- The exhibits whose code has more than three letters. -/
def longCodes : Expression :=
  .binary .greaterThan (.call "length" [.path ⟨[.property "code"]⟩]) (.constant (.integer 3))

end Museum

/-- The theorem at an expression, an order and a query. The function that the order fails for stays
unknown, as the registration that would bring it fails before. -/
theorem museum_catalogs_read_alike :
    Expression.parse ⟨Museum.model, Museum.lengths.afterEach Museum.requests, false⟩
        "Length(code) gt 3" = .ok Museum.longCodes ∧
      Order.parse ⟨Museum.model, Museum.lengths.afterEach Museum.requests, false⟩
        "size(code) desc" = .error (.unknownFunction "size") ∧
      Query.parse ⟨Museum.model, Museum.lengths.afterEach Museum.requests, false⟩
        "$filter=length() gt 3" =
          .error (.expression "$filter" (.function (.invalidArity "length" (.exact 1) 0))) := by
  have hfilter : Expression.parse ⟨Museum.model, Museum.lengths, false⟩ "Length(code) gt 3" =
      .ok Museum.longCodes := by decide +kernel
  have horder : Order.parse ⟨Museum.model, Museum.lengths, false⟩ "size(code) desc" =
      .error (.unknownFunction "size") := by decide +kernel
  have hquery : Query.parse ⟨Museum.model, Museum.lengths, false⟩ "$filter=length() gt 3" =
      .error (.expression "$filter" (.function (.invalidArity "length" (.exact 1) 0))) := by
    decide +kernel
  have hsize : (Museum.lengths.afterEach Museum.requests).get? "size" = none := by decide +kernel
  have halike := grown_catalogs_read_alike Museum.model Museum.lengths false Museum.requests
  refine ⟨?_, ?_, ?_⟩
  · rw [(halike "Length(code) gt 3").1 (by simp [hfilter]), hfilter]
  · rw [(halike "size(code) desc").2.1 ?_, horder]
    rintro name h
    rw [horder] at h
    cases h
    exact hsize
  · rw [(halike "$filter=length() gt 3").2.2 (by simp [hquery]), hquery]

end SensorQuery
