import Mathlib.Data.List.TakeWhile
import SensorQuery.Query.Grammar
import SensorQuery.Proofs.Query.Literal
import SensorQuery.Proofs.Query.PropertyPath

/-!
# Expressions that a text can hold

What every expression that is read has (`Expression.Formed`): constants that were read, of kinds
that their operators take, paths sorted by the model whose first name is not a word of the grammar,
and calls that the catalog accepts under the name they have. The grammar only builds such
expressions, level by level.
-/

namespace SensorQuery

open Scanner
open RawStep (isNameChar)

namespace Scanner

variable {α : Type}

/-- The value of a whole text was found behind the blanks at its front, in front of blanks. -/
theorem found_of_entire {p : Scanner ExpressionError α} {text : String} {a : α}
    (h : p.entire text = .ok a) :
    ∃ rest, p (text.toList.dropWhile Char.isWhitespace) = .found a rest ∧
      ∀ c ∈ rest, c.isWhitespace = true := by
  unfold entire at h
  simp only at h
  split at h
  · next b _ hfound =>
    cases h
    obtain ⟨hfound, -⟩ := whole_eq_found.mp hfound
    rw [bind_found (blanks_apply text.toList)] at hfound
    obtain ⟨_, rest, ha, hfound⟩ := bind_eq_found.mp hfound
    rw [bind_found (blanks_apply rest), pure_apply] at hfound
    simp only [Scan.found.injEq, List.dropWhile_eq_nil_iff] at hfound
    obtain ⟨rfl, hblank⟩ := hfound
    exact ⟨rest, ha, hblank⟩
  · cases h
  · cases h

/-- A text denotes the value that is found between the blanks at its ends. -/
theorem entire_of_found_padded {p : Scanner ExpressionError α} {lead s rest : List Char} {a : α}
    (hlead : ∀ c ∈ lead, c.isWhitespace = true) (hblank : Stops Char.isWhitespace s)
    (h : p s = .found a rest) (hrest : ∀ c ∈ rest, c.isWhitespace = true) :
    p.entire (String.ofList (lead ++ s)) = .ok a := by
  have hend : (blanks : Scanner ExpressionError Unit) rest = .found () [] := by
    rw [blanks_apply, List.dropWhile_eq_nil_iff.mpr hrest]
  have hpadded : (do blanks; let a ← p; blanks; pure a : Scanner ExpressionError α) (lead ++ s) =
      .found a [] := by
    rw [bind_found (blanks_append hlead hblank), bind_found h, bind_found hend]
    rfl
  unfold entire
  simp only [String.toList_ofList]
  rw [whole_of_found hpadded]

/-- A text denotes what is found behind the blanks at its front, in front of blanks. -/
theorem entire_eq_ok_iff {p : Scanner ExpressionError α} {text : String} {a : α} :
    p.entire text = .ok a ↔
      ∃ rest, p (text.toList.dropWhile Char.isWhitespace) = .found a rest ∧
        ∀ c ∈ rest, c.isWhitespace = true := by
  constructor
  · exact found_of_entire
  · rintro ⟨rest, h, hrest⟩
    have hlead : ∀ c ∈ text.toList.takeWhile Char.isWhitespace, c.isWhitespace = true :=
      List.all_eq_true.mp List.all_takeWhile
    have hentire := entire_of_found_padded hlead (stops_dropWhile _ _) h hrest
    rwa [List.takeWhile_append_dropWhile, String.ofList_toList] at hentire

/-- A text without blanks at its front denotes the value that is found in it to its end. -/
theorem entire_of_found {p : Scanner ExpressionError α} {s : List Char} {a : α}
    (hblank : Stops Char.isWhitespace s) (h : p s = .found a []) :
    p.entire (String.ofList s) = .ok a := by
  have hnone : ∀ c ∈ ([] : List Char), c.isWhitespace = true := by simp
  have hentire := entire_of_found_padded hnone hblank h hnone
  rwa [List.nil_append] at hentire

end Scanner

/-- A function that is found stands in the catalog, and is found again under its own spelling. -/
theorem Catalog.get?_eq_some {functions : Catalog} {name : String} {f : Signature}
    (h : functions.get? name = some f) :
    f ∈ functions.signatures ∧ fold f.name = fold name ∧ functions.get? f.name = some f := by
  have hfold : fold f.name = fold name := by simpa using List.find?_some h
  refine ⟨List.mem_of_find?_eq_some h, hfold, ?_⟩
  unfold get? at h ⊢
  rw [hfold]
  exact h

namespace Expression

/-- The words that are never read as a path or the name of a function. -/
def reservedWords : List String := ["not", "null", "true", "false"]

mutual

/-- The durations in the expression, from left to right. -/
def durations : Expression → List Duration
  | .constant c => c.durations
  | .path _ => []
  | .binary _ left right => left.durations ++ right.durations
  | .unary _ operand => operand.durations
  | .call _ arguments => durationsOfAll arguments

/-- The durations in the expressions, in order. -/
def durationsOfAll : List Expression → List Duration
  | [] => []
  | e :: es => e.durations ++ durationsOfAll es

end

/-- The text can be read as the name of a function. -/
structure IsFunctionName (w : List Char) : Prop where
  first : (w.head?.map Text.isAlphabetic).getD false = true
  all : ∀ c ∈ w, isNameChar c = true

/-- The expression could have been read, with durations that have the property. -/
inductive Formed (ctx : Context) (P : Duration → Prop) : Expression → Prop where
  | constant {c : Literal} (fit : c.Fit P) : Formed ctx P (.constant c)
  | path {p : PropertyPath} {w : String} {more : List RawStep} (sorted : p.Formed ctx w more)
    (free : w ∉ reservedWords) : Formed ctx P (.path p)
  | binary {op : BinaryOperator} {left right : Expression} (formedLeft : Formed ctx P left)
    (formedRight : Formed ctx P right) (checkLeft : checkOperand op left = .ok ())
    (checkRight : checkOperand op right = .ok ()) : Formed ctx P (.binary op left right)
  | not {operand : Expression} (formed : Formed ctx P operand)
    (check : checkNegand operand = .ok ()) : Formed ctx P (.unary .not operand)
  | negate {operand : Expression} (formed : Formed ctx P operand) :
    Formed ctx P (.unary .negate operand)
  | call {name : String} {arguments : List Expression}
    (formed : ∀ e ∈ arguments, Formed ctx P e) (named : IsFunctionName name.toList)
    (free : name ∉ reservedWords)
    (made : makeCall ctx.functions name arguments = .ok (.call name arguments)) :
    Formed ctx P (.call name arguments)

variable {ctx : Context} {P Q : Duration → Prop}

private theorem mem_durationsOfAll {e : Expression} {es : List Expression} {d : Duration}
    (he : e ∈ es) (hd : d ∈ e.durations) : d ∈ durationsOfAll es := by
  induction es with
  | nil => cases he
  | cons f es ih =>
    rw [durationsOfAll, List.mem_append]
    rcases List.mem_cons.mp he with rfl | he
    · exact .inl hd
    · exact .inr (ih he)

/-- Only the durations of the expression count. -/
theorem Formed.imp {e : Expression} (h : e.Formed ctx P) (hPQ : ∀ d ∈ e.durations, P d → Q d) :
    e.Formed ctx Q := by
  induction h with
  | constant fit => exact .constant (fit.imp hPQ)
  | path sorted free => exact .path sorted free
  | binary _ _ checkLeft checkRight ihLeft ihRight =>
    simp only [durations, List.mem_append] at hPQ
    exact .binary (ihLeft fun d hd ↦ hPQ d (.inl hd)) (ihRight fun d hd ↦ hPQ d (.inr hd))
      checkLeft checkRight
  | not _ check ih => exact .not (ih hPQ) check
  | negate _ ih => exact .negate (ih hPQ)
  | call _ named free made ih =>
    exact .call (fun e he ↦ ih e he fun d hd ↦ hPQ d (mem_durationsOfAll he hd)) named free made

/-! ### Calls -/

-- Names that differ in the case of ASCII letters are names together.
private theorem IsFunctionName.of_map_toLower {v w : List Char} (hw : IsFunctionName w)
    (h : v.map Char.toLower = w.map Char.toLower) : IsFunctionName v := by
  have hforall (u : List Char) :
      (∀ c ∈ u.map Char.toLower, isNameChar c = true) ↔ ∀ c ∈ u, isNameChar c = true := by
    simp only [List.forall_mem_map, RawStep.isNameChar_toLower]
  have hhead (u : List Char) : ((u.map Char.toLower).head?.map Text.isAlphabetic).getD false =
      (u.head?.map Text.isAlphabetic).getD false := by
    cases u with
    | nil => rfl
    | cons c u => exact RawStep.isAlphabetic_toLower c
  refine ⟨?_, ?_⟩
  · rw [← hhead, h, hhead]
    exact hw.first
  · rw [← hforall, h, hforall]
    exact hw.all

/-- A call is one of a function that is registered under the name, with as many arguments as it
accepts, each of which fits. -/
theorem makeCall_eq_ok {functions : Catalog} {name : String} {arguments : List Expression}
    {e : Expression} : makeCall functions name arguments = .ok e ↔
      ∃ f, functions.get? name = some f ∧ f.arity.accepts arguments.length = true ∧
        argumentError? functions f 0 arguments = none ∧ e = .call f.name arguments := by
  unfold makeCall Catalog.resolve
  cases hget : functions.get? name with
  | none => simp
  | some f =>
    cases haccepts : f.arity.accepts arguments.length with
    | false => simp [haccepts]
    | true =>
      cases hfits : argumentError? functions f 0 arguments with
      | some error => simp [haccepts, hfits]
      | none =>
        simp only [haccepts, hfits, ite_true, Except.ok.injEq, Option.some.injEq]
        exact ⟨fun h ↦ ⟨f, rfl, haccepts, hfits, h.symm⟩, fun ⟨_, hf, _, _, he⟩ ↦ hf ▸ he.symm⟩

/-! ### What the grammar builds -/

private theorem scanFunctionName_eq_found {ε : Type} {s w rest : List Char}
    (h : (scanFunctionName : Scanner ε (List Char)) s = .found w rest) : IsFunctionName w := by
  obtain ⟨w, mid, hw, h⟩ := bind_eq_found.mp h
  split at h
  · next hfirst =>
    cases h
    exact ⟨hfirst, (run1_eq_found.mp hw).2.2.1⟩
  · cases h

/-- The property holds of constants, paths and calls as they are read, and is kept by each way in
which the grammar puts expressions together. -/
structure Hereditary (ctx : Context) (P : Expression → Prop) : Prop where
  constant : ∀ {s rest : List Char} {c : Literal}, Literal.scan s = .found c rest → P (.constant c)
  /-- A path is tried where neither `not` nor a literal can be read. -/
  path : ∀ {s rest : List Char} {p : PropertyPath},
    (scanNot : Scanner ExpressionError Unit) s = .missed → Literal.scan s = .missed →
      PropertyPath.scan ctx s = .found p rest → P (.path p)
  binary : ∀ {op : BinaryOperator} {left right : Expression}, P left → P right →
    checkOperand op left = .ok () → checkOperand op right = .ok () → P (.binary op left right)
  not : ∀ {operand : Expression}, P operand → checkNegand operand = .ok () →
    P (.unary .not operand)
  negate : ∀ {operand : Expression}, P operand → P (.unary .negate operand)
  call : ∀ {name : String} {arguments : List Expression} {e : Expression},
    IsFunctionName name.toList → (∀ a ∈ arguments, P a) →
      makeCall ctx.functions name arguments = .ok e → P e

namespace Hereditary

variable {R : Expression → Prop}

-- The scanner only builds expressions with the property.
private def Builds (R : Expression → Prop) (p : Scanner ExpressionError Expression) : Prop :=
  ∀ s e rest, p s = .found e rest → R e

private theorem builds_scanChainFrom (hR : Hereditary ctx R) {ops : List BinaryOperator}
    {operand : Scanner ExpressionError Expression} (hoperand : Builds R operand) (n : Nat)
    {left : Expression} (hleft : R left) : Builds R (scanChainFrom ops operand n left) := by
  induction n generalizing left with
  | zero =>
    intro s e rest h
    cases h
    exact hleft
  | succ n ih =>
    intro s e rest h
    obtain ⟨o, mid, -, h⟩ := bind_eq_found.mp h
    cases o with
    | none =>
      cases h
      exact hleft
    | some op =>
      obtain ⟨right, _, hright, h⟩ := bind_eq_found.mp h
      obtain ⟨_, _, hcheckLeft, h⟩ := bind_eq_found.mp h
      obtain ⟨_, _, hcheckRight, h⟩ := bind_eq_found.mp h
      exact ih (hR.binary hleft (hoperand _ _ _ hright) (ofExcept_eq_found.mp hcheckLeft).1
        (ofExcept_eq_found.mp hcheckRight).1) _ _ _ h

private theorem builds_scanLevels (hR : Hereditary ctx R)
    {operand : Scanner ExpressionError Expression} (hoperand : Builds R operand)
    (levels : List (List BinaryOperator)) : Builds R (scanLevels operand levels) := by
  induction levels with
  | nil => exact hoperand
  | cons ops tighter ih =>
    intro s e rest h
    obtain ⟨left, mid, hleft, h⟩ := bind_eq_found.mp h
    exact hR.builds_scanChainFrom ih _ (ih _ _ _ hleft) _ _ _ h

private theorem builds_scanParens {expression : Scanner ExpressionError Expression}
    (hexpression : Builds R expression) : Builds R (scanParens expression) := by
  intro s e rest h
  obtain ⟨_, _, _, h⟩ := bind_eq_found.mp h
  obtain ⟨_, _, _, h⟩ := bind_eq_found.mp h
  obtain ⟨e', _, he, h⟩ := bind_eq_found.mp h
  obtain ⟨_, _, _, h⟩ := bind_eq_found.mp h
  obtain ⟨_, _, _, h⟩ := bind_eq_found.mp h
  cases h
  exact hexpression _ _ _ he

private theorem builds_scanCall (hR : Hereditary ctx R)
    {expression : Scanner ExpressionError Expression} (hexpression : Builds R expression) :
    Builds R (scanCall ctx.functions expression) := by
  intro s e rest h
  obtain ⟨name, _, hname, h⟩ := bind_eq_found.mp h
  obtain ⟨_, _, _, h⟩ := bind_eq_found.mp h
  obtain ⟨_, _, _, h⟩ := bind_eq_found.mp h
  obtain ⟨arguments, _, harguments, h⟩ := bind_eq_found.mp h
  obtain ⟨_, _, _, h⟩ := bind_eq_found.mp h
  obtain ⟨_, _, _, h⟩ := bind_eq_found.mp h
  have hall : ∀ a ∈ arguments.getD [], R a := by
    rcases optional_eq_found.mp harguments with ⟨as, rfl, has⟩ | ⟨rfl, -⟩
    · exact forall_of_separated has hexpression
    · simp
  refine hR.call ?_ hall (ofExcept_eq_found.mp h).1
  rw [String.toList_ofList]
  exact scanFunctionName_eq_found hname

private theorem of_scanPrimary (hR : Hereditary ctx R)
    {expression : Scanner ExpressionError Expression} (hexpression : Builds R expression)
    {s rest : List Char} {e : Expression}
    (hnot : (scanNot : Scanner ExpressionError Unit) s = .missed)
    (h : scanPrimary ctx expression s = .found e rest) : R e := by
  rcases orElse_eq_found.mp h with h | ⟨-, h⟩
  · exact builds_scanParens hexpression _ _ _ h
  rcases orElse_eq_found.mp h with h | ⟨hliteral, h⟩
  · obtain ⟨c, _, hc, h⟩ := bind_eq_found.mp h
    cases h
    exact hR.constant hc
  rcases orElse_eq_found.mp h with h | ⟨-, h⟩
  · exact hR.builds_scanCall hexpression _ _ _ h
  rcases orElse_eq_found.mp h with h | ⟨-, h⟩
  · obtain ⟨p, _, hp, h⟩ := bind_eq_found.mp h
    cases h
    refine hR.path hnot ?_ hp
    rcases bind_eq_missed.mp hliteral with hliteral | ⟨c, mid, -, hc⟩
    · exact hliteral
    · cases hc
  · cases h

-- Operands have the property: by induction on the nesting.
private theorem builds_scanOperand (hR : Hereditary ctx R) (depth : Nat) :
    Builds R (scanOperand ctx depth) := by
  induction depth with
  | zero =>
    intro s e rest h
    cases h
  | succ depth ih =>
    intro s e rest h
    obtain ⟨o, mid, ho, h⟩ := bind_eq_found.mp h
    rcases optional_eq_found.mp ho with ⟨_, rfl, -⟩ | ⟨rfl, hnot, rfl⟩
    · obtain ⟨operand, _, hoperand, h⟩ := bind_eq_found.mp h
      obtain ⟨_, _, hcheck, h⟩ := bind_eq_found.mp h
      cases h
      exact hR.not (ih _ _ _ hoperand) (ofExcept_eq_found.mp hcheck).1
    · rcases orElse_eq_found.mp h with h | ⟨-, h⟩
      · exact hR.of_scanPrimary (hR.builds_scanLevels ih _) hnot h
      · obtain ⟨_, _, _, h⟩ := bind_eq_found.mp h
        obtain ⟨operand, _, hoperand, h⟩ := bind_eq_found.mp h
        cases h
        exact hR.negate (ih _ _ _ hoperand)

/-- Every expression that is read has the property. -/
theorem of_scan (hR : Hereditary ctx R) {s rest : List Char} {e : Expression}
    (h : scan ctx s = .found e rest) : R e :=
  hR.builds_scanLevels (hR.builds_scanOperand _) _ _ _ _ h

/-- Every filter has the property. -/
theorem of_parse (hR : Hereditary ctx R) {t : String} {e : Expression} (h : parse ctx t = .ok e) :
    R e := by
  obtain ⟨rest, hscan, -⟩ := found_of_entire h
  exact hR.of_scan hscan

/-- Everything that is sorted by has the property. -/
theorem of_parse_orders (hR : Hereditary ctx R) {t : String} {orders : List Order}
    (h : Order.parse ctx t = .ok orders) : ∀ o ∈ orders, R o.expression := by
  obtain ⟨rest, hscan, -⟩ := found_of_entire h
  refine forall_of_separated hscan (Q := fun o ↦ R o.expression) ?_
  intro s o rest ho
  obtain ⟨e, _, he, ho⟩ := bind_eq_found.mp ho
  obtain ⟨_, _, _, ho⟩ := bind_eq_found.mp ho
  cases ho
  exact hR.of_scan he

end Hereditary

-- A path that is tried where neither `not` nor a literal can be read begins with another word.
private theorem formed_path {s rest : List Char} {p : PropertyPath}
    (hnot : (scanNot : Scanner ExpressionError Unit) s = .missed)
    (hliteral : Literal.scan s = .missed) (h : PropertyPath.scan ctx s = .found p rest) :
    (Expression.path p).Formed ctx Duration.IsUnsigned := by
  obtain ⟨w, more, t, hformed, rfl, hstops⟩ := PropertyPath.exists_of_scan h
  refine .path hformed ?_
  intro hw
  have hstops' : Stops isNameChar t := by
    rcases hstops with rfl | hstops
    · simp [reservedWords, PathStep.keyAlias] at hw
    · exact hstops
  rcases List.mem_cons.mp hw with rfl | hw
  · unfold scanNot at hnot
    rw [bind_found (Literal.scanKeyword_append "not" hstops')] at hnot
    cases hnot
  · obtain ⟨c, hc⟩ := Literal.exists_of_word hw hstops'
    rw [hc] at hliteral
    cases hliteral

/-- The grammar only builds expressions that could have been read, if no function is spelled as one
of the reserved words. -/
theorem hereditary_formed
    (hnames : ∀ f ∈ ctx.functions.signatures, f.name ∉ reservedWords) :
    Hereditary ctx (Formed ctx Duration.IsUnsigned) where
  constant hc := .constant (Literal.fit_of_scan hc)
  path hnot hliteral hp := formed_path hnot hliteral hp
  binary hleft hright checkLeft checkRight := .binary hleft hright checkLeft checkRight
  not hoperand check := .not hoperand check
  negate hoperand := .negate hoperand
  call hname hformed hmade := by
    obtain ⟨f, hget, haccepts, hfits, rfl⟩ := makeCall_eq_ok.mp hmade
    obtain ⟨hf, hfold, hself⟩ := Catalog.get?_eq_some hget
    refine .call hformed (hname.of_map_toLower ?_) (hnames f hf)
      (makeCall_eq_ok.mpr ⟨f, hself, haccepts, hfits, rfl⟩)
    rwa [Catalog.fold, Catalog.fold] at hfold

end Expression

end SensorQuery
