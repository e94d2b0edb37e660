import SensorQuery.Proofs.Model.Finalized
import SensorQuery.Proofs.Query.OperatorTree
import SensorQuery.Proofs.Query.Standing

/-!
# Chains bind by precedence and to the left

A chain of operands with binary operators between them is read as the one tree over its operands
that binds by precedence and to the left, whatever the operands hold. By induction on that tree, its
text is read by all levels looser than the operator at its head; blanks around the texts of operands
join the spaces around the operators.
-/

namespace SensorQuery

open Scanner

/-- A text that stands alone, and the expression that it denotes. -/
structure Operand where
  text : String
  expression : Expression

/-- The texts of the operands and the words of the operators, with single spaces between them. -/
def OperatorChain.text (c : OperatorChain Operand) : List Char :=
  Query.joined ' ' <| c.first.text.toList ::
    c.rest.flatMap fun p ↦ [p.1.keyword.toList, p.2.text.toList]

namespace OperatorTree

/-- The expression over those of the operands. -/
def expression : OperatorTree Operand → Expression
  | .operand a => a.expression
  | .binary op left right => .binary op left.expression right.expression

-- How tightly the tree holds together: as its operator, and beyond all of them if it is an operand.
private def rank : OperatorTree Operand → Nat
  | .operand _ => 6
  | .binary op _ _ => op.precedence

private theorem rank_pos (t : OperatorTree Operand) : 0 < t.rank := by
  cases t with
  | operand a => exact Nat.succ_pos 5
  | binary op left right => exact op.precedence_pos

private theorem le_rank {op : BinaryOperator} {t : OperatorTree Operand}
    (h : t.Heads (op.precedence ≤ ·.precedence)) : op.precedence ≤ t.rank := by
  cases t with
  | operand a => exact Nat.le_succ_of_le op.precedence_le
  | binary op' left right => exact h

private theorem lt_rank {op : BinaryOperator} {t : OperatorTree Operand}
    (h : t.Heads (op.precedence < ·.precedence)) : op.precedence < t.rank := by
  cases t with
  | operand a => exact Nat.lt_succ_of_le op.precedence_le
  | binary op' left right => exact h

private theorem text_chain_binary (op : BinaryOperator) (left right : OperatorTree Operand) :
    (binary op left right).chain.text =
      left.chain.text ++ ' ' :: (op.keyword.toList ++ ' ' :: right.chain.text) := by
  simp only [OperatorChain.text, chain, Query.joined_cons, List.flatMap_append, List.flatMap_cons,
    List.append_assoc, List.cons_append, List.nil_append]

variable {ctx : Context}

-- All operands of the tree are single operands where they stand alone.
private def Stand (ctx : Context) (t : OperatorTree Operand) : Prop :=
  ∀ a ∈ t.chain.operands, Expression.IsOperand ctx a.text a.expression

private theorem Stand.left {op : BinaryOperator} {left right : OperatorTree Operand}
    (h : (binary op left right).Stand ctx) : left.Stand ctx := by
  intro a ha
  apply h
  simp only [OperatorChain.operands, chain, List.map_append, List.mem_cons, List.mem_append] at ha ⊢
  tauto

private theorem Stand.right {op : BinaryOperator} {left right : OperatorTree Operand}
    (h : (binary op left right).Stand ctx) : right.Stand ctx := by
  intro a ha
  apply h
  simp only [OperatorChain.operands, chain, List.map_append, List.map_cons, List.mem_cons,
    List.mem_append] at ha ⊢
  tauto

private theorem Stand.checkOperand_eq_ok {t : OperatorTree Operand} (h : t.Stand ctx)
    (op : BinaryOperator) : Expression.checkOperand op t.expression = .ok () := by
  cases t with
  | operand a => exact (h a List.mem_cons_self).checkOperand_eq_ok op
  | binary op' left right => rfl

-- The text of a tree that binds is read by the levels that are looser than the operator at its
-- head, but for blanks at its ends: by induction on the tree.
private theorem exists_spans {t : OperatorTree Operand} (hbinds : t.Binds) (h : t.Stand ctx) :
    ∃ core, Expression.Pads core t.chain.text ∧
      (∀ rest, Stops Char.isWhitespace (core ++ rest)) ∧
      ∀ {depth}, core.length ≤ depth →
        Expression.Spans (Expression.scanOperand ctx (depth + 1)) t.rank core t.expression := by
  induction t with
  | operand a =>
    obtain ⟨core, hpads, hstands⟩ := (h a List.mem_cons_self).exists_stands
    refine ⟨core, ?_, hstands.opens, fun hdepth ↦ (hstands.reads hdepth).spans _⟩
    rwa [OperatorChain.text, chain, List.flatMap_nil, Query.joined_singleton]
  | binary op left right ihLeft ihRight =>
    obtain ⟨hleft, hright, bindsLeft, bindsRight⟩ := hbinds
    obtain ⟨core, ⟨lead, trail, htext, hlead, htrail⟩, hopens, hspans⟩ := ihLeft bindsLeft h.left
    obtain ⟨core', ⟨lead', trail', htext', hlead', htrail'⟩, hopens', hspans'⟩ :=
      ihRight bindsRight h.right
    have hbefore : IsGap (trail ++ [' ']) :=
      ⟨by simp, List.forall_mem_append.mpr ⟨htrail, IsGap.space.blank⟩⟩
    have hafter : IsGap (' ' :: lead') := ⟨by simp, List.forall_mem_cons.mpr ⟨rfl, hlead'⟩⟩
    refine ⟨core ++ (trail ++ [' ']) ++ op.keyword.toList ++ (' ' :: lead') ++ core', ?_, ?_, ?_⟩
    · refine ⟨lead, trail', ?_, hlead, htrail'⟩
      rw [text_chain_binary, htext, htext']
      simp only [List.append_assoc, List.cons_append, List.nil_append]
    · intro rest
      simp only [List.append_assoc]
      exact hopens _
    · intro depth hdepth
      simp only [List.length_append] at hdepth
      exact (hspans (by omega)).binary (le_rank hleft) ((hspans' (by omega)).reads (lt_rank hright))
        hbefore hafter hopens' (h.left.checkOperand_eq_ok op) (h.right.checkOperand_eq_ok op)

private theorem parse_text {t : OperatorTree Operand} (hbinds : t.Binds) (h : t.Stand ctx) :
    Expression.parse ctx (String.ofList t.chain.text) = .ok t.expression := by
  obtain ⟨core, ⟨lead, trail, htext, hlead, htrail⟩, hopens, hspans⟩ := exists_spans hbinds h
  have hscan : Expression.scan ctx (core ++ trail) = .found t.expression trail := by
    refine (hspans ?_).reads t.rank_pos trail (Expression.closes_of_blank _ htrail)
    rw [List.length_append]
    omega
  rw [htext]
  exact entire_of_found_padded hlead (hopens trail) hscan htrail

end OperatorTree

/-- A chain of any length is read as the only tree with its operands and operators in order in
which every left child binds as tightly as its parent or tighter, and every right child tighter. -/
theorem chain_binds_by_precedence (ctx : Context) (c : OperatorChain Operand)
    (h : ∀ a ∈ c.operands, Expression.IsOperand ctx a.text a.expression) :
    ∃ t : OperatorTree Operand, (t.chain = c ∧ t.Binds) ∧
      (∀ t' : OperatorTree Operand, t'.chain = c ∧ t'.Binds → t' = t) ∧
      Expression.parse ctx (String.ofList c.text) = .ok t.expression := by
  obtain ⟨t, ⟨rfl, hbinds⟩, hunique⟩ := OperatorTree.existsUnique_binds c
  exact ⟨t, ⟨rfl, hbinds⟩, hunique, t.parse_text hbinds h⟩

namespace Museum

/-- The museum with a function of texts. -/
def lengthContext : Context :=
  ⟨model, ⟨[.ofParameters "length" .string [.text] .numeric]⟩, false⟩

/-- The tree of `length(name) sub sizes[0] mul ( not (name eq ')')) sub @iot.id`. -/
def measures : OperatorTree Operand :=
  .binary .subtract
    (.binary .subtract
      (.operand ⟨"length(name)", .call "length" [.path ⟨[.property "name"]⟩]⟩)
      (.binary .multiply
        (.operand ⟨"sizes[0]", .path ⟨[.property "sizes", .index 0]⟩⟩)
        (.operand ⟨"( not (name eq ')'))", .unary .not (.binary .equal
          (.path ⟨[.property "name"]⟩) (.constant (.string ")")))⟩)))
    (.operand ⟨"@iot.id", .path ⟨[.primaryKey]⟩⟩)

end Museum

/-- The theorem at a call, paths and an expression in parentheses, with an operator that binds
tighter between two that bind as much. -/
theorem museum_measures_bind_by_precedence :
    (∀ a ∈ Museum.measures.chain.operands,
      Expression.IsOperand Museum.lengthContext a.text a.expression) ∧
    Expression.parse Museum.lengthContext (String.ofList Museum.measures.chain.text) =
      .ok Museum.measures.expression := by
  have hoperands : ∀ a ∈ Museum.measures.chain.operands,
      Expression.IsOperand Museum.lengthContext a.text a.expression := by
    intro a ha
    simp only [OperatorChain.operands, Museum.measures, OperatorTree.chain, List.map_cons,
      List.map_nil, List.nil_append, List.cons_append, List.mem_cons, List.not_mem_nil,
      or_false] at ha
    rcases ha with rfl | rfl | rfl | rfl
    · exact .call (by decide +kernel)
    · exact .path (by decide +kernel)
    · refine .parens (by decide +kernel) ?_ (by simp)
      exact ⟨" not (name eq ')')".toList, ⟨[], [], by decide, by simp, by simp⟩, rfl⟩
    · exact .path (by decide +kernel)
  obtain ⟨t, -, hunique, hparse⟩ :=
    chain_binds_by_precedence Museum.lengthContext Museum.measures.chain hoperands
  rw [← hunique Museum.measures ⟨rfl, by decide⟩] at hparse
  exact ⟨hoperands, hparse⟩

end SensorQuery
