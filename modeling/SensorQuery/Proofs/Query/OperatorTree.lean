import Mathlib.Data.List.Induction
import Mathlib.Logic.ExistsUnique
import SensorQuery.Query.Expression

/-!
# Trees of binary operators over operands

A chain is operands with operators between them. It is the in-order sequence of many trees, but of
only one that binds by precedence and to the left (`OperatorTree.existsUnique_binds`): its own
operator is the last of those that bind least.
-/

namespace SensorQuery

/-- Operands with binary operators between them. -/
@[ext]
structure OperatorChain (α : Type) where
  first : α
  rest : List (BinaryOperator × α)

/-- The operands from left to right. -/
def OperatorChain.operands {α : Type} (c : OperatorChain α) : List α := c.first :: c.rest.map (·.2)

/-- A tree of binary operators over operands. -/
inductive OperatorTree (α : Type) where
  | operand (a : α)
  | binary (op : BinaryOperator) (left right : OperatorTree α)

namespace OperatorTree

variable {α : Type}

/-- The operands and operators in order. -/
def chain : OperatorTree α → OperatorChain α
  | .operand a => ⟨a, []⟩
  | .binary op left right =>
    ⟨left.chain.first, left.chain.rest ++ (op, right.chain.first) :: right.chain.rest⟩

/-- The tree is an operand, or its own operator has the property. -/
def Heads (P : BinaryOperator → Prop) : OperatorTree α → Prop
  | .operand _ => True
  | .binary op _ _ => P op

/-- Each operator binds no tighter than the operator of its left child, and less tightly than the
operator of its right child. -/
def Binds : OperatorTree α → Prop
  | .operand _ => True
  | .binary op left right =>
    left.Heads (op.precedence ≤ ·.precedence) ∧ right.Heads (op.precedence < ·.precedence) ∧
      left.Binds ∧ right.Binds

instance (P : BinaryOperator → Prop) [DecidablePred P] (t : OperatorTree α) :
    Decidable (t.Heads P) :=
  match t with
  | .operand _ => inferInstanceAs (Decidable True)
  | .binary op _ _ => inferInstanceAs (Decidable (P op))

instance decidableBinds : (t : OperatorTree α) → Decidable t.Binds
  | .operand _ => inferInstanceAs (Decidable True)
  | .binary op left right =>
    have := decidableBinds left
    have := decidableBinds right
    inferInstanceAs (Decidable (left.Heads (op.precedence ≤ ·.precedence) ∧
      right.Heads (op.precedence < ·.precedence) ∧ left.Binds ∧ right.Binds))

/-! ### At most one tree -/

/-- In a tree that binds, the operator at its head binds least. -/
theorem Binds.forall_of_heads {t : OperatorTree α} (h : t.Binds) {P : BinaryOperator → Prop}
    (hP : ∀ {op op'}, P op → op.precedence ≤ op'.precedence → P op') (hhead : t.Heads P) :
    ∀ p ∈ t.chain.rest, P p.1 := by
  induction t with
  | operand a =>
    intro p hp
    cases hp
  | binary op left right ihLeft ihRight =>
    obtain ⟨hleft, hright, bindsLeft, bindsRight⟩ := h
    have hbelow {t : OperatorTree α} (ht : t.Heads (op.precedence ≤ ·.precedence)) : t.Heads P := by
      cases t with
      | operand a => trivial
      | binary op' _ _ => exact hP hhead ht
    have hright' : right.Heads (op.precedence ≤ ·.precedence) := by
      cases right with
      | operand a => trivial
      | binary op' _ _ => exact Nat.le_of_lt hright
    intro p hp
    rcases List.mem_append.mp hp with hp | hp
    · exact ihLeft bindsLeft (hbelow hleft) p hp
    · rcases List.mem_cons.mp hp with rfl | hp
      · exact hhead
      · exact ihRight bindsRight (hbelow hright') p hp

-- The last of the operators that bind least is one place in a chain.
private theorem eq_of_split {front back front' back' : List (BinaryOperator × α)}
    {p p' : BinaryOperator × α} (heq : front ++ p :: back = front' ++ p' :: back')
    (hfront : ∀ q ∈ front, p.1.precedence ≤ q.1.precedence)
    (hback : ∀ q ∈ back, p.1.precedence < q.1.precedence)
    (hfront' : ∀ q ∈ front', p'.1.precedence ≤ q.1.precedence)
    (hback' : ∀ q ∈ back', p'.1.precedence < q.1.precedence) :
    front = front' ∧ p = p' ∧ back = back' := by
  rcases List.append_eq_append_iff.mp heq with ⟨mid, rfl, hmid⟩ | ⟨mid, rfl, hmid⟩
  · cases mid with
    | nil => exact ⟨by simp, List.cons.inj hmid⟩
    | cons q mid =>
      obtain ⟨rfl, rfl⟩ := List.cons.inj hmid
      have hle := hfront' p (by simp)
      have hlt := hback p' (by simp)
      omega
  · cases mid with
    | nil =>
      obtain ⟨rfl, rfl⟩ := List.cons.inj hmid
      exact ⟨by simp, rfl, rfl⟩
    | cons q mid =>
      obtain ⟨rfl, rfl⟩ := List.cons.inj hmid
      have hle := hfront p' (by simp)
      have hlt := hback' p (by simp)
      omega

/-- Trees that bind are the same if they have the same operands and operators in order. -/
theorem Binds.eq_of_chain_eq {t t' : OperatorTree α} (h : t.Binds) (h' : t'.Binds)
    (heq : t.chain = t'.chain) : t = t' := by
  induction t generalizing t' with
  | operand a =>
    cases t' with
    | operand b =>
      rw [chain, chain, OperatorChain.mk.injEq] at heq
      rw [heq.1]
    | binary op left right => simp [chain] at heq
  | binary op left right ihLeft ihRight =>
    cases t' with
    | operand b => simp [chain] at heq
    | binary op' left' right' =>
      obtain ⟨hleft, hright, bindsLeft, bindsRight⟩ := h
      obtain ⟨hleft', hright', bindsLeft', bindsRight'⟩ := h'
      rw [chain, chain, OperatorChain.mk.injEq] at heq
      obtain ⟨hfirst, hrest⟩ := heq
      obtain ⟨hfront, hop, hback⟩ := eq_of_split hrest
        (bindsLeft.forall_of_heads Nat.le_trans hleft)
        (bindsRight.forall_of_heads Nat.lt_of_lt_of_le hright)
        (bindsLeft'.forall_of_heads Nat.le_trans hleft')
        (bindsRight'.forall_of_heads Nat.lt_of_lt_of_le hright')
      obtain ⟨rfl, hsecond⟩ := Prod.mk.inj hop
      obtain rfl := ihLeft bindsLeft bindsLeft' (OperatorChain.ext hfirst hfront)
      obtain rfl := ihRight bindsRight bindsRight' (OperatorChain.ext hsecond hback)
      rfl

/-! ### A tree for every chain -/

/-- The tree with one more operator and operand at its right end. -/
def push (op : BinaryOperator) (a : α) : OperatorTree α → OperatorTree α
  | .operand b => .binary op (.operand b) (.operand a)
  | .binary op' left right =>
    if op'.precedence < op.precedence then .binary op' left (push op a right)
    else .binary op (.binary op' left right) (.operand a)

private theorem chain_push (op : BinaryOperator) (a : α) (t : OperatorTree α) :
    (t.push op a).chain = ⟨t.chain.first, t.chain.rest ++ [(op, a)]⟩ := by
  induction t with
  | operand b => rfl
  | binary op' left right _ ihRight =>
    rw [push]
    split
    · simp [chain, ihRight]
    · rfl

private theorem Heads.push {P : BinaryOperator → Prop} {op : BinaryOperator} {t : OperatorTree α}
    (h : t.Heads P) (hop : P op) (a : α) : (t.push op a).Heads P := by
  cases t with
  | operand b => exact hop
  | binary op' left right =>
    rw [OperatorTree.push]
    split
    · exact h
    · exact hop

private theorem Binds.push {op : BinaryOperator} {t : OperatorTree α} (h : t.Binds) (a : α) :
    (t.push op a).Binds := by
  induction t with
  | operand b => exact ⟨trivial, trivial, trivial, trivial⟩
  | binary op' left right _ ihRight =>
    obtain ⟨hleft, hright, bindsLeft, bindsRight⟩ := h
    rw [OperatorTree.push]
    split
    · next hlt => exact ⟨hleft, hright.push hlt a, bindsLeft, ihRight bindsRight⟩
    · next hlt =>
      exact ⟨Nat.le_of_not_lt hlt, trivial, ⟨hleft, hright, bindsLeft, bindsRight⟩, trivial⟩

/-- Every chain is the in-order sequence of exactly one tree that binds by precedence. -/
theorem existsUnique_binds (c : OperatorChain α) :
    ∃! t : OperatorTree α, t.chain = c ∧ t.Binds := by
  suffices hexists : ∃ t : OperatorTree α, t.chain = c ∧ t.Binds by
    obtain ⟨t, hchain, hbinds⟩ := hexists
    refine ⟨t, ⟨hchain, hbinds⟩, ?_⟩
    rintro t' ⟨hchain', hbinds'⟩
    exact hbinds'.eq_of_chain_eq hbinds (hchain'.trans hchain.symm)
  obtain ⟨first, rest⟩ := c
  induction rest using List.reverseRecOn with
  | nil => exact ⟨.operand first, rfl, trivial⟩
  | append_singleton rest p ih =>
    obtain ⟨t, hchain, hbinds⟩ := ih
    refine ⟨t.push p.1 p.2, ?_, hbinds.push p.2⟩
    rw [chain_push, hchain]

end OperatorTree

end SensorQuery
