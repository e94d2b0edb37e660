import SensorQuery.Path.Element

/-!
# Elements of a path

What an element says apart from its parent, and the last element of a sort.
-/

namespace SensorQuery

namespace PathElement

/-- The element without its parent. -/
def orphan : PathElement → PathElement
  | .entitySet entityType plural navigation _ => .entitySet entityType plural navigation none
  | .entity entityType key navigation _ => .entity entityType key navigation none
  | .property name _ => .property name 0
  | .custom name _ => .custom name 0
  | .index i _ => .index i 0

/-- The key of an entity that is addressed by one. -/
def key? : PathElement → Option Key
  | .entity _ key _ _ => key
  | _ => none

variable {e e' : PathElement}

/-- An element keeps its type when others in front of it are dropped. -/
@[simp] theorem entityType?_shiftParent (offset : Nat) (e : PathElement) :
    (e.shiftParent offset).entityType? = e.entityType? := by
  cases e <;> rfl

/-- An element stays a resource when others in front of it are dropped. -/
@[simp] theorem isResource_shiftParent (offset : Nat) (e : PathElement) :
    (e.shiftParent offset).isResource = e.isResource := by
  cases e <;> rfl

/-- An element stays a set when others in front of it are dropped. -/
@[simp] theorem isEntitySet_shiftParent (offset : Nat) (e : PathElement) :
    (e.shiftParent offset).isEntitySet = e.isEntitySet := by
  cases e <;> rfl

/-- An element stays an entity with a key when others in front of it are dropped. -/
@[simp] theorem isKeyed_shiftParent (offset : Nat) (e : PathElement) :
    (e.shiftParent offset).isKeyed = e.isKeyed := by
  cases e with
  | entity _ key => cases key <;> rfl
  | _ => rfl

/-- An element keeps its key when others in front of it are dropped. -/
@[simp] theorem key?_shiftParent (offset : Nat) (e : PathElement) :
    (e.shiftParent offset).key? = e.key? := by
  cases e <;> rfl

/-- An element without its parent stays the same when others in front of it are dropped. -/
@[simp] theorem orphan_shiftParent (offset : Nat) (e : PathElement) :
    (e.shiftParent offset).orphan = e.orphan := by
  cases e <;> rfl

/-- Where nothing is dropped, elements stay as they are. -/
theorem shiftParent_zero : shiftParent 0 = id := by
  funext e
  cases e <;> simp [shiftParent]

/-- An element is known from the rest of it and its parent. -/
theorem eq_of_orphan (h : e.orphan = e'.orphan) (hparent : e.parent? = e'.parent?) : e = e' := by
  cases e <;> cases e' <;> simp_all [orphan, parent?]

end PathElement

/-! ### The last of a sort -/

namespace ResourcePath

variable {sort : PathElement → Bool} {es es' : List PathElement}

/-- The last element of a sort stands behind, or in front if there is none behind. -/
theorem lastIndex?_append (sort : PathElement → Bool) (es es' : List PathElement) :
    lastIndex? sort (es ++ es') =
      ((lastIndex? sort es').map (es.length + ·)).orElse fun _ ↦ lastIndex? sort es := by
  induction es with
  | nil => cases h : lastIndex? sort es' <;> simp [h, lastIndex?]
  | cons e es ih =>
    rw [List.cons_append, lastIndex?, ih, lastIndex?]
    cases lastIndex? sort es' with
    | none => rfl
    | some i =>
      simp only [Option.map_some, Option.orElse_some, List.length_cons]
      congr 1
      omega

/-- Changing elements within their sorts keeps the place of the last of a sort. -/
theorem lastIndex?_map {f : PathElement → PathElement} (h : ∀ e, sort (f e) = sort e)
    (es : List PathElement) : lastIndex? sort (es.map f) = lastIndex? sort es := by
  induction es with
  | nil => rfl
  | cons e es ih => rw [List.map_cons, lastIndex?, ih, h, lastIndex?]

/-- There is no last element of a sort if no element is of it. -/
theorem lastIndex?_eq_none_iff : lastIndex? sort es = none ↔ ∀ e ∈ es, sort e = false := by
  induction es with
  | nil => simp [lastIndex?]
  | cons e es ih =>
    rw [lastIndex?, List.forall_mem_cons, ← ih]
    cases lastIndex? sort es <;> simp

/-- Behind the last element of a sort there is none of the sort. -/
theorem exists_of_lastIndex? {i : Nat} (h : lastIndex? sort es = some i) :
    ∃ front e back, es = front ++ e :: back ∧ front.length = i ∧ sort e = true ∧
      ∀ e ∈ back, sort e = false := by
  induction es generalizing i with
  | nil => cases h
  | cons e es ih =>
    rw [lastIndex?] at h
    cases hes : lastIndex? sort es with
    | some j =>
      rw [hes] at h
      obtain ⟨front, e', back, rfl, hlength, he', hback⟩ := ih hes
      refine ⟨e :: front, e', back, rfl, ?_, he', hback⟩
      simpa [hlength] using h
    | none =>
      rw [hes] at h
      simp only [Option.map_none, Option.orElse_none, Option.ite_none_right_eq_some] at h
      exact ⟨[], e, es, rfl, by simpa using h.2, h.1, lastIndex?_eq_none_iff.mp hes⟩

end ResourcePath

end SensorQuery
