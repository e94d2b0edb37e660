import SensorQuery.Proofs.Fallible
import SensorQuery.Proofs.Scanner

/-!
# Readers that are alike

Two readers are alike if they give the same answer, unless the first fails with an error of a
certain sort. Readers that are put together from such readers in the same way are alike. What the
first scanner finds has a property on which the ways in which the two go on may depend.
-/

namespace SensorQuery

variable {ε δ α β : Type}

/-! ### Scanners -/

namespace Scanner

/-- In front of every text the other scanner does the same, and what is found has the property,
unless the first refuses the text with an error of the sort. -/
def Alike (lost : ε → Prop) (P : α → Prop) (p p' : Scanner ε α) : Prop :=
  ∀ s, (∃ e, lost e ∧ p s = .refused e) ∨ p' s = p s ∧ ∀ a rest, p s = .found a rest → P a

namespace Alike

variable {lost : ε → Prop} {P : α → Prop} {Q : β → Prop}

/-- A scanner is read alike with itself, if what it finds has the property. -/
protected theorem refl {p : Scanner ε α} (h : ∀ s a rest, p s = .found a rest → P a) :
    Alike lost P p p := fun s ↦ .inr ⟨rfl, h s⟩

/-- A scanner is read alike with itself. -/
protected theorem same (p : Scanner ε α) : Alike lost (fun _ ↦ True) p p :=
  .refl fun _ _ _ _ ↦ trivial

/-- An answer that has the property is read alike. -/
protected theorem pure {a : α} (h : P a) : Alike lost P (pure a) (pure a) :=
  .refl fun _ _ _ hfound ↦ by cases hfound; exact h

/-- A scanner that finds nothing is alike itself, whatever the property. -/
protected theorem miss : Alike lost P miss miss := .refl fun _ _ _ hfound ↦ by cases hfound

/-- A refusal is read alike. -/
protected theorem refuse (e : ε) : Alike lost P (refuse e) (refuse e) :=
  .refl fun _ _ _ hfound ↦ by cases hfound

/-- A sequence is read alike if its parts are. -/
protected theorem bind {p p' : Scanner ε α} {f f' : α → Scanner ε β} (h : Alike lost P p p')
    (hf : ∀ a, P a → Alike lost Q (f a) (f' a)) : Alike lost Q (p >>= f) (p' >>= f') := by
  intro s
  rcases h s with ⟨e, he, hs⟩ | ⟨hs, hP⟩
  · exact .inl ⟨e, he, by rw [bind_apply, hs]⟩
  · rw [bind_apply, bind_apply, hs]
    cases ha : p s with
    | found a mid => exact hf a (hP a mid ha) mid
    | missed => exact Alike.miss s
    | refused e => exact Alike.refuse e s

/-- A choice is read alike if its alternatives are. -/
protected theorem orElse {p p' q q' : Scanner ε α} (hp : Alike lost P p p')
    (hq : Alike lost P q q') : Alike lost P (orElse p q) (orElse p' q') := by
  intro s
  unfold Scanner.orElse
  rcases hp s with ⟨e, he, hs⟩ | ⟨hs, hP⟩
  · exact .inl ⟨e, he, by rw [hs]⟩
  · rw [hs]
    cases ha : p s with
    | found a rest =>
      refine .inr ⟨rfl, fun b mid hb ↦ ?_⟩
      cases hb
      exact hP a rest ha
    | missed => exact hq s
    | refused e => exact Alike.refuse e s

/-- What may be left out is read alike if it is where it stands. -/
protected theorem optional {p p' : Scanner ε α} (h : Alike lost P p p') :
    Alike lost (fun o ↦ ∀ a ∈ o, P a) (optional p) (optional p') := by
  intro s
  unfold Scanner.optional
  rcases h s with ⟨e, he, hs⟩ | ⟨hs, hP⟩
  · exact .inl ⟨e, he, by rw [hs]⟩
  · rw [hs]
    refine .inr ⟨rfl, fun o rest ho a ha ↦ ?_⟩
    cases hp : p s with
    | found b mid =>
      rw [hp] at ho
      cases ho
      cases ha
      exact hP _ _ hp
    | missed =>
      rw [hp] at ho
      cases ho
      cases ha
    | refused e =>
      rw [hp] at ho
      cases ho

private theorem manyUpTo {p p' : Scanner ε α} (h : Alike lost P p p') (n : Nat) :
    Alike lost (fun as ↦ ∀ a ∈ as, P a) (manyUpTo p n) (manyUpTo p' n) := by
  induction n with
  | zero => exact .pure (List.forall_mem_nil P)
  | succ n ih =>
    rw [manyUpTo_succ, manyUpTo_succ]
    refine .bind h.optional fun o ho ↦ ?_
    cases o with
    | none => exact .pure (List.forall_mem_nil P)
    | some a => exact .bind ih fun as has ↦ .pure (List.forall_mem_cons.mpr ⟨ho a rfl, has⟩)

/-- A repetition is read alike if each turn is. -/
protected theorem many {p p' : Scanner ε α} (h : Alike lost P p p') :
    Alike lost (fun as ↦ ∀ a ∈ as, P a) (many p) (many p') := fun s ↦ h.manyUpTo s.length s

/-- A list with separators is read alike if its items are. -/
protected theorem separated {sep : Scanner ε Unit} {p p' : Scanner ε α} (h : Alike lost P p p') :
    Alike lost (fun as ↦ ∀ a ∈ as, P a) (separated sep p) (separated sep p') :=
  .bind h fun _ ha ↦ .bind (.many (.bind (.same sep) fun _ _ ↦ h)) fun _ has ↦
    .pure (List.forall_mem_cons.mpr ⟨ha, has⟩)

end Alike

end Scanner

/-! ### Computations that may fail -/

namespace Fallible

/-- The computations have the same result, unless the first fails with an error of the sort. -/
def Alike (lost : ε → Prop) (x x' : Except ε α) : Prop := (∃ e, lost e ∧ x = .error e) ∨ x' = x

namespace Alike

variable {lost : ε → Prop}

/-- An answer agrees with itself. -/
protected theorem refl (x : Except ε α) : Alike lost x x := .inr rfl

/-- A sequence agrees if its parts do. -/
protected theorem bind {x x' : Except ε α} {f f' : α → Except ε β} (h : Alike lost x x')
    (hf : ∀ a, Alike lost (f a) (f' a)) : Alike lost (x >>= f) (x' >>= f') := by
  rcases h with ⟨e, he, rfl⟩ | rfl
  · exact .inl ⟨e, he, rfl⟩
  · cases x' with
    | ok a => exact hf a
    | error e => exact .inr rfl

/-- Without an error of the sort, the results are the same. -/
theorem eq {x x' : Except ε α} (h : Alike lost x x') (hkept : ∀ e, x = .error e → ¬ lost e) :
    x' = x := by
  rcases h with ⟨e, he, hx⟩ | hsame
  · exact absurd he (hkept e hx)
  · exact hsame

/-- A choice by a condition agrees if its branches do. -/
protected theorem ite {c : Prop} [Decidable c] {x x' y y' : Except ε α} (hx : Alike lost x x')
    (hy : Alike lost y y') : Alike lost (if c then x else y) (if c then x' else y') := by
  split
  · exact hx
  · exact hy

/-- Answers for each item of a list agree if those for single items do. -/
protected theorem mapM {f f' : α → Except ε β} (h : ∀ a, Alike lost (f a) (f' a)) (as : List α) :
    Alike lost (as.mapM f) (as.mapM f') := by
  induction as with
  | nil => exact .refl _
  | cons a as ih =>
    rw [List.mapM_cons, List.mapM_cons]
    exact .bind (h a) fun b ↦ .bind ih fun bs ↦ .refl _

end Alike

end Fallible

end SensorQuery
