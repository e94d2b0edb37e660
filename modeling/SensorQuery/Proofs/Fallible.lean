/-!
# Steps that may fail

Successful runs of steps in `Except`, taken apart: sequences, lists of steps and folds.
-/

namespace SensorQuery.Fallible

variable {ε α β : Type}

/-- A sequence succeeds if its first part does and its second on what that gives. -/
theorem bind_eq_ok {x : Except ε α} {f : α → Except ε β} {b : β} :
    (x >>= f) = .ok b ↔ ∃ a, x = .ok a ∧ f a = .ok b := by
  cases x with
  | error e => simp [bind, Except.bind]
  | ok a => simp [bind, Except.bind]

/-- A check in front of something succeeds with it if both do. -/
theorem check_bind_eq_ok {x : Except ε Unit} {y : Except ε β} {b : β} :
    (x >>= fun _ ↦ y) = .ok b ↔ x = .ok () ∧ y = .ok b :=
  bind_eq_ok.trans ⟨fun ⟨_, hx, hy⟩ ↦ ⟨hx, hy⟩, fun ⟨hx, hy⟩ ↦ ⟨(), hx, hy⟩⟩

/-- The answer is that of the first computation, with the function applied. -/
theorem map_eq_ok {x : Except ε α} {f : α → β} {b : β} :
    x.map f = .ok b ↔ ∃ a, x = .ok a ∧ f a = b := by
  cases x with
  | error e => simp [Except.map]
  | ok a => simp [Except.map]

/-- A computation that has succeeded goes on with what it gave. -/
theorem ok_bind (a : α) (f : α → Except ε β) : (Except.ok a >>= f) = f a := rfl

/-- A value alone is its own answer. -/
theorem pure_eq_ok {a b : α} : (pure a : Except ε α) = .ok b ↔ b = a :=
  ⟨fun h ↦ (Except.ok.inj h).symm, fun h ↦ h ▸ rfl⟩

/-- Steps in a row do not end in an error that none of them ends in. -/
theorem bind_ne_error {x : Except ε α} {f : α → Except ε β} {e : ε} (hx : x ≠ .error e)
    (hf : ∀ a, f a ≠ .error e) : (x >>= f) ≠ .error e := by
  cases x with
  | error e' => simpa [bind, Except.bind] using hx
  | ok a => exact hf a

/-- Only what goes on from answers that there are counts. -/
theorem bind_congr_ok {x : Except ε α} {f g : α → Except ε β} (h : ∀ a, x = .ok a → f a = g a) :
    (x >>= f) = (x >>= g) := by
  cases x with
  | error e => rfl
  | ok a => exact h a rfl

private theorem mapM_cons_eq_ok {f : α → Except ε β} {x : α} {xs : List α} {ys : List β} :
    (x :: xs).mapM f = .ok ys ↔
      ∃ y more, f x = .ok y ∧ xs.mapM f = .ok more ∧ ys = y :: more := by
  simp only [List.mapM_cons, bind_eq_ok]
  constructor
  · rintro ⟨y, hy, more, hmore, ⟨⟩⟩
    exact ⟨y, more, hy, hmore, rfl⟩
  · rintro ⟨y, more, hy, hmore, rfl⟩
    exact ⟨y, hy, more, hmore, rfl⟩

/-- Computations that agree on the items of a list agree on the list. -/
theorem mapM_congr {f g : α → Except ε β} {xs : List α} (h : ∀ x ∈ xs, f x = g x) :
    xs.mapM f = xs.mapM g := by
  induction xs with
  | nil => rfl
  | cons x xs ih =>
    obtain ⟨hx, hxs⟩ := List.forall_mem_cons.mp h
    rw [List.mapM_cons, List.mapM_cons, hx, ih hxs]

/-- Every answer of a list of steps is the answer of one of them. -/
theorem exists_of_mapM {f : α → Except ε β} {xs : List α} {ys : List β} (h : xs.mapM f = .ok ys) :
    ∀ y ∈ ys, ∃ x ∈ xs, f x = .ok y := by
  induction xs generalizing ys with
  | nil =>
    cases h
    exact fun y hy ↦ by cases hy
  | cons x xs ih =>
    obtain ⟨y, ys, hy, hys, rfl⟩ := mapM_cons_eq_ok.mp h
    refine List.forall_mem_cons.mpr ⟨⟨x, List.mem_cons_self, hy⟩, fun y' hy' ↦ ?_⟩
    obtain ⟨x', hx', hf⟩ := ih hys y' hy'
    exact ⟨x', List.mem_cons_of_mem x hx', hf⟩

/-- A list of steps with one answer is one step. -/
theorem exists_of_mapM_singleton {f : α → Except ε β} {xs : List α} {y : β}
    (h : xs.mapM f = .ok [y]) : ∃ x, xs = [x] ∧ f x = .ok y := by
  cases xs with
  | nil => cases h
  | cons x xs =>
    obtain ⟨y', more, hy, hmore, heq⟩ := mapM_cons_eq_ok.mp h
    cases heq
    cases xs with
    | nil => exact ⟨x, rfl, hy⟩
    | cons x' xs =>
      obtain ⟨_, _, -, -, heq⟩ := mapM_cons_eq_ok.mp hmore
      cases heq

/-- Steps that succeed one by one succeed as a list. -/
theorem mapM_eq_ok {f : α → Except ε β} {g : α → β} {xs : List α}
    (h : ∀ x ∈ xs, f x = .ok (g x)) : xs.mapM f = .ok (xs.map g) := by
  induction xs with
  | nil => rfl
  | cons x xs ih =>
    obtain ⟨hx, hxs⟩ := List.forall_mem_cons.mp h
    exact mapM_cons_eq_ok.mpr ⟨_, _, hx, ih hxs, rfl⟩

/-- In a list of steps that succeeds, each step succeeds. -/
theorem exists_ok_of_mapM {f : α → Except ε β} {xs : List α} {ys : List β}
    (h : xs.mapM f = .ok ys) : ∀ x ∈ xs, ∃ y, f x = .ok y := by
  induction xs generalizing ys with
  | nil => exact fun x hx ↦ by cases hx
  | cons x xs ih =>
    obtain ⟨y, ys, hy, hys, -⟩ := mapM_cons_eq_ok.mp h
    exact List.forall_mem_cons.mpr ⟨⟨y, hy⟩, ih hys⟩

/-- A list of other steps succeeds alike, if each succeeds with the answer that there was. -/
theorem mapM_of_mapM {f g : α → Except ε β} {xs : List α} {ys : List β} (h : xs.mapM f = .ok ys)
    (hfg : ∀ x ∈ xs, ∀ y ∈ ys, f x = .ok y → g x = .ok y) : xs.mapM g = .ok ys := by
  induction xs generalizing ys with
  | nil => exact h
  | cons x xs ih =>
    obtain ⟨y, ys, hy, hys, rfl⟩ := mapM_cons_eq_ok.mp h
    have hmore := ih hys fun x' hx' y' hy' ↦
      hfg x' (List.mem_cons_of_mem x hx') y' (List.mem_cons_of_mem y hy')
    exact mapM_cons_eq_ok.mpr
      ⟨y, ys, hfg x List.mem_cons_self y List.mem_cons_self hy, hmore, rfl⟩

/-- A list of checks succeeds exactly if each of them does. -/
theorem forM_eq_ok {f : α → Except ε Unit} {xs : List α} :
    xs.forM f = .ok () ↔ ∀ x ∈ xs, f x = .ok () := by
  induction xs with
  | nil => simp [pure, Except.pure]
  | cons x xs ih =>
    have hcons : (x :: xs).forM f = (f x >>= fun _ ↦ xs.forM f) := rfl
    rw [hcons, check_bind_eq_ok, List.forall_mem_cons, ih]

/-- Steps that each succeed on a condition, with one answer, succeed as a fold if all of them do. -/
theorem foldlM_eq_ok_iff {f : β → α → Except ε β} {g : β → α → β} {P : α → Prop}
    (h : ∀ a x b, f a x = .ok b ↔ P x ∧ b = g a x) {xs : List α} {a b : β} :
    xs.foldlM f a = .ok b ↔ (∀ x ∈ xs, P x) ∧ b = xs.foldl g a := by
  induction xs generalizing a with
  | nil => simp [pure_eq_ok]
  | cons x xs ih =>
    simp only [List.foldlM_cons, bind_eq_ok, h, ih, List.forall_mem_cons, List.foldl_cons]
    constructor
    · rintro ⟨_, ⟨hx, rfl⟩, hxs, hb⟩
      exact ⟨⟨hx, hxs⟩, hb⟩
    · rintro ⟨⟨hx, hxs⟩, hb⟩
      exact ⟨_, ⟨hx, rfl⟩, hxs, hb⟩

/-- What every step of a fold keeps is kept by the fold. -/
theorem foldlM_keeps {P : β → Prop} {f : β → α → Except ε β} {xs : List α} {a b : β}
    (hstep : ∀ a x b, x ∈ xs → P a → f a x = .ok b → P b) (ha : P a)
    (h : xs.foldlM f a = .ok b) : P b := by
  induction xs generalizing a with
  | nil =>
    cases h
    exact ha
  | cons x xs ih =>
    rw [List.foldlM_cons] at h
    obtain ⟨c, hc, h⟩ := bind_eq_ok.mp h
    exact ih (fun a y b hy ↦ hstep a y b (List.mem_cons_of_mem x hy))
      (hstep a x c List.mem_cons_self ha hc) h

end SensorQuery.Fallible
