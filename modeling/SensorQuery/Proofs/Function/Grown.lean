import SensorQuery.Function.Catalog

/-!
# Catalogs that grow

A catalog changes only by registering functions, one by one or many at once. A function that cannot
be registered changes nothing, so a name that is known keeps its signature, whatever is registered
later.
-/

namespace SensorQuery

namespace Catalog

/-- A request to register functions. -/
inductive Registration where
  | one (f : Signature)
  /-- All of them, up to the first that cannot be registered. -/
  | all (fs : List Signature)

/-- The catalog after the request, whether it fails or not. -/
def after (c : Catalog) : Registration → Catalog
  | .one f =>
    match c.register f with
    | .ok more => more
    | .error _ => c
  | .all fs => (c.registerAll fs).1

/-- The catalog after the requests in order. -/
def afterEach (c : Catalog) (requests : List Registration) : Catalog := requests.foldl after c

/-- Names that are known have the same signatures in the other catalog. -/
def Within (c more : Catalog) : Prop :=
  ∀ ⦃name f⦄, c.get? name = some f → more.get? name = some f

private theorem Within.refl (c : Catalog) : c.Within c := fun _ _ h ↦ h

private theorem Within.trans {c mid more : Catalog} (h : c.Within mid) (h' : mid.Within more) :
    c.Within more := fun _ _ hf ↦ h' (h hf)

variable {c more : Catalog}

/-- What is registered stands behind what is there. -/
theorem within_register {f : Signature} (h : c.register f = .ok more) : c.Within more := by
  intro name g hg
  unfold register at h
  split at h
  · cases h
  · cases h
    unfold get? at hg ⊢
    rw [List.find?_append, hg]
    rfl

private theorem within_registerAll (c : Catalog) (fs : List Signature) :
    c.Within (c.registerAll fs).1 := by
  induction fs generalizing c with
  | nil => exact .refl c
  | cons f fs ih =>
    rw [registerAll]
    cases h : c.register f with
    | ok more => exact (within_register h).trans (ih more)
    | error e => exact .refl c

private theorem within_after (c : Catalog) (request : Registration) :
    c.Within (c.after request) := by
  cases request with
  | one f =>
    rw [after]
    cases h : c.register f with
    | ok more => exact within_register h
    | error e => exact .refl c
  | all fs => exact within_registerAll c fs

/-- Names that are known keep their signatures. -/
theorem within_afterEach (c : Catalog) (requests : List Registration) :
    c.Within (c.afterEach requests) := by
  induction requests generalizing c with
  | nil => exact .refl c
  | cons request requests ih => exact (within_after c request).trans (ih (c.after request))

end Catalog

end SensorQuery
