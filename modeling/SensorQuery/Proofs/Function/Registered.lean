import Mathlib.Data.List.Forall2
import SensorQuery.Function.Standard
import SensorQuery.Proofs.Function.Grown

/-!
# What a catalog knows

A catalog that is built by registering knows exactly the functions that could be registered, and no
two of them have names that only differ in the case of ASCII letters. Under each name it knows the
first that was registered. Registering fails exactly if the name is taken, and of many functions
those before the first with a taken name are kept.
-/

namespace SensorQuery.Catalog

/-! ### Names -/

/-- The characters are the same, or one is a capital letter of ASCII and the other its small letter,
32 places behind it. -/
def SameLetter (c d : Char) : Prop :=
  c = d ∨ (c.isUpper ∧ d.toNat = c.toNat + 32) ∨ (d.isUpper ∧ c.toNat = d.toNat + 32)

instance (c d : Char) : Decidable (SameLetter c d) :=
  inferInstanceAs (Decidable (c = d ∨ (c.isUpper ∧ d.toNat = c.toNat + 32) ∨
    (d.isUpper ∧ c.toNat = d.toNat + 32)))

/-- The names are the same but for the case of ASCII letters. -/
def SameName (a b : String) : Prop := List.Forall₂ SameLetter a.toList b.toList

instance (a b : String) : Decidable (SameName a b) :=
  inferInstanceAs (Decidable (List.Forall₂ SameLetter a.toList b.toList))

private theorem isUpper_iff (c : Char) : c.isUpper = true ↔ 65 ≤ c.toNat ∧ c.toNat ≤ 90 := by
  have hbounds : c.isUpper = true ↔ c.val ≥ 'A'.val ∧ c.val ≤ 'Z'.val := decide_eq_true_iff
  rw [hbounds, ge_iff_le, UInt32.le_iff_toNat_le, UInt32.le_iff_toNat_le]
  rfl

private theorem toNat_toLower (c : Char) :
    c.toLower.toNat = if c.isUpper then c.toNat + 32 else c.toNat := by
  by_cases h : c.isUpper = true
  · have hlower : c.toLower = ⟨c.val + 32, _⟩ := dif_pos (of_decide_eq_true h)
    have hletter := (isUpper_iff c).mp h
    have hlt : c.val.toNat + 32 < 4294967296 := by
      change c.toNat + 32 < 4294967296
      omega
    rw [if_pos h, hlower]
    exact (UInt32.toNat_add c.val 32).trans (Nat.mod_eq_of_lt hlt)
  · have hsame : c.toLower = c := dif_neg fun hletter ↦ h (decide_eq_true hletter)
    rw [if_neg h, hsame]

private theorem sameLetter_iff {c d : Char} : SameLetter c d ↔ c.toLower = d.toLower := by
  rw [SameLetter, ← Char.toNat_inj, ← Char.toNat_inj, toNat_toLower, toNat_toLower]
  simp only [isUpper_iff]
  split <;> split <;> omega

/-- Folding makes exactly those names equal that are the same but for case. -/
theorem sameName_iff {a b : String} : SameName a b ↔ fold a = fold b := by
  have hletter : SameLetter = fun c d ↦ c.toLower = d.toLower := by
    funext c d
    exact propext sameLetter_iff
  rw [SameName, fold, fold, ← List.forall₂_eq_eq_eq, List.forall₂_map_left_iff,
    List.forall₂_map_right_iff, hletter]

variable {c more : Catalog} {f : Signature} {e : FunctionError}

/-- Looking a name up finds the first signature with that name, in any case. -/
theorem get?_eq_find? (c : Catalog) (name : String) :
    c.get? name = c.signatures.find? (SameName ·.name name) := by
  simp only [get?, sameName_iff]

/-! ### One registration -/

private theorem register_eq_error_iff : c.register f = .error e ↔
    e = .alreadyRegistered f.name ∧ ∃ g ∈ c.signatures, SameName g.name f.name := by
  have htaken : (∃ g ∈ c.signatures, SameName g.name f.name) ↔ (c.get? f.name).isSome = true := by
    rw [get?_eq_find?, List.find?_isSome]
    simp only [decide_eq_true_eq]
  rw [htaken, register]
  cases c.get? f.name with
  | none => simp
  | some g => simp [eq_comm]

private theorem register_eq_ok_iff : c.register f = .ok more ↔
    (∀ g ∈ c.signatures, ¬ SameName g.name f.name) ∧ more = ⟨c.signatures ++ [f]⟩ := by
  have hfree : (∀ g ∈ c.signatures, ¬ SameName g.name f.name) ↔ c.get? f.name = none := by
    rw [get?_eq_find?, List.find?_eq_none]
    simp only [decide_eq_true_eq]
  rw [hfree, register]
  cases c.get? f.name with
  | none => simp [eq_comm]
  | some g => simp

/-! ### Many registrations -/

/-- A list is registered by its first signature and the others behind it, or fails with the first
and changes nothing. -/
theorem registerAll_cons_eq_iff {fs : List Signature} {result : Catalog × Option FunctionError} :
    c.registerAll (f :: fs) = result ↔
      (∃ next, c.register f = .ok next ∧ next.registerAll fs = result) ∨
        ∃ e, c.register f = .error e ∧ (c, some e) = result := by
  rw [registerAll]
  cases c.register f <;> simp

/-- If a list can be registered, another is registered behind it. -/
theorem registerAll_append {fs : List Signature} (h : c.registerAll fs = (more, none))
    (gs : List Signature) : c.registerAll (fs ++ gs) = more.registerAll gs := by
  induction fs generalizing c with
  | nil =>
    cases h
    rfl
  | cons f fs ih =>
    obtain ⟨next, hf, h⟩ | ⟨e, -, h⟩ := registerAll_cons_eq_iff.mp h
    · exact registerAll_cons_eq_iff.mpr (.inl ⟨next, hf, ih h⟩)
    · cases h

/-- Registering many fails at the one that fails where those before it have been registered. -/
theorem registerAll_eq_error_iff {fs : List Signature} : c.registerAll fs = (more, some e) ↔
    ∃ before f rest, fs = before ++ f :: rest ∧ c.registerAll before = (more, none) ∧
      more.register f = .error e := by
  constructor
  · intro h
    induction fs generalizing c with
    | nil => cases h
    | cons f fs ih =>
      obtain ⟨next, hf, h⟩ | ⟨e, hf, h⟩ := registerAll_cons_eq_iff.mp h
      · obtain ⟨before, g, rest, rfl, hbefore, hg⟩ := ih h
        exact ⟨f :: before, g, rest, rfl,
          registerAll_cons_eq_iff.mpr (.inl ⟨next, hf, hbefore⟩), hg⟩
      · cases h
        exact ⟨[], f, fs, rfl, rfl, hf⟩
  · rintro ⟨before, f, rest, rfl, hbefore, hf⟩
    rw [registerAll_append hbefore]
    exact registerAll_cons_eq_iff.mpr (.inr ⟨e, hf, rfl⟩)

private theorem signatures_of_registerAll {fs : List Signature}
    (h : c.registerAll fs = (more, none)) :
    more.signatures = c.signatures ++ fs := by
  induction fs generalizing c with
  | nil =>
    cases h
    exact (List.append_nil _).symm
  | cons f fs ih =>
    obtain ⟨next, hf, h⟩ | ⟨e, -, h⟩ := registerAll_cons_eq_iff.mp h
    · obtain ⟨-, rfl⟩ := register_eq_ok_iff.mp hf
      exact (ih h).trans (List.append_assoc _ _ _)
    · cases h

/-! ### All requests -/

/-- The signatures that the request wants to register, in order. -/
def Registration.offered : Registration → List Signature
  | .one f => [f]
  | .all fs => fs

/-- The signatures that are registered one by one, up to the first that fails. -/
def registeredOf (c : Catalog) : List Signature → List Signature
  | [] => []
  | f :: fs =>
    match c.register f with
    | .ok more => f :: more.registeredOf fs
    | .error _ => []

/-- The signatures that the requests register, in order. -/
def registered (c : Catalog) : List Registration → List Signature
  | [] => []
  | request :: requests => c.registeredOf request.offered ++ (c.after request).registered requests

/-- A single signature is registered like a list of one. -/
theorem after_eq (c : Catalog) (request : Registration) :
    c.after request = (c.registerAll request.offered).1 := by
  cases request with
  | one f =>
    rw [after, Registration.offered, registerAll]
    cases c.register f <;> rfl
  | all fs => rfl

private theorem signatures_registerAll (c : Catalog) (fs : List Signature) :
    (c.registerAll fs).1.signatures = c.signatures ++ c.registeredOf fs := by
  induction fs generalizing c with
  | nil => exact (List.append_nil _).symm
  | cons f fs ih =>
    rw [registerAll, registeredOf]
    cases h : c.register f with
    | ok more =>
      obtain ⟨-, rfl⟩ := register_eq_ok_iff.mp h
      exact (ih _).trans (List.append_assoc _ _ _)
    | error e => exact (List.append_nil _).symm

/-- A catalog knows what it knew, and behind that what has been registered since. -/
theorem signatures_afterEach (c : Catalog) (requests : List Registration) :
    (c.afterEach requests).signatures = c.signatures ++ c.registered requests := by
  induction requests generalizing c with
  | nil => exact (List.append_nil _).symm
  | cons request requests ih =>
    calc ((c.after request).afterEach requests).signatures
        = (c.after request).signatures ++ (c.after request).registered requests := ih _
      _ = c.signatures ++ c.registeredOf request.offered ++
            (c.after request).registered requests := by rw [after_eq, signatures_registerAll]
      _ = c.signatures ++ c.registered (request :: requests) := List.append_assoc _ _ _

private theorem registerAll_keeps {P : Catalog → Prop}
    (hstep : ∀ c f more, P c → c.register f = .ok more → P more) (hc : P c)
    (fs : List Signature) : P (c.registerAll fs).1 := by
  induction fs generalizing c with
  | nil => exact hc
  | cons f fs ih =>
    rw [registerAll]
    cases h : c.register f with
    | ok more => exact ih (hstep c f more hc h)
    | error e => exact hc

/-- What every registration that succeeds keeps is kept by all requests. -/
theorem afterEach_keeps {P : Catalog → Prop}
    (hstep : ∀ c f more, P c → c.register f = .ok more → P more) (hc : P c)
    (requests : List Registration) : P (c.afterEach requests) := by
  induction requests generalizing c with
  | nil => exact hc
  | cons request requests ih =>
    have hafter : P (c.after request) := by
      rw [after_eq]
      exact registerAll_keeps hstep hc request.offered
    exact ih hafter

/-- No two names are the same but for case. -/
def Distinct (c : Catalog) : Prop := c.names.Pairwise fun a b ↦ ¬ SameName a b

private theorem Distinct.register (hc : c.Distinct) (h : c.register f = .ok more) :
    more.Distinct := by
  obtain ⟨hfree, rfl⟩ := register_eq_ok_iff.mp h
  rw [Distinct, names, List.map_append, List.pairwise_append]
  refine ⟨hc, List.pairwise_singleton _ _, fun a ha b hb ↦ ?_⟩
  obtain ⟨g, hg, rfl⟩ := List.mem_map.mp ha
  cases List.mem_singleton.mp hb
  exact hfree g hg

private theorem distinct_afterEach (requests : List Registration) :
    (empty.afterEach requests).Distinct :=
  afterEach_keeps (fun _ _ _ hc h ↦ hc.register h) .nil requests

/-- A catalog that is built by registering knows under each name, in any case, the first signature
that was registered under it, and still knows it after further requests. Registering fails exactly
if the name is taken, and changes nothing then; registering many fails at one whose name is taken,
and adds exactly those before it. There are as many signatures as were registered, and no two names
are the same but for case. -/
theorem first_registered_stays (start requests : List Registration) (c : Catalog)
    (h : (empty.afterEach start).afterEach requests = c) :
    (∀ name variant, SameName name variant →
      c.get? variant = (empty.registered (start ++ requests)).find? (SameName ·.name name)) ∧
    (∀ name f, (empty.afterEach start).get? name = some f → c.get? name = some f) ∧
    (∀ f e, c.register f = .error e ↔ e = .alreadyRegistered f.name ∧
      ∃ g ∈ empty.registered (start ++ requests), SameName g.name f.name) ∧
    (∀ f e, c.register f = .error e → ∀ name, (c.after (.one f)).get? name = c.get? name) ∧
    (∀ fs more e, c.registerAll fs = (more, some e) ↔ ∃ before f rest,
      fs = before ++ f :: rest ∧ c.registerAll before = (more, none) ∧
        more.signatures = c.signatures ++ before ∧ e = .alreadyRegistered f.name ∧
        ∃ g ∈ more.signatures, SameName g.name f.name) ∧
    c.size = (empty.registered (start ++ requests)).length ∧
    c.names.Pairwise fun a b ↦ ¬ SameName a b := by
  have hbuilt : empty.afterEach (start ++ requests) = c := List.foldl_append.trans h
  have hsignatures : c.signatures = empty.registered (start ++ requests) := by
    rw [← hbuilt, signatures_afterEach]
    rfl
  refine ⟨fun name variant hname ↦ ?_, fun name f hf ↦ ?_, fun f e ↦ ?_, fun f e hf name ↦ ?_,
    fun fs more e ↦ ?_, ?_, ?_⟩
  · have hfold := sameName_iff.mp hname
    simp only [get?_eq_find?, hsignatures, sameName_iff, hfold]
  · exact h ▸ within_afterEach _ requests hf
  · rw [register_eq_error_iff, hsignatures]
  · rw [after, hf]
  · rw [registerAll_eq_error_iff]
    constructor
    · rintro ⟨before, f, rest, hfs, hbefore, hf⟩
      exact ⟨before, f, rest, hfs, hbefore, signatures_of_registerAll hbefore,
        register_eq_error_iff.mp hf⟩
    · rintro ⟨before, f, rest, hfs, hbefore, -, htaken⟩
      exact ⟨before, f, rest, hfs, hbefore, register_eq_error_iff.mpr htaken⟩
  · rw [size, hsignatures]
  · exact hbuilt ▸ distinct_afterEach (start ++ requests)

/-- Functions of a museum, to register behind the standard ones: one whose name is taken, and three
of which the second has a name that is taken. -/
def museumRequests : List Registration :=
  [.one (.ofParameters "LENGTH" .string [.any] .text),
    .all [.ofParameters "hall" .string [.text] .text, .ofParameters "Geo.Distance" .spatial [] .any,
      .ofParameters "wing" .string [.text] .text]]

/-- The theorem at functions that are registered behind the standard ones. -/
theorem standard_functions_stay :
    ∃ c, (empty.afterEach [.all standardFunctions]).afterEach museumRequests = c ∧
      c.get? "Length" = some (.ofParameters "length" .string [.text] .numeric) ∧
      c.get? "HALL" = some (.ofParameters "hall" .string [.text] .text) ∧
      c.get? "wing" = none ∧ c.size = standardFunctions.length + 1 := by
  obtain ⟨hget, hkeep, -, -, -, hsize, -⟩ :=
    first_registered_stays [.all standardFunctions] museumRequests _ rfl
  refine ⟨_, rfl, hkeep "Length" _ (by decide +kernel), ?_, ?_, ?_⟩
  · rw [hget "hall" "HALL" (by decide)]
    decide +kernel
  · rw [hget "wing" "wing" (by decide)]
    decide +kernel
  · rw [hsize]
    decide +kernel

end SensorQuery.Catalog
