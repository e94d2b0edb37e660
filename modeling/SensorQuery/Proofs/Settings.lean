import SensorQuery.Proofs.Model.Declared
import SensorQuery.Settings

/-!
# Settings that pass their check

What the check of settings finds is what the later passes need, up to one thing: that no extension
is named twice is not for the check to say but for the building of the model, which applies every
extension once.
-/

namespace SensorQuery

open Builder Fallible

/-! ### The models of the extensions -/

namespace Sensing

/-- The core makes a model by itself. -/
theorem exists_model_core (keyKind : KeyKind) :
    ∃ model, build [core keyKind] = .ok model ∧ model.extensions = [coreName] := by
  apply map_eq_ok.mp
  cases keyKind <;> decide +kernel

/-- The core makes a model with the further extension. -/
theorem exists_model_multi (keyKind : KeyKind) :
    ∃ model, build [core keyKind, multi keyKind] = .ok model ∧
      model.extensions = [coreName, multiName] := by
  apply map_eq_ok.mp
  cases keyKind <;> decide +kernel

private theorem build_multi_again (keyKind : KeyKind) (rest : List Declaration) :
    build (core keyKind :: multi keyKind :: multi keyKind :: rest) =
      .error (.duplicateExtension multiName) := by
  obtain ⟨model, hmodel, -⟩ := exists_model_multi keyKind
  obtain ⟨b, hb, -⟩ := build_eq_ok_iff.mp hmodel
  exact build_again hb (List.mem_cons_of_mem _ (List.mem_singleton_self _)) rest

/-- The further extension can be applied to the core once and no more. -/
theorem build_core_multi (keyKind : KeyKind) (n : Nat) :
    (n ≤ 1 ∧ ∃ model, build (core keyKind :: List.replicate n (multi keyKind)) = .ok model ∧
        model.extensions = coreName :: List.replicate n multiName) ∨
      (1 < n ∧ build (core keyKind :: List.replicate n (multi keyKind)) =
        .error (.duplicateExtension multiName)) := by
  rcases n with _ | _ | n
  · exact .inl ⟨Nat.zero_le 1, exists_model_core keyKind⟩
  · exact .inl ⟨Nat.le_refl 1, exists_model_multi keyKind⟩
  · exact .inr ⟨by omega, build_multi_again keyKind _⟩

end Sensing

/-! ### The check -/

namespace Settings

variable {s : Settings} {keyKind : KeyKind} {name : String} {extension : Declaration}

private theorem extension?_eq_some_iff : extension? keyKind name = some extension ↔
    name = Sensing.multiName ∧ extension = Sensing.multi keyKind := by
  unfold extension?
  split
  · exact ⟨fun h ↦ ⟨rfl, (Option.some.inj h).symm⟩, fun h ↦ h.2 ▸ rfl⟩
  · next hother => exact iff_of_false nofun fun h ↦ hother h.1

/-- Settings pass if they have a service root, speak a version, have limits that agree and name only
extensions that are known. -/
theorem check_eq_ok_iff : s.check = .ok () ↔
    Text.trim s.serviceRoot.toList ≠ [] ∧ (∃ v, Version.parse s.version = .ok v) ∧
      s.limits.topDefault ≤ s.limits.topMax ∧ s.extensions ⊆ knownExtensions := by
  have hknown : (s.extensions.find? fun name ↦ !knownExtensions.contains name) = none ↔
      s.extensions ⊆ knownExtensions := by
    simp [List.find?_eq_none, List.subset_def]
  rw [← hknown, check]
  simp only [List.isEmpty_iff, ← UInt64.not_le]
  by_cases hroot : Text.trim s.serviceRoot.toList = []
  · simp [hroot]
  · rcases Version.parse s.version with e | v
    · simp [hroot]
    · by_cases hlimits : s.limits.topDefault ≤ s.limits.topMax
      · rcases s.extensions.find? fun name ↦ !knownExtensions.contains name with _ | name
        · simp [hroot, hlimits]
        · simp [hroot, hlimits]
      · simp [hroot, hlimits]

/-! ### The model -/

/-- Applying extensions that there are is declaring them in order. -/
theorem foldlM_extended_bind {names : List String} {steps : List Declaration}
    (h : names.map (extension? keyKind) = steps.map some) (b : Builder)
    {f : Builder → Except SettingsError Registry} :
    (names.foldlM (extended keyKind) b >>= f) =
      match b.declareAll steps with
      | (more, none) => f more
      | (_, some e) => .error (.model e) := by
  induction names generalizing b steps with
  | nil =>
    obtain rfl : steps = [] := by simpa using h.symm
    rfl
  | cons name names ih =>
    cases steps with
    | nil => cases h
    | cons step steps =>
      obtain ⟨hname, hnames⟩ := List.cons.inj h
      rw [List.foldlM_cons, extended, hname, declareAll]
      simp only [declared]
      rcases b.declare step with ⟨more, _ | e⟩
      · exact ih hnames more
      · rfl

/-- Settings that name extensions that there are have the model that these make with the core. -/
theorem model_eq_build {steps : List Declaration}
    (h : s.extensions.map (extension? s.keyKind) = steps.map some) :
    s.model = (build (Sensing.core s.keyKind :: steps)).mapError .model := by
  rw [model, declared, build, declareAll]
  rcases Builder.empty.declare (Sensing.core s.keyKind) with ⟨core, _ | e⟩
  · refine (foldlM_extended_bind h core).trans ?_
    rcases hsteps : core.declareAll steps with ⟨more, _ | e⟩
    · simp only [hsteps]
    · simp only [hsteps]
      rfl
  · rfl

private theorem model_eq_ok_iff_of_eq {x : Except ModelError Registry} {model : Registry}
    (h : s.model = x.mapError .model) : s.model = .ok model ↔ x = .ok model := by
  rw [h]
  cases x with
  | ok a => simp [Except.mapError]
  | error e => simp [Except.mapError]

/-- Settings that pass name the one extension that is known, some number of times, and the model
comes of applying it as often: what is known there is known here. -/
theorem model_of_check (h : s.check = .ok ()) :
    ∃ n, s.extensions = List.replicate n Sensing.multiName ∧
      s.model =
        (build (Sensing.core s.keyKind :: List.replicate n (Sensing.multi s.keyKind))).mapError
          .model := by
  obtain ⟨-, -, -, hknown⟩ := check_eq_ok_iff.mp h
  have hnames : s.extensions = List.replicate s.extensions.length Sensing.multiName :=
    List.eq_replicate_iff.mpr ⟨rfl, fun name hname ↦ List.mem_singleton.mp (hknown hname)⟩
  refine ⟨s.extensions.length, hnames, model_eq_build ?_⟩
  rw [hnames, List.map_replicate, List.map_replicate, List.length_replicate]
  rfl

/-- Settings that pass have a model if they name no extension twice, and if they do, the extension
is refused when it is applied again. -/
theorem model_cases_of_check (h : s.check = .ok ()) :
    (s.extensions.Nodup ∧
        ∃ model, s.model = .ok model ∧ model.extensions = Sensing.coreName :: s.extensions) ∨
      (¬ s.extensions.Nodup ∧
        s.model = .error (.model (.duplicateExtension Sensing.multiName))) := by
  obtain ⟨n, hextensions, hmodel⟩ := model_of_check h
  rw [hextensions, List.nodup_replicate, hmodel]
  rcases Sensing.build_core_multi s.keyKind n with ⟨hn, model, hbuild, hlists⟩ | ⟨hn, hbuild⟩
  · exact .inl ⟨hn, model, by rw [hbuild]; rfl, hlists⟩
  · exact .inr ⟨Nat.not_le.mpr hn, by rw [hbuild]; rfl⟩

/-- The model has every type of every extension that the settings name. -/
theorem exists_type_of_model {model : Registry} (hcheck : s.check = .ok ())
    (h : s.model = .ok model)
    (hname : name ∈ s.extensions) (hextension : extension? s.keyKind name = some extension)
    {d : EntityDeclaration} (hd : d ∈ extension.entityTypes) :
    ∃ t, model.entityType? d.name = some t ∧ model.entitySet? d.plural = some t ∧
      t.Renders d := by
  obtain ⟨n, hextensions, hmodel⟩ := model_of_check hcheck
  obtain ⟨-, rfl⟩ := extension?_eq_some_iff.mp hextension
  have hn : n ≠ 0 := by
    rintro rfl
    rw [hextensions] at hname
    cases hname
  have hmem : Sensing.multi s.keyKind ∈
      Sensing.core s.keyKind :: List.replicate n (Sensing.multi s.keyKind) :=
    List.mem_cons_of_mem _ (List.mem_replicate.mpr ⟨hn, rfl⟩)
  exact exists_type_of_build ((model_eq_ok_iff_of_eq hmodel).mp h)
    (Declaration.mem_entityTypesOf.mpr ⟨_, hmem, hd⟩)

/-- Every extension declares types, all with keys of the kind that it is made with. -/
theorem entityTypes_of_extension? (h : extension? keyKind name = some extension) :
    extension.entityTypes ≠ [] ∧ ∀ d ∈ extension.entityTypes, d.keyKind = keyKind := by
  obtain ⟨-, rfl⟩ := extension?_eq_some_iff.mp h
  simp [Sensing.multi, Sensing.entity, Declaration.entityTypes, Declaration.entityTypesOf]

end Settings

/-- Settings that pass their check speak a version and have limits that agree, and building their
model meets no name that it does not know. They have a model exactly if they name no extension
twice, and then the model lists the core and the extensions in their order and has all types that
these declare, with keys of the kind that is set. An extension that is named twice is refused when
it is applied again. -/
theorem checked_settings_start_iff_distinct (s : Settings) (h : s.check = .ok ()) :
    (∃ v, Version.parse s.version = .ok v) ∧
      s.limits.topDefault ≤ s.limits.topMax ∧
      (∀ name, s.model ≠ .error (.unknownExtension name)) ∧
      ((∃ model, s.model = .ok model) ↔ s.extensions.Nodup) ∧
      (¬ s.extensions.Nodup →
        ∃ name, 2 ≤ s.extensions.count name ∧
          s.model = .error (.model (.duplicateExtension name))) ∧
      ∀ model, s.model = .ok model →
        model.extensions = Sensing.coreName :: s.extensions ∧
        ∀ name ∈ s.extensions, ∃ extension, Settings.extension? s.keyKind name = some extension ∧
          extension.entityTypes ≠ [] ∧
          ∀ d ∈ extension.entityTypes, d.keyKind = s.keyKind ∧
            ∃ t, model.entityType? d.name = some t ∧ model.entitySet? d.plural = some t ∧
              t.Renders d := by
  obtain ⟨-, hversion, hlimits, hknown⟩ := Settings.check_eq_ok_iff.mp h
  refine ⟨hversion, hlimits, ?_⟩
  rcases Settings.model_cases_of_check h with ⟨hnodup, model, hmodel, hlists⟩ | ⟨hnodup, hmodel⟩
  · refine ⟨by simp [hmodel], iff_of_true ⟨model, hmodel⟩ hnodup, fun hnot ↦ absurd hnodup hnot, ?_⟩
    rintro _ hother
    obtain rfl : model = _ := Except.ok.inj (hmodel.symm.trans hother)
    refine ⟨hlists, fun name hname ↦ ?_⟩
    have hextension : Settings.extension? s.keyKind name = some (Sensing.multi s.keyKind) :=
      Settings.extension?_eq_some_iff.mpr ⟨List.mem_singleton.mp (hknown hname), rfl⟩
    obtain ⟨hsome, hkeys⟩ := Settings.entityTypes_of_extension? hextension
    exact ⟨_, hextension, hsome, fun d hd ↦
      ⟨hkeys d hd, Settings.exists_type_of_model h hmodel hname hextension hd⟩⟩
  · refine ⟨by simp [hmodel], iff_of_false (by simp [hmodel]) hnodup, fun _ ↦ ⟨_, ?_, hmodel⟩,
      by simp [hmodel]⟩
    obtain ⟨n, hextensions, -⟩ := Settings.model_of_check h
    rw [hextensions, List.nodup_replicate] at hnodup
    rw [hextensions, List.count_replicate_self]
    omega

/-- Settings for keys that are UUIDs, with the extension named a number of times. -/
def Settings.streaming (times : Nat) : Settings :=
  { Settings.usual with
    keyKind := .uuid
    extensions := List.replicate times Sensing.multiName }

/-- The theorem at settings that name the extension once. -/
theorem streaming_settings_start :
    (Settings.streaming 1).check = .ok () ∧
      ∃ model t, (Settings.streaming 1).model = .ok model ∧
        model.entityType? "MultiDatastream" = some t ∧
        model.entitySet? "MultiDatastreams" = some t ∧ t.keyKind = .uuid := by
  have hcheck : (Settings.streaming 1).check = .ok () := by rfl
  obtain ⟨-, -, -, hstart, -, hall⟩ := checked_settings_start_iff_distinct _ hcheck
  obtain ⟨model, hmodel⟩ := hstart.mpr (List.nodup_singleton _)
  obtain ⟨-, hall⟩ := hall model hmodel
  obtain ⟨_, hextension, -, htypes⟩ := hall Sensing.multiName (List.mem_singleton_self _)
  obtain ⟨-, rfl⟩ := Settings.extension?_eq_some_iff.mp hextension
  obtain ⟨-, t, hname, hplural, hrenders⟩ := htypes _ List.mem_cons_self
  exact ⟨hcheck, model, t, hmodel, hname, hplural, hrenders.keyKind⟩

/-- Not all settings that pass have a model: the check lets an extension be named twice. -/
theorem streaming_settings_stop :
    ¬ ∀ s : Settings, s.check = .ok () → ∃ model, s.model = .ok model := by
  intro h
  obtain ⟨model, hmodel⟩ := h (Settings.streaming 2) (by rfl)
  have hmodel' : (Settings.streaming 2).model =
      .error (.model (.duplicateExtension Sensing.multiName)) := by
    have hsteps : (Settings.streaming 2).extensions.map (Settings.extension? .uuid) =
        (List.replicate 2 (Sensing.multi .uuid)).map some := rfl
    rw [Settings.model_eq_build hsteps]
    exact congrArg (Except.mapError _) (Sensing.build_multi_again .uuid [])
  rw [hmodel'] at hmodel
  cases hmodel

end SensorQuery
