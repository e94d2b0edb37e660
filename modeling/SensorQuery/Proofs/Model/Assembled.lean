import Mathlib.Data.List.Induction
import SensorQuery.Proofs.Model.Finalized

/-!
# What declarations come to

The passes that make a registry fail at the first declaration that does not fit, while the types
that they work on grow. What they come to does not hang on their order: they succeed exactly on
declarations that are consistent (`Builder.Consistent`), and then every type has its key, its own
properties, the properties that are added to it and its sides of links (`Builder.typeOf`). Both
are written down apart from the passes.
-/

namespace SensorQuery

open Fallible

namespace Link

/-- A link of a type to itself under one name is its own inverse, and so one property. -/
def IsSymmetric (l : Link) : Prop :=
  l.source.entityType = l.target.entityType ∧ l.source.property = l.target.property

instance (l : Link) : Decidable l.IsSymmetric := inferInstanceAs (Decidable (_ ∧ _))

/-- The sides of the link that make a property. -/
def ends (l : Link) : List LinkEnd := if l.IsSymmetric then [l.source] else [l.source, l.target]

/-- The properties of the sides, each with the name of the type that has it. -/
def properties (idOf : String → Nat) (l : Link) : List (String × Property) :=
  (l.source.entityType,
      .navigation (Builder.navigation l.source l.target (idOf l.target.entityType))) ::
    if l.IsSymmetric then []
    else [(l.target.entityType,
      .navigation (Builder.navigation l.target l.source (idOf l.source.entityType)))]

end Link

namespace Builder

/-- An entity type is declared under the name. -/
def Declared (b : Builder) (name : String) : Prop := ∃ d ∈ b.types, d.name = name

/-- The names of all properties of a declared type: those of its key and its own properties, of the
properties that are added to it and of the sides of links at it. -/
def namesOn (b : Builder) (d : EntityDeclaration) : List String :=
  d.primaryKey :: d.properties.map (·.name) ++
    (b.properties.filter (·.1 = d.name)).map (·.2.name) ++
    ((b.links.flatMap Link.ends).filter (·.entityType = d.name)).map (·.property)

/-- The declarations fit together, in whatever order they stand. -/
structure Consistent (b : Builder) : Prop where
  /-- Properties are added to declared types. -/
  owners : ∀ p ∈ b.properties, b.Declared p.1
  /-- Links are between declared types. -/
  ends : ∀ l ∈ b.links, b.Declared l.source.entityType ∧ b.Declared l.target.entityType
  /-- No two properties of a type have one name. -/
  names : ∀ d ∈ b.types, (b.namesOn d).Nodup
  /-- The innermost type of a property is declared, if it is complex. -/
  complexTypes : ∀ p, (∃ d ∈ b.types, p ∈ d.properties) ∨ (∃ owner, (owner, p) ∈ b.properties) →
    ∀ name, p.valueType.innermost = .complex name → ∃ c ∈ b.complexTypes, c.name = name

/-- The id of the type of the name: the position of its declaration. -/
def typeId (b : Builder) (name : String) : Nat := b.types.findIdx (·.name = name)

/-- All properties that are added to types, in order: those added one by one, and the links. -/
def additions (b : Builder) : List (String × Property) :=
  b.properties.map (fun p ↦ (p.1, .entity p.2)) ++ b.links.flatMap (Link.properties b.typeId)

/-- The additions to the type of the name. -/
def addedTo (additions : List (String × Property)) (name : String) : List Property :=
  (additions.filter (·.1 = name)).map (·.2)

/-- The type with the additions to it. -/
def withAdditions (additions : List (String × Property)) (t : EntityType) : EntityType :=
  t.pushAll (addedTo additions t.name)

/-- The type with its key and its own properties. -/
def ownType (id : Nat) (d : EntityDeclaration) : EntityType :=
  (EntityType.bare id d.name d.plural d.primaryKey d.keyKind).pushAll
    (.entity ⟨d.primaryKey, .id, false⟩ :: d.properties.map Property.entity)

/-- What a declared type comes to. -/
def typeOf (b : Builder) (d : EntityDeclaration) : EntityType :=
  withAdditions b.additions (ownType (b.typeId d.name) d)

/-- The types with their own properties, numbered in the order of their declaration. -/
def ownTable (ds : List EntityDeclaration) : EntityTable :=
  ds.foldl (fun table d ↦ table.insert (ownType table.types.length d)) .empty

/-- The table with the additions to all types. -/
def tableWith (additions : List (String × Property)) (table : EntityTable) : EntityTable :=
  table.withTypes (table.types.map (withAdditions additions))
    (by simp [withAdditions, Function.comp_def]) (by simp [withAdditions, Function.comp_def])

/-- What the declarations come to. -/
def registry (b : Builder) : Registry :=
  .ofTable (tableWith b.additions (ownTable b.types)) b.complexTypes b.extensions

/-- No two properties of the type have one name. -/
def DistinctNames (t : EntityType) : Prop := (t.properties.map Property.name).Nodup

variable {t t' : EntityType} {table table' : EntityTable} {p : Property} {owner : String} {id : Nat}

/-! ### Own properties -/

private theorem checkNew_eq_ok_iff {name : String} :
    checkNew t name = .ok () ↔ name ∉ t.properties.map Property.name := by
  rw [← t.indexed.contains_iff, checkNew, EntityType.hasProperty]
  split
  · next h => exact iff_of_false nofun (not_not_intro h)
  · next h => exact iff_of_true rfl h

private theorem withProperty_eq_ok_iff : withProperty t p = .ok t' ↔
    p.name ∉ t.properties.map Property.name ∧ t' = t.push p := by
  rw [withProperty, check_bind_eq_ok, checkNew_eq_ok_iff, pure_eq_ok]

private theorem distinctNames_push (ht : DistinctNames t) :
    DistinctNames (t.push p) ↔ p.name ∉ t.properties.map Property.name := by
  rw [DistinctNames, EntityType.properties_push, List.map_append, List.map_singleton,
    ← List.concat_eq_append, List.nodup_concat]
  exact and_iff_left ht

private theorem DistinctNames.of_pushAll {ps : List Property} (h : DistinctNames (t.pushAll ps)) :
    DistinctNames t := by
  rw [DistinctNames, EntityType.properties_pushAll, List.map_append] at h
  exact h.of_append_left

private theorem foldlM_withProperty {ps : List Property} (ht : DistinctNames t) :
    ps.foldlM withProperty t = .ok t' ↔ DistinctNames (t.pushAll ps) ∧ t' = t.pushAll ps := by
  induction ps generalizing t with
  | nil => simpa [pure, Except.pure, EntityType.pushAll, eq_comm] using fun _ ↦ ht
  | cons p ps ih =>
    simp only [List.foldlM_cons, bind_eq_ok, withProperty_eq_ok_iff, ← distinctNames_push ht]
    constructor
    · rintro ⟨_, ⟨hfirst, rfl⟩, h⟩
      exact (ih hfirst).mp h
    · intro h
      have hall : DistinctNames ((t.push p).pushAll ps) := h.1
      have hfirst : DistinctNames (t.push p) := hall.of_pushAll
      exact ⟨_, ⟨hfirst, rfl⟩, (ih hfirst).mpr h⟩

private theorem entityTypeOf_eq_ok_iff {d : EntityDeclaration} :
    entityTypeOf id d = .ok t ↔ DistinctNames (ownType id d) ∧ t = ownType id d := by
  have hbare : DistinctNames (.bare id d.name d.plural d.primaryKey d.keyKind) := List.nodup_nil
  rw [ownType, ← foldlM_withProperty hbare, ← List.map_cons, List.foldlM_map]
  rfl

-- No two properties of the declaration have one name.
private def DistinctOwn (d : EntityDeclaration) : Prop :=
  (d.primaryKey :: d.properties.map (·.name)).Nodup

private theorem distinctNames_ownType {d : EntityDeclaration} :
    DistinctNames (ownType id d) ↔ DistinctOwn d := by
  rw [DistinctNames, ownType, EntityType.properties_pushAll, DistinctOwn, List.map_append,
    List.map_cons, List.map_map]
  rfl

private theorem foldlM_register {ds : List EntityDeclaration} :
    ds.foldlM register .empty = .ok table ↔
      (∀ d ∈ ds, DistinctOwn d) ∧ table = ownTable ds := by
  refine foldlM_eq_ok_iff fun table d table' ↦ ?_
  simp only [register, bind_eq_ok, entityTypeOf_eq_ok_iff, distinctNames_ownType, pure_eq_ok]
  constructor
  · rintro ⟨_, ⟨hdistinct, rfl⟩, htable⟩
    exact ⟨hdistinct, htable⟩
  · rintro ⟨hdistinct, htable⟩
    exact ⟨_, ⟨hdistinct, rfl⟩, htable⟩

/-- Each type has its position for its id. -/
theorem types_ownTable (ds : List EntityDeclaration) : (ownTable ds).types = ds.mapIdx ownType := by
  induction ds using List.reverseRecOn with
  | nil => rfl
  | append_singleton ds d ih =>
    have hlength : (ownTable ds).types.length = ds.length := by rw [ih, List.length_mapIdx]
    rw [ownTable, List.foldl_append, ← ownTable, List.foldl_cons, List.foldl_nil,
      EntityTable.types_insert, hlength, ih, List.mapIdx_concat]

/-! ### Additions -/

private theorem addedTo_append (as bs : List (String × Property)) (name : String) :
    addedTo (as ++ bs) name = addedTo as name ++ addedTo bs name := by
  simp [addedTo]

/-- The additions to a type are those under its name. -/
theorem mem_addedTo {as : List (String × Property)} {name : String} :
    p ∈ addedTo as name ↔ (name, p) ∈ as := by
  simp [addedTo]

/-- Nothing is added. -/
@[simp] theorem withAdditions_nil (t : EntityType) : withAdditions [] t = t := rfl

/-- Additions keep the name of a type. -/
@[simp] theorem name_withAdditions (as : List (String × Property)) (t : EntityType) :
    (withAdditions as t).name = t.name := EntityType.name_pushAll t _

private theorem withAdditions_withAdditions (as bs : List (String × Property)) (t : EntityType) :
    withAdditions bs (withAdditions as t) = withAdditions (as ++ bs) t := by
  rw [withAdditions, name_withAdditions, withAdditions, withAdditions, addedTo_append,
    EntityType.pushAll_append]

private theorem withAdditions_singleton_of_ne (h : t.name ≠ owner) :
    withAdditions [(owner, p)] t = t := by
  rw [withAdditions, addedTo, List.filter_cons_of_neg (by simpa using Ne.symm h)]
  rfl

private theorem withAdditions_singleton_of_eq (h : t.name = owner) :
    withAdditions [(owner, p)] t = t.push p := by
  rw [withAdditions, addedTo, List.filter_cons_of_pos (by simpa using h.symm)]
  rfl

private theorem DistinctNames.of_append {as bs : List (String × Property)}
    (h : DistinctNames (withAdditions (as ++ bs) t)) : DistinctNames (withAdditions as t) := by
  rw [← withAdditions_withAdditions] at h
  exact h.of_pushAll

/-- The types of a table with additions are its types with them. -/
@[simp] theorem types_tableWith (as : List (String × Property)) (table : EntityTable) :
    (tableWith as table).types = table.types.map (withAdditions as) := rfl

private theorem tableWith_nil : tableWith [] table = table := by
  have htypes : table.types.map (withAdditions []) = table.types := List.map_id table.types
  exact EntityTable.ext htypes rfl rfl

private theorem tableWith_tableWith (as bs : List (String × Property)) :
    tableWith bs (tableWith as table) = tableWith (as ++ bs) table := by
  have htypes : (table.types.map (withAdditions as)).map (withAdditions bs) =
      table.types.map (withAdditions (as ++ bs)) := by
    rw [List.map_map]
    exact List.map_congr_left fun t _ ↦ withAdditions_withAdditions as bs t
  exact EntityTable.ext htypes rfl rfl

private theorem idOf_eq_ok : idOf table owner = .ok id ↔ table.byName.get? owner = some id := by
  unfold idOf
  split
  · next h => simp [h]
  · next h => simp [h]

private theorem idOf_eq_ok_iff (hnames : (table.types.map EntityType.name).Nodup) :
    idOf table owner = .ok id ↔ ∃ t, table.types[id]? = some t ∧ t.name = owner := by
  rw [idOf_eq_ok, table.named.get?_eq_some_iff_exists hnames]

private theorem addProperty_eq_ok_iff (ht : table.types[id]? = some t) :
    addProperty table id p = .ok table' ↔
      p.name ∉ t.properties.map Property.name ∧ table' = table.push id p := by
  simp only [addProperty, ht, check_bind_eq_ok, checkNew_eq_ok_iff, pure_eq_ok]

private theorem push_eq_tableWith (hnames : (table.types.map EntityType.name).Nodup)
    (ht : table.types[id]? = some t) : table.push id p = tableWith [(t.name, p)] table := by
  refine EntityTable.ext (List.ext_getElem? fun i ↦ ?_) rfl rfl
  rw [EntityTable.types_push, types_tableWith, List.getElem?_modify, List.getElem?_map]
  by_cases hi : id = i
  · subst hi
    simp [ht, withAdditions_singleton_of_eq]
  · cases hu : table.types[i]? with
    | none => rfl
    | some u =>
      have hne : u.name ≠ t.name := by
        intro hsame
        have hplace := (List.getElem?_inj (i := id) (j := i) (by
          simpa using (List.getElem?_eq_some_iff.mp ht).1) hnames).mp (by simp [ht, hu, hsame])
        exact hi hplace
      simp [hi, withAdditions_singleton_of_ne hne]

private theorem addOwned_eq_ok_iff (hnames : (table.types.map EntityType.name).Nodup)
    (hdistinct : ∀ t ∈ table.types, DistinctNames t) : addOwned table owner p = .ok table' ↔
      ((∃ t ∈ table.types, t.name = owner) ∧
        ∀ t ∈ table.types, DistinctNames (withAdditions [(owner, p)] t)) ∧
      table' = tableWith [(owner, p)] table := by
  have hfits {t : EntityType} (ht : t ∈ table.types) (hname : t.name = owner) :
      (∀ u ∈ table.types, DistinctNames (withAdditions [(owner, p)] u)) ↔
        p.name ∉ t.properties.map Property.name := by
    rw [← distinctNames_push (hdistinct t ht), ← withAdditions_singleton_of_eq hname]
    refine ⟨fun h ↦ h t ht, fun h u hu ↦ ?_⟩
    by_cases hsame : u.name = owner
    · rwa [List.inj_on_of_nodup_map hnames hu ht (hsame.trans hname.symm)]
    · rw [withAdditions_singleton_of_ne hsame]
      exact hdistinct u hu
  simp only [addOwned, bind_eq_ok, idOf_eq_ok_iff hnames]
  constructor
  · rintro ⟨id, ⟨t, ht, rfl⟩, h⟩
    obtain ⟨hnew, rfl⟩ := (addProperty_eq_ok_iff ht).mp h
    have hmem := List.mem_of_getElem? ht
    exact ⟨⟨⟨t, hmem, rfl⟩, (hfits hmem rfl).mpr hnew⟩, push_eq_tableWith hnames ht⟩
  · rintro ⟨⟨⟨t, hmem, rfl⟩, hall⟩, rfl⟩
    obtain ⟨id, ht⟩ := List.getElem?_of_mem hmem
    exact ⟨id, ⟨t, ht, rfl⟩, (addProperty_eq_ok_iff ht).mpr
      ⟨(hfits hmem rfl).mp hall, (push_eq_tableWith hnames ht).symm⟩⟩

-- Additions are made one after the other if each has a type and all names are distinct.
private theorem foldlM_addOwned {as : List (String × Property)}
    (hnames : (table.types.map EntityType.name).Nodup)
    (hdistinct : ∀ t ∈ table.types, DistinctNames t) :
    as.foldlM (fun table a ↦ addOwned table a.1 a.2) table = .ok table' ↔
      ((∀ a ∈ as, ∃ t ∈ table.types, t.name = a.1) ∧
        ∀ t ∈ table.types, DistinctNames (withAdditions as t)) ∧ table' = tableWith as table := by
  induction as generalizing table with
  | nil =>
    rw [tableWith_nil]
    simpa [pure_eq_ok] using fun _ ↦ hdistinct
  | cons a as ih =>
    have hmore (t : EntityType) :
        withAdditions as (withAdditions [a] t) = withAdditions (a :: as) t :=
      withAdditions_withAdditions _ _ t
    have hnames' : ((tableWith [a] table).types.map EntityType.name).Nodup := by
      simpa [Function.comp_def] using hnames
    simp only [List.foldlM_cons, bind_eq_ok, addOwned_eq_ok_iff hnames hdistinct,
      List.forall_mem_cons]
    constructor
    · rintro ⟨_, ⟨⟨howner, hfirst⟩, rfl⟩, h⟩
      rw [ih hnames' (List.forall_mem_map.mpr hfirst), tableWith_tableWith] at h
      simpa [hmore, howner] using h
    · rintro ⟨⟨⟨howner, howners⟩, hall⟩, rfl⟩
      have hfirst : ∀ t ∈ table.types, DistinctNames (withAdditions [a] t) := fun t ht ↦
        DistinctNames.of_append (hall t ht : DistinctNames (withAdditions ([a] ++ as) t))
      refine ⟨_, ⟨⟨howner, hfirst⟩, rfl⟩, (ih hnames' (List.forall_mem_map.mpr hfirst)).mpr ?_⟩
      rw [tableWith_tableWith]
      simpa [hmore] using ⟨fun o q ↦ howners (o, q), hall⟩

/-! ### Links -/

private theorem byName_of_addProperty (h : addProperty table id p = .ok table') :
    table'.byName = table.byName := by
  unfold addProperty at h
  split at h
  · obtain ⟨-, h⟩ := check_bind_eq_ok.mp h
    rw [pure_eq_ok.mp h]
    rfl
  · rw [← Except.ok.inj h]

private theorem eq_of_get? {name : String} (h : table.byName.get? owner = some id)
    (h' : table.byName.get? name = some id) : owner = name :=
  Option.some.inj ((table.named.sound owner id h).symm.trans (table.named.sound name id h'))

-- One type has one id, so a link is symmetric if the ids of its ends and their names are the same.
private theorem same_ids_iff_isSymmetric {l : Link} {source target : Nat}
    (hsource : table.byName.get? l.source.entityType = some source)
    (htarget : table.byName.get? l.target.entityType = some target) :
    (source = target ∧ l.source.property = l.target.property) ↔ l.IsSymmetric := by
  refine and_congr_left fun _ ↦ ⟨?_, fun hsame ↦ ?_⟩
  · rintro rfl
    exact eq_of_get? hsource htarget
  · exact Option.some.inj (hsource.symm.trans (hsame ▸ htarget))

-- A link is added if the properties of its sides are, which finds the types of both.
private theorem addLink_eq_ok_iff {l : Link} {typeId : String → Nat}
    (hids : ∀ name i, table.byName.get? name = some i → typeId name = i) :
    addLink table l = .ok table' ↔
      (l.properties typeId).foldlM (fun table a ↦ addOwned table a.1 a.2) table = .ok table' := by
  simp only [addLink, Link.properties, List.foldlM_cons, addOwned, bind_eq_ok, idOf_eq_ok]
  constructor
  · rintro ⟨source, hsource, target, htarget, mid, hmid, h⟩
    rw [hids _ _ hsource, hids _ _ htarget]
    refine ⟨mid, ⟨source, hsource, hmid⟩, ?_⟩
    by_cases hsame : l.IsSymmetric
    · rw [if_pos ((same_ids_iff_isSymmetric hsource htarget).mpr hsame)] at h
      rwa [if_pos hsame]
    · rw [if_neg (mt (same_ids_iff_isSymmetric hsource htarget).mp hsame)] at h
      have htarget' : mid.byName.get? l.target.entityType = some target :=
        byName_of_addProperty hmid ▸ htarget
      simp only [if_neg hsame, List.foldlM_cons, List.foldlM_nil, bind_eq_ok, idOf_eq_ok]
      exact ⟨table', ⟨target, htarget', h⟩, rfl⟩
  · rintro ⟨mid, ⟨source, hsource, hmid⟩, h⟩
    rw [hids _ _ hsource] at h
    by_cases hsame : l.IsSymmetric
    · have htarget : table.byName.get? l.target.entityType = some source := hsame.1 ▸ hsource
      rw [if_pos hsame] at h
      rw [hids _ _ htarget] at hmid
      refine ⟨source, hsource, source, htarget, mid, hmid, ?_⟩
      rwa [if_pos ((same_ids_iff_isSymmetric hsource htarget).mpr hsame)]
    · simp only [if_neg hsame, List.foldlM_cons, List.foldlM_nil, bind_eq_ok, idOf_eq_ok] at h
      obtain ⟨_, ⟨target, htarget', h⟩, ⟨⟩⟩ := h
      have htarget : table.byName.get? l.target.entityType = some target :=
        byName_of_addProperty hmid ▸ htarget'
      rw [hids _ _ htarget] at hmid
      refine ⟨source, hsource, target, htarget, mid, hmid, ?_⟩
      rwa [if_neg (mt (same_ids_iff_isSymmetric hsource htarget).mp hsame)]

private theorem byName_of_foldlM_addOwned {as : List (String × Property)}
    (h : as.foldlM (fun table a ↦ addOwned table a.1 a.2) table = .ok table') :
    table'.byName = table.byName := by
  refine foldlM_keeps (P := fun mid ↦ mid.byName = table.byName) (fun mid a mid' _ hmid hstep ↦ ?_)
    rfl h
  obtain ⟨id, -, hstep⟩ := bind_eq_ok.mp hstep
  rw [byName_of_addProperty hstep, hmid]

private theorem foldlM_addLink {links : List Link} {typeId : String → Nat}
    (hids : ∀ name i, table.byName.get? name = some i → typeId name = i) :
    links.foldlM addLink table = .ok table' ↔
      (links.flatMap (Link.properties typeId)).foldlM (fun table a ↦ addOwned table a.1 a.2) table =
        .ok table' := by
  induction links generalizing table with
  | nil => rfl
  | cons l links ih =>
    simp only [List.foldlM_cons, List.flatMap_cons, List.foldlM_append, bind_eq_ok,
      addLink_eq_ok_iff hids]
    refine exists_congr fun mid ↦ and_congr_right fun hmid ↦ ih ?_
    rwa [byName_of_foldlM_addOwned hmid]

/-! ### Names and complex types -/

variable {b : Builder} {model : Registry} {d : EntityDeclaration}

/-- The type has the declared name. -/
@[simp] theorem name_ownType : (ownType id d).name = d.name := EntityType.name_pushAll _ _

/-- The type has the declared set name. -/
@[simp] theorem plural_ownType : (ownType id d).plural = d.plural := EntityType.plural_pushAll _ _

/-- The type has the declared name, whatever is added. -/
@[simp] theorem name_typeOf : (b.typeOf d).name = d.name := by simp [typeOf]

/-- The type has the declared set name, whatever is added. -/
@[simp] theorem plural_typeOf : (b.typeOf d).plural = d.plural := by simp [typeOf, withAdditions]

/-- The id of a type is that of its name. -/
@[simp] theorem id_typeOf : (b.typeOf d).id = b.typeId d.name := by
  simp [typeOf, withAdditions, ownType, EntityType.bare]

/-- The type has the declared name of the key. -/
@[simp] theorem primaryKey_typeOf : (b.typeOf d).primaryKey = d.primaryKey := by
  simp [typeOf, withAdditions, ownType, EntityType.bare]

/-- The type has the declared kind of key. -/
@[simp] theorem keyKind_typeOf : (b.typeOf d).keyKind = d.keyKind := by
  simp [typeOf, withAdditions, ownType, EntityType.bare]

/-- A declared type has its key, its own properties and what is added to it, in this order. -/
theorem properties_typeOf : (b.typeOf d).properties =
    .entity ⟨d.primaryKey, .id, false⟩ :: d.properties.map Property.entity ++
      addedTo b.additions d.name := by
  simp [typeOf, withAdditions, ownType, EntityType.bare]

private theorem names_addedTo_flatMap (typeId : String → Nat) (links : List Link) (name : String) :
    (addedTo (links.flatMap (Link.properties typeId)) name).map Property.name =
      ((links.flatMap Link.ends).filter (·.entityType = name)).map (·.property) := by
  induction links with
  | nil => rfl
  | cons l links ih =>
    have hlink : (addedTo (l.properties typeId) name).map Property.name =
        (l.ends.filter (·.entityType = name)).map (·.property) := by
      by_cases hsource : l.source.entityType = name <;>
        by_cases htarget : l.target.entityType = name <;>
          by_cases hsymmetric : l.IsSymmetric <;>
            simp [addedTo, Link.properties, Link.ends, Property.name, navigation, hsource, htarget,
              hsymmetric]
    simp only [List.flatMap_cons, addedTo_append, List.map_append, List.filter_append, hlink, ih]

/-- The properties of a declared type have its names. -/
theorem names_typeOf (b : Builder) (d : EntityDeclaration) :
    (b.typeOf d).properties.map Property.name = b.namesOn d := by
  have hadded : (addedTo (b.properties.map fun p ↦ (p.1, .entity p.2)) d.name).map Property.name =
      (b.properties.filter (·.1 = d.name)).map (·.2.name) := by
    simp [addedTo, List.filter_map, Function.comp_def, Property.name]
  rw [properties_typeOf, List.map_append]
  simp only [additions, addedTo_append, List.map_append, hadded, names_addedTo_flatMap, namesOn,
    List.append_assoc, List.map_cons, List.map_map]
  rfl

private theorem checkComplex_eq_ok_iff {complexTypes : List ComplexType} {v : EntityProperty} :
    checkComplex complexTypes owner v = .ok () ↔
      ∀ name, v.valueType.innermost = .complex name → ∃ c ∈ complexTypes, c.name = name := by
  unfold checkComplex
  split
  · next name h =>
    rw [h]
    split
    · next hany => exact iff_of_true rfl (by simpa using hany)
    · next hany => exact iff_of_false nofun (by simpa using hany)
  · next h => exact iff_of_true rfl fun name hname ↦ absurd hname (h name)

/-! ### All passes -/

/-- A property is added to a type by itself, or it is a side of a link. -/
theorem entity_mem_additions {v : EntityProperty} :
    (owner, .entity v) ∈ b.additions ↔ (owner, v) ∈ b.properties := by
  have hlinks : (owner, .entity v) ∉ b.links.flatMap (Link.properties b.typeId) := by
    rw [List.mem_flatMap]
    rintro ⟨l, -, hl⟩
    unfold Link.properties at hl
    split at hl <;> simp at hl
  simp [additions, hlinks]

/-- A declared type has its key as a value, and the values that are declared with it or added to
it. -/
theorem entity_mem_typeOf {v : EntityProperty} : .entity v ∈ (b.typeOf d).properties ↔
    v = ⟨d.primaryKey, .id, false⟩ ∨ v ∈ d.properties ∨ (d.name, v) ∈ b.properties := by
  rw [properties_typeOf, List.mem_append, mem_addedTo, entity_mem_additions, ← or_assoc]
  simp

/-- All additions have a type if all owners and all ends of links are declared. -/
theorem forall_additions_iff : (∀ a ∈ b.additions, b.Declared a.1) ↔
    (∀ p ∈ b.properties, b.Declared p.1) ∧
      ∀ l ∈ b.links, b.Declared l.source.entityType ∧ b.Declared l.target.entityType := by
  have hlink (l : Link) : (∀ a ∈ l.properties b.typeId, b.Declared a.1) ↔
      b.Declared l.source.entityType ∧ b.Declared l.target.entityType := by
    unfold Link.properties
    by_cases h : l.IsSymmetric
    · simp [h, h.1]
    · simp [h]
  simp only [additions, List.forall_mem_append, List.forall_mem_map, List.forall_mem_flatMap, hlink]

-- Where all owners are declared, the value properties of all types are those of declarations.
private theorem forall_entityProperties_iff (howners : ∀ p ∈ b.properties, b.Declared p.1)
    {P : EntityProperty → Prop} (hkey : ∀ name, P ⟨name, .id, false⟩) :
    (∀ d ∈ b.types, ∀ v ∈ (b.typeOf d).entityProperties, P v) ↔
      ∀ v, (∃ d ∈ b.types, v ∈ d.properties) ∨ (∃ owner, (owner, v) ∈ b.properties) → P v := by
  simp only [EntityType.mem_entityProperties, entity_mem_typeOf]
  constructor
  · rintro h v (⟨d, hd, hv⟩ | ⟨owner, hv⟩)
    · exact h d hd v (.inr (.inl hv))
    · obtain ⟨d, hd, rfl⟩ := howners _ hv
      exact h d hd v (.inr (.inr hv))
  · rintro h d hd v (rfl | hv | hv)
    · exact hkey d.primaryKey
    · exact h v (.inl ⟨d, hd, hv⟩)
    · exact h v (.inr ⟨d.name, hv⟩)

/-- The declaration at a position has the position for the id of its type. -/
theorem Distinct.typeId_eq (hb : b.Distinct) {i : Nat} (hd : b.types[i]? = some d) :
    b.typeId d.name = i := by
  obtain ⟨hi, rfl⟩ := List.getElem?_eq_some_iff.mp hd
  refine (List.findIdx_eq hi).mpr ⟨by simp, fun j hj ↦ ?_⟩
  have hne : b.types[j].name ≠ b.types[i].name := by
    have hapart := List.pairwise_iff_getElem.mp hb.names j i (by simpa using Nat.lt_trans hj hi)
      (by simpa using hi) hj
    simpa using hapart
  simpa using hne

/-- The types of the registry are what the declared types come to, each at the place of its id. -/
theorem Distinct.types_registry (hb : b.Distinct) : b.registry.types = b.types.map b.typeOf := by
  have hown : (ownTable b.types).types = b.types.map fun d ↦ ownType (b.typeId d.name) d := by
    rw [types_ownTable]
    refine List.ext_getElem? fun i ↦ ?_
    rw [List.getElem?_mapIdx, List.getElem?_map]
    cases hd : b.types[i]? with
    | none => rfl
    | some d => rw [Option.map_some, Option.map_some, hb.typeId_eq hd]
  have htypes : b.registry.types = (ownTable b.types).types.map (withAdditions b.additions) := rfl
  rw [htypes, hown, List.map_map]
  rfl

private theorem names_ownTable (ds : List EntityDeclaration) :
    (ownTable ds).types.map EntityType.name = ds.map (·.name) := by
  rw [types_ownTable]
  exact List.ext_getElem? fun i ↦ by simp [Function.comp_def]

private theorem exists_ownTable_iff {ds : List EntityDeclaration} {name : String} :
    (∃ t ∈ (ownTable ds).types, t.name = name) ↔ ∃ d ∈ ds, d.name = name := by
  have hmem : name ∈ (ownTable ds).types.map EntityType.name ↔ name ∈ ds.map (·.name) := by
    rw [names_ownTable]
  simpa using hmem

private theorem distinctNames_of_mem_ownTable {ds : List EntityDeclaration}
    (h : ∀ d ∈ ds, DistinctOwn d) : ∀ t ∈ (ownTable ds).types, DistinctNames t := by
  rw [types_ownTable]
  intro t ht
  obtain ⟨i, hi, rfl⟩ := List.mem_mapIdx.mp ht
  exact distinctNames_ownType.mpr (h _ (List.getElem_mem hi))

private theorem Distinct.typeId_of_get? (hb : b.Distinct) {name : String} {i : Nat}
    (h : (ownTable b.types).byName.get? name = some i) : b.typeId name = i := by
  have hname := (ownTable b.types).named.sound name i h
  rw [names_ownTable, List.getElem?_map, Option.map_eq_some_iff] at hname
  obtain ⟨d, hd, rfl⟩ := hname
  exact hb.typeId_eq hd

-- The passes over properties and over links make the additions one after the other.
private theorem Distinct.added_iff_foldlM_additions (hb : b.Distinct) :
    (∃ added, b.properties.foldlM (fun table p ↦ addOwned table p.1 (.entity p.2))
        (ownTable b.types) = .ok added ∧ b.links.foldlM addLink added = .ok table) ↔
      b.additions.foldlM (fun table a ↦ addOwned table a.1 a.2) (ownTable b.types) = .ok table := by
  have hproperties : b.properties.foldlM (fun table p ↦ addOwned table p.1 (.entity p.2))
      (ownTable b.types) = (b.properties.map fun p ↦ (p.1, Property.entity p.2)).foldlM
        (fun table a ↦ addOwned table a.1 a.2) (ownTable b.types) := by
    rw [List.foldlM_map]
  rw [hproperties, additions, List.foldlM_append, bind_eq_ok]
  refine exists_congr fun added ↦ and_congr_right fun h ↦ foldlM_addLink fun name i hi ↦ ?_
  exact hb.typeId_of_get? (byName_of_foldlM_addOwned h ▸ hi)

-- The additions to types with distinct properties fit if each has a declared type and the
-- properties stay distinct.
private theorem Distinct.foldlM_additions (hb : b.Distinct) (hown : ∀ d ∈ b.types, DistinctOwn d) :
    b.additions.foldlM (fun table a ↦ addOwned table a.1 a.2) (ownTable b.types) = .ok table ↔
      ((∀ a ∈ b.additions, b.Declared a.1) ∧ ∀ d ∈ b.types, DistinctNames (b.typeOf d)) ∧
        table = tableWith b.additions (ownTable b.types) := by
  have hnames : ((ownTable b.types).types.map EntityType.name).Nodup := names_ownTable _ ▸ hb.names
  have htypes : (∀ t ∈ (ownTable b.types).types, DistinctNames (withAdditions b.additions t)) ↔
      ∀ d ∈ b.types, DistinctNames (b.typeOf d) := by
    rw [← List.forall_mem_map (f := withAdditions b.additions),
      ← List.forall_mem_map (f := b.typeOf), ← hb.types_registry]
    rfl
  rw [foldlM_addOwned hnames (distinctNames_of_mem_ownTable hown), htypes]
  simp only [exists_ownTable_iff, Declared]

-- The first three passes give every declared type all its properties.
private theorem Distinct.table_eq_ok_iff (hb : b.Distinct) : (∃ own,
      b.types.foldlM register .empty = .ok own ∧ ∃ added,
      b.properties.foldlM (fun table p ↦ addOwned table p.1 (.entity p.2)) own = .ok added ∧
        b.links.foldlM addLink added = .ok table) ↔
    ((∀ a ∈ b.additions, b.Declared a.1) ∧ ∀ d ∈ b.types, DistinctNames (b.typeOf d)) ∧
      table = tableWith b.additions (ownTable b.types) := by
  simp only [foldlM_register]
  constructor
  · rintro ⟨_, ⟨hown, rfl⟩, h⟩
    exact (hb.foldlM_additions hown).mp (hb.added_iff_foldlM_additions.mp h)
  · intro h
    have hown : ∀ d ∈ b.types, DistinctOwn d := fun d hd ↦
      distinctNames_ownType.mp (h.1.2 d hd).of_pushAll
    exact ⟨_, ⟨hown, rfl⟩, hb.added_iff_foldlM_additions.mpr ((hb.foldlM_additions hown).mpr h)⟩

private theorem finalize_eq_ok : b.finalize = .ok model ↔ ∃ table, (∃ own,
      b.types.foldlM register .empty = .ok own ∧ ∃ added,
      b.properties.foldlM (fun table p ↦ addOwned table p.1 (.entity p.2)) own = .ok added ∧
        b.links.foldlM addLink added = .ok table) ∧
      (∀ t ∈ table.types, ∀ v ∈ t.entityProperties,
        checkComplex b.complexTypes t.name v = .ok ()) ∧
      model = .ofTable table b.complexTypes b.extensions := by
  simp only [finalize, bind_eq_ok, ← forM_eq_ok, pure_eq_ok]
  constructor
  · rintro ⟨own, hown, added, hadded, table, htable, ⟨⟩, hcheck, hmodel⟩
    exact ⟨table, ⟨own, hown, added, hadded, htable⟩, hcheck, hmodel⟩
  · rintro ⟨table, ⟨own, hown, added, hadded, htable⟩, hcheck, hmodel⟩
    exact ⟨own, hown, added, hadded, table, htable, (), hcheck, hmodel⟩

/-- The registry of declarations has all declared types with all their properties. There is one
exactly if the declarations are consistent. -/
theorem Distinct.finalize_eq_ok_iff (hb : b.Distinct) :
    b.finalize = .ok model ↔ b.Consistent ∧ model = b.registry := by
  have hcomplex (howners : ∀ p ∈ b.properties, b.Declared p.1) :=
    forall_entityProperties_iff howners (P := fun v ↦ ∀ name,
      v.valueType.innermost = .complex name → ∃ c ∈ b.complexTypes, c.name = name) nofun
  have hchecked : (∀ t ∈ b.registry.types, ∀ v ∈ t.entityProperties,
        checkComplex b.complexTypes t.name v = .ok ()) ↔
      ∀ d ∈ b.types, ∀ v ∈ (b.typeOf d).entityProperties, ∀ name,
        v.valueType.innermost = .complex name → ∃ c ∈ b.complexTypes, c.name = name := by
    simp only [hb.types_registry, List.forall_mem_map, checkComplex_eq_ok_iff]
  simp only [finalize_eq_ok, hb.table_eq_ok_iff, forall_additions_iff, DistinctNames, names_typeOf]
  constructor
  · rintro ⟨_, ⟨⟨⟨howners, hends⟩, hnames⟩, rfl⟩, hcheck, rfl⟩
    exact ⟨⟨howners, hends, hnames, (hcomplex howners).mp (hchecked.mp hcheck)⟩, rfl⟩
  · rintro ⟨⟨howners, hends, hnames, hcomplexTypes⟩, rfl⟩
    exact ⟨_, ⟨⟨⟨howners, hends⟩, hnames⟩, rfl⟩,
      hchecked.mpr ((hcomplex howners).mpr hcomplexTypes), rfl⟩

/-- The types that the declarations come to. -/
theorem Distinct.types_of_finalize (hb : b.Distinct) (h : b.finalize = .ok model) :
    model.types = b.types.map b.typeOf := by
  obtain ⟨-, rfl⟩ := hb.finalize_eq_ok_iff.mp h
  exact hb.types_registry

/-- The types that the declarations come to have distinct names. -/
theorem Distinct.names_of_finalize (hb : b.Distinct) (h : b.finalize = .ok model) :
    (model.types.map EntityType.name).Nodup := by
  rw [hb.types_of_finalize h, List.map_map]
  simpa [Function.comp_def] using hb.names

/-- The sets of the types that the declarations come to have distinct names. -/
theorem Distinct.plurals_of_finalize (hb : b.Distinct) (h : b.finalize = .ok model) :
    (model.types.map EntityType.plural).Nodup := by
  rw [hb.types_of_finalize h, List.map_map]
  simpa [Function.comp_def] using hb.plurals

end Builder

/-! ### Types by their names -/

namespace Registry

variable {model : Registry} {t : EntityType}

/-- Every type of a finalized model is found by its name. -/
theorem Finalized.entityType? (h : model.Finalized) (ht : t ∈ model.types) :
    model.entityType? t.name = some t := by
  obtain ⟨b, hb, hfinal⟩ := h
  exact (model.named.find?_eq_some_iff (hb.distinct.names_of_finalize hfinal)).mpr ⟨ht, rfl⟩

/-- Every type of a finalized model is found by the name of its set. -/
theorem Finalized.entitySet? (h : model.Finalized) (ht : t ∈ model.types) :
    model.entitySet? t.plural = some t := by
  obtain ⟨b, hb, hfinal⟩ := h
  exact (model.inSets.find?_eq_some_iff (hb.distinct.plurals_of_finalize hfinal)).mpr ⟨ht, rfl⟩

end Registry

end SensorQuery
