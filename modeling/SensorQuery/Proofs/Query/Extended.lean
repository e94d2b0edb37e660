import SensorQuery.Proofs.Path.Extended
import SensorQuery.Proofs.Query.Replay

/-!
# Queries in extended models

When more is declared, a query that was read and fits a type still fits it, since types only gain
properties. It need not be read again: a name that was that of a value may have become that of a
link of another type, and is then read as a link. It is read as the same query exactly if it is
settled in the larger model.
-/

namespace SensorQuery

open Fallible

variable {ctx : Context} {model more : Registry}

/-! ### Reading options -/

namespace Query

/-- The options that were seen have settled paths. -/
structure SettledOn (model : Registry) (seen : List String) (q : Query) : Prop where
  filter : "$filter" ∈ seen → ∀ e ∈ q.filter, e.Settled model
  orderBy : "$orderby" ∈ seen → ∀ o ∈ q.orderBy, o.expression.Settled model
  select : "$select" ∈ seen → ∀ p ∈ q.select.paths, p.Settled model
  expand : "$expand" ∈ seen → ∀ x ∈ q.expand, x.Settled model

private theorem Settled.on {q : Query} (h : q.Settled model) (seen : List String) :
    q.SettledOn model seen := by
  obtain ⟨filter, orderBy, select, expand⟩ := settled_iff.mp h
  exact ⟨fun _ ↦ filter, fun _ ↦ orderBy, fun _ ↦ select, fun _ ↦ expand⟩

private theorem SettledOn.mono {q : Query} {seen seen' : List String} (h : q.SettledOn model seen')
    (hseen : seen ⊆ seen') : q.SettledOn model seen :=
  ⟨fun hold ↦ h.filter (hseen hold), fun hold ↦ h.orderBy (hseen hold),
    fun hold ↦ h.select (hseen hold), fun hold ↦ h.expand (hseen hold)⟩

private theorem selectItems_of_within (hwithin : ctx.model.Within more)
    (hlinks : ctx.customLinks = false) {items : List (List Char)} {s s' : Select}
    (h : items.foldlM (selectItem ctx) s = .ok s') (hs' : ∀ p ∈ s'.paths, p.Settled more) :
    (∀ p ∈ s.paths, p.Settled more) ∧
      items.foldlM (selectItem { ctx with model := more }) s = .ok s' := by
  induction items generalizing s with
  | nil =>
    cases h
    exact ⟨hs', rfl⟩
  | cons item items ih =>
    rw [List.foldlM_cons] at h ⊢
    obtain ⟨mid, hmid, h⟩ := bind_eq_ok.mp h
    obtain ⟨text, p, htext, hp, rfl⟩ := selectItem_eq_ok.mp hmid
    obtain ⟨hsettled, hmore⟩ := ih h
    obtain ⟨hs, hsettledPath⟩ := (forall_insert_iff s p).mp hsettled
    have hread := PropertyPath.parse_of_within hwithin hlinks hp hsettledPath
    rw [selectItem_eq_ok.mpr ⟨text, p, htext, hread, rfl⟩, ok_bind]
    exact ⟨hs, hmore⟩

private theorem parseSelect_of_within (hwithin : ctx.model.Within more)
    (hlinks : ctx.customLinks = false) {value : List Char} {s : Select}
    (h : parseSelect ctx value = .ok s) (hs : ∀ p ∈ s.paths, p.Settled more) :
    parseSelect { ctx with model := more } value = .ok s := by
  obtain ⟨parts, hparts, h⟩ := bind_eq_ok.mp h
  exact bind_eq_ok.mpr ⟨parts, hparts, (selectItems_of_within hwithin hlinks h hs).2⟩

variable {nested nested' : List Char → Except QueryError Query}

private theorem parseNested_of_within
    (hnested : ∀ s q, nested s = .ok q → q.Settled more → nested' s = .ok q)
    {inner : Option (List Char)} {query : Option Query} (h : parseNested nested inner = .ok query)
    (hquery : ∀ q ∈ query, q.Settled more) : parseNested nested' inner = .ok query := by
  cases inner with
  | none => exact h
  | some s =>
    rw [parseNested] at h ⊢
    split at h
    · next hblank => rwa [if_pos hblank]
    · next hblank =>
      obtain ⟨q, hq, h⟩ := bind_eq_ok.mp h
      cases h
      rw [if_neg hblank, hnested s q hq (hquery q rfl)]
      rfl

private theorem parseExpand_of_within (hwithin : ctx.model.Within more)
    (hlinks : ctx.customLinks = false)
    (hnested : ∀ s q, nested s = .ok q → q.Settled more → nested' s = .ok q) {value : List Char}
    {es : List (Expand Query)} (h : parseExpand ctx nested value = .ok es)
    (hes : ∀ x ∈ es, x.Settled more) :
    parseExpand { ctx with model := more } nested' value = .ok es := by
  obtain ⟨parts, hparts, h⟩ := bind_eq_ok.mp h
  refine bind_eq_ok.mpr ⟨parts, hparts, mapM_of_mapM h fun item _ x hx hitem ↦ ?_⟩
  obtain ⟨trimmed, path, inner, p, query, htrimmed, hsplit, hp, hquery, rfl⟩ :=
    parseExpandItem_eq_ok.mp hitem
  obtain ⟨hhops, hsettled⟩ := settled_nestExpand.mp (hes _ hx)
  have hpath := PropertyPath.parse_of_within hwithin hlinks hp
    (PropertyPath.forall_hops_settled_iff.mp hhops)
  exact parseExpandItem_eq_ok.mpr ⟨trimmed, path, inner, p, query, htrimmed, hsplit, hpath,
    parseNested_of_within hnested hquery hsettled, rfl⟩

-- An option with a new name leaves the options that were seen as they are.
private theorem setOption_of_within (hwithin : ctx.model.Within more)
    (hlinks : ctx.customLinks = false)
    (hnested : ∀ s q, nested s = .ok q → q.Settled more → nested' s = .ok q) {q q' : Query}
    {name : String} {seen : List String} {value : List Char} (hnew : name ∉ seen)
    (h : setOption ctx nested q name value = .ok q') (hq' : q'.SettledOn more (name :: seen)) :
    q.SettledOn more seen ∧
      setOption { ctx with model := more } nested' q name value = .ok q' := by
  have hearlier : q'.SettledOn more seen := hq'.mono (List.subset_cons_self name seen)
  cases setsPart_of_setOption h with
  | filter named read =>
    subst named
    have hread := Expression.parse_of_within hwithin hlinks read
      (hq'.filter List.mem_cons_self _ rfl)
    exact ⟨{ hearlier with filter := fun hold ↦ absurd hold hnew },
      by simp [setOption, hread, inOption]⟩
  | orderBy named read =>
    subst named
    have hread := Order.parse_of_within hwithin hlinks read (hq'.orderBy List.mem_cons_self)
    exact ⟨{ hearlier with orderBy := fun hold ↦ absurd hold hnew },
      by simp [setOption, hread, inOption]⟩
  | select named read =>
    subst named
    have hread := parseSelect_of_within hwithin hlinks read (hq'.select List.mem_cons_self)
    exact ⟨{ hearlier with select := fun hold ↦ absurd hold hnew }, by simp [setOption, hread]⟩
  | expand named read =>
    subst named
    have hread := parseExpand_of_within hwithin hlinks hnested read
      (hq'.expand List.mem_cons_self)
    exact ⟨{ hearlier with expand := fun hold ↦ absurd hold hnew }, by simp [setOption, hread]⟩
  | other _ alike => exact ⟨{ hearlier with }, alike _ _⟩

-- Options are read alike if the query that they come to is settled: what each of them sets is still
-- there at the end.
private theorem readItems_of_within (hwithin : ctx.model.Within more)
    (hlinks : ctx.customLinks = false)
    (hnested : ∀ s q, nested s = .ok q → q.Settled more → nested' s = .ok q) {scope : Scope}
    {items : List (List Char)} {q q' : Query} {seen : List String}
    (h : readItems ctx nested scope q seen items = .ok q') (hq' : q'.Settled more) :
    q.SettledOn more seen ∧
      readItems { ctx with model := more } nested' scope q seen items = .ok q' := by
  induction items generalizing q seen with
  | nil =>
    cases h
    exact ⟨hq'.on seen, rfl⟩
  | cons item items ih =>
    rcases readItems_cons_eq_ok.mp h with
      ⟨hblank, h⟩ | ⟨hitem, name, value, set, hsplit, hnew, hset, h⟩
    · obtain ⟨hsettled, hread⟩ := ih h
      exact ⟨hsettled, readItems_cons_eq_ok.mpr (.inl ⟨hblank, hread⟩)⟩
    · obtain ⟨hsettled, hread⟩ := ih h
      obtain ⟨hq, hset'⟩ := setOption_of_within hwithin hlinks hnested hnew hset hsettled
      exact ⟨hq, readItems_cons_eq_ok.mpr
        (.inr ⟨hitem, name, value, set, hsplit, hnew, hset', hread⟩)⟩

private theorem parseOptions_of_within (hwithin : ctx.model.Within more)
    (hlinks : ctx.customLinks = false) {depth : Nat} {scope : Scope} {s : List Char} {q : Query}
    (h : parseOptions ctx depth scope s = .ok q) (hq : q.Settled more) :
    parseOptions { ctx with model := more } depth scope s = .ok q := by
  induction depth generalizing scope s q with
  | zero => cases h
  | succ depth ih =>
    obtain ⟨items, hitems, h⟩ := bind_eq_ok.mp h
    refine bind_eq_ok.mpr ⟨items, hitems, ?_⟩
    exact (readItems_of_within hwithin hlinks (fun _ _ ↦ ih) h hq).2

/-- A query that is read in a model is read alike in a larger one exactly if it is settled there. -/
theorem parse_eq_ok_iff_of_within (hwithin : ctx.model.Within more)
    (hlinks : ctx.customLinks = false) {t : String} {q : Query} (h : parse ctx t = .ok q) :
    parse { ctx with model := more } t = .ok q ↔ q.Settled more :=
  ⟨settled_of_parse, parseOptions_of_within hwithin hlinks h⟩

end Query

/-! ### Validating -/

namespace Target

/-- The other place is the same, but its type may have more properties in the larger model. -/
inductive Within (more : Registry) : Target → Target → Prop where
  | entity {t t' : EntityType} (mem : t' ∈ more.types) (within : t.Within t') :
    Within more (.entity t) (.entity t')
  | value (type : ValueType) : Within more (.value type) (.value type)
  | anything : Within more .anything .anything

private theorem Within.ofValue (more : Registry) (type : ValueType) :
    Within more (.ofValue type) (.ofValue type) := by
  unfold Target.ofValue
  split
  · exact .anything
  · exact .value type

/-- The declarations of a larger model lead at least as far. -/
theorem StepsTo.of_within (hwithin : model.Within more) {X X' Y : Target} {step : PathStep}
    (h : StepsTo model X step Y) (hX : Within more X X') :
    ∃ Y', StepsTo more X' step Y' ∧ Within more Y Y' := by
  cases hX with
  | entity mem within =>
    cases h with
    | key own isKey =>
      exact ⟨_, .key (within.properties own) (isKey.trans within.primaryKey.symm), .ofValue more _⟩
    | navigation own registered leads named =>
      obtain ⟨target, htarget, hsame⟩ := hwithin.exists_mem registered
      exact ⟨_, .navigation (within.properties own) htarget (hsame.id.trans leads) named,
        .entity htarget hsame⟩
    | property own named => exact ⟨_, .property (within.properties own) named, .ofValue more _⟩
  | value type =>
    cases h with
    | element => exact ⟨_, .element, .ofValue more _⟩
    | field declared has named =>
      exact ⟨_, .field (hwithin.complexTypes declared) has named, .ofValue more _⟩
    | openField declared lacks isOpen named =>
      exact ⟨_, .openField (hwithin.complexTypes declared) lacks isOpen named, .anything⟩
  | anything =>
    cases h with
    | link registered =>
      obtain ⟨target, htarget, hsame⟩ := hwithin.exists_mem registered
      exact ⟨_, hsame.name ▸ .link htarget, .entity htarget hsame⟩
    | part hkey hlink => exact ⟨_, .part hkey hlink, .anything⟩

private theorem PathTo.of_within (hwithin : model.Within more) {X X' Y : Target}
    {steps : List PathStep}
    (h : PathTo model X steps Y) (hX : Within more X X') :
    ∃ Y', PathTo more X' steps Y' ∧ Within more Y Y' := by
  induction h generalizing X' with
  | nil => exact ⟨X', .nil X', hX⟩
  | cons first _ ih =>
    obtain ⟨Z, hfirst, hZ⟩ := first.of_within hwithin hX
    obtain ⟨Y', hmore, hY⟩ := ih hZ
    exact ⟨Y', .cons hfirst hmore, hY⟩

end Target

namespace Query

variable {t t' : EntityType} {q : Query}

private theorem EndsAtValue.of_within (hwithin : model.Within more) (mem : t' ∈ more.types)
    (ht : t.Within t') {p : PropertyPath} (h : EndsAtValue model t p) : EndsAtValue more t' p := by
  obtain ⟨X, hX, hvalue⟩ := h
  obtain ⟨X', hX', hsame⟩ := hX.of_within hwithin (.entity mem ht)
  refine ⟨X', hX', ?_⟩
  cases hsame with
  | entity => exact absurd rfl (hvalue _)
  | value | anything => exact nofun

private theorem PathsFit.of_within (hwithin : model.Within more) (mem : t' ∈ more.types)
    (ht : t.Within t') (h : PathsFit model t q) : PathsFit more t' q where
  filter e he p hp := (h.filter e he p hp).of_within hwithin mem ht
  orderBy o ho p hp := (h.orderBy o ho p hp).of_within hwithin mem ht
  select p hp := by
    obtain ⟨X, hX⟩ := h.select p hp
    obtain ⟨X', hX', -⟩ := hX.of_within hwithin (.entity mem ht)
    exact ⟨X', hX'⟩
  expand x hx := by
    obtain ⟨target, htarget⟩ := h.expand x hx
    obtain ⟨X', hX', hsame⟩ := htarget.of_within hwithin (.entity mem ht)
    cases hsame with
    | entity => exact ⟨_, hX'⟩

/-- A query that fits a type fits the type in a larger model: by induction on the size of the query,
which is that of its nesting. -/
theorem validate_of_within (hwithin : model.Within more) (hmodel : model.Coherent)
    (hmore : more.Coherent) (q : Query) {t t' : EntityType} (ht : t ∈ model.types)
    (mem : t' ∈ more.types) (hsame : t.Within t') (h : q.validate model t = .ok ()) :
    q.validate more t' = .ok () := by
  obtain ⟨hfit, hqueries⟩ := (validate_eq_ok hmodel ht).mp h
  refine (validate_eq_ok hmore mem).mpr ⟨hfit.of_within hwithin mem hsame, ?_⟩
  intro path sub target' hx hleads'
  obtain ⟨target, hleads⟩ := hfit.expand _ hx
  obtain ⟨X, hX, hwithinX⟩ := hleads.of_within hwithin (.entity mem hsame)
  cases PathTo.unique hmore mem hX hleads'
  cases hwithinX with
  | entity mem' hsame' =>
    have hsize : sizeOf sub < sizeOf q := sizeOf_lt_of_mem_expand hx
    exact validate_of_within hwithin hmodel hmore sub (hleads.isOf (Target.isOf_entity ht) _ rfl)
      mem' hsame' (hqueries path sub target hx hleads)
termination_by sizeOf q

end Query

/-- When more is declared, a query that was read and fits a type still fits it. It is read as the
same query exactly if no path of it goes to a value by a name that some type has come to have for
links. -/
theorem extended_model_reads_settled_queries (b : Builder) (hb : b.Grown) (ds : List Declaration)
    (model more : Registry) (hmodel : b.finalize = .ok model)
    (hmore : (b.declareEach ds).finalize = .ok more) (functions : Catalog) (text : String)
    (q : Query) (hread : Query.parse ⟨model, functions, false⟩ text = .ok q) (t : EntityType)
    (ht : t ∈ model.types) (hq : q.validate model t = .ok ()) :
    (∃ t', more.entityType? t.name = some t' ∧ q.validate more t' = .ok ()) ∧
      (Query.parse ⟨more, functions, false⟩ text = .ok q ↔
        ∀ p, q.Mentions p → ∀ name, .property name ∈ p.steps →
          more.isNavigationName name = false) := by
  have hwithin := hb.within ds hmodel hmore
  have hcoherent := hb.coherent hmodel
  have hcoherent' := (hb.declareEach ds).coherent hmore
  constructor
  · obtain ⟨t', ht', mem, hsame⟩ :=
      hwithin.entityType? hcoherent' ((hcoherent.entityType? t.name t).mpr ⟨ht, rfl⟩)
    exact ⟨t', ht', q.validate_of_within hwithin hcoherent hcoherent' ht mem hsame hq⟩
  · exact Query.parse_eq_ok_iff_of_within hwithin rfl hread

/-- The first sizes of the exhibits in the hall, each with the name of its room. -/
def Museum.sizesInHall : Query :=
  { Query.empty with
    filter := some (.binary .equal (.path ⟨[.navigation "room", .property "name"]⟩)
      (.constant (.string "hall")))
    select := .ofList [⟨[.property "sizes", .index 0]⟩]
    expand := [⟨⟨[.navigation "room"]⟩,
      some { Query.empty with select := .ofList [⟨[.property "name"]⟩] }⟩] }

/-- The theorem at a query of exhibits, whose names are not those of new links. -/
theorem museum_query_read_with_visitors :
    Query.parse ⟨Museum.visited, ⟨[]⟩, false⟩
        "$filter=room/name eq 'hall'&$select=sizes[0]&$expand=room($select=name)" =
      .ok Museum.sizesInHall ∧
    ∃ t, Museum.visited.entityType? "Exhibit" = some t ∧
      Museum.sizesInHall.validate Museum.visited t = .ok () := by
  have hread : Query.parse ⟨Museum.model, ⟨[]⟩, false⟩
      "$filter=room/name eq 'hall'&$select=sizes[0]&$expand=room($select=name)" =
        .ok Museum.sizesInHall := by decide +kernel
  have hvalid : Museum.sizesInHall.validate Museum.model Museum.exhibit = .ok () := by
    decide +kernel
  have hname : Museum.visited.isNavigationName "name" = false := by decide
  have hsizes : Museum.visited.isNavigationName "sizes" = false := by decide
  have hselect (p : PropertyPath) : (Select.ofList [p]).paths = [p] := rfl
  have hsettled : Museum.sizesInHall.Settled Museum.visited := by
    refine Query.settled_iff.mpr ⟨?_, List.forall_mem_nil _, ?_, ?_⟩
    · simp [Museum.sizesInHall, Expression.settled_binary, Expression.settled_path,
        Expression.settled_constant, PropertyPath.Settled, hname]
    · simp [Museum.sizesInHall, hselect, PropertyPath.Settled, hsizes]
    · rw [Museum.sizesInHall, List.forall_mem_singleton]
      refine ⟨by simp [PropertyPath.Settled], ?_⟩
      rintro _ ⟨⟩
      refine Query.settled_iff.mpr
        ⟨by rintro _ ⟨⟩, List.forall_mem_nil _, ?_, List.forall_mem_nil _⟩
      simp [hselect, PropertyPath.Settled, hname]
  obtain ⟨hvalid', hread'⟩ := extended_model_reads_settled_queries
    (Builder.empty.declareEach Museum.declarations) (Builder.Grown.empty.declareEach _)
    Museum.visits Museum.model Museum.visited rfl Museum.visited_of_visits ⟨[]⟩ _ _ hread
    Museum.exhibit Museum.exhibit_mem hvalid
  exact ⟨hread'.mpr hsettled, hvalid'⟩

/-- Visitors leave notes, so a path into the notes of an exhibit is read no longer. -/
theorem museum_notes_not_read_with_visitors :
    ¬ ∀ (b : Builder) (_ : b.Grown) (ds : List Declaration) (model more : Registry)
      (_ : b.finalize = .ok model) (_ : (b.declareEach ds).finalize = .ok more)
      (functions : Catalog) (text : String) (q : Query)
      (_ : Query.parse ⟨model, functions, false⟩ text = .ok q) (t : EntityType)
      (_ : t ∈ model.types) (_ : q.validate model t = .ok ()),
      Query.parse ⟨more, functions, false⟩ text = .ok q ∧
        ∃ t', more.entityType? t.name = some t' ∧ q.validate more t' = .ok () := by
  intro h
  have hread : Query.parse ⟨Museum.model, ⟨[]⟩, false⟩ "$select=notes/source" =
      .ok { Query.empty with select := .ofList [⟨[.property "notes", .custom "source"]⟩] } := by
    decide +kernel
  have hlost : Query.parse ⟨Museum.visited, ⟨[]⟩, false⟩ "$select=notes/source" =
      .error (.expression "$select" (.unknownProperty "source")) := by decide +kernel
  obtain ⟨hkept, -⟩ := h (Builder.empty.declareEach Museum.declarations)
    (Builder.Grown.empty.declareEach _) Museum.visits Museum.model Museum.visited rfl
    Museum.visited_of_visits ⟨[]⟩ _ _ hread Museum.exhibit Museum.exhibit_mem (by decide +kernel)
  rw [hlost] at hkept
  cases hkept

end SensorQuery
