import Mathlib.Data.Option.Basic
import SensorQuery.Proofs.Path.Element
import SensorQuery.Proofs.Path.RoundTrip

/-!
# Compressed paths

A keyed entity stands behind the set that it belongs to, whatever leads to that set. Without it the
path is one that could have been read, and paths that agree from their last keyed entity on have one
compressed form.
-/

namespace SensorQuery

open Segment (IsName)

/-! ### Runs behind a keyed entity -/

variable {model : Registry} {place next last : Place} {es es' back : List PathElement}
  {e : PathElement}

private theorem Leads.atRoot_eq {parent : Nat} (h : Leads model parent .root e next) :
    e.atRoot = e := by
  cases h
  rfl

-- What can be added behind an element can be added behind it when others in front of it are
-- dropped.
private theorem Leads.shift {parent offset : Nat}
    (h : Leads model (parent + offset) place e next) (hroot : place ≠ .root) :
    Leads model parent place (e.shiftParent offset) next := by
  cases h <;> simp only [PathElement.shiftParent, Option.map_some, Nat.add_sub_cancel]
  case root => exact absurd rfl hroot
  case key kind => exact .key kind
  case property name own => exact .property name own
  case many name own leads toMany => exact .many name own leads toMany
  case one name own leads toOne => exact .one name own leads toOne
  case item => exact .item
  case field isName complex own => exact .field isName complex own
  case openField isName complex other isOpen => exact .openField isName complex other isOpen
  case anyIndex => exact .anyIndex
  case anyName isName noIndex => exact .anyName isName noIndex

private theorem Run.shift {position offset : Nat}
    (h : Run model place (position + 1 + offset) es last)
    (hroot : place ≠ .root) :
    Run model place (position + 1) (es.map (PathElement.shiftParent offset)) last := by
  induction es generalizing place position with
  | nil =>
    cases h
    exact .nil _ _
  | cons e es ih =>
    obtain ⟨⟩ | ⟨head, tail⟩ := h
    refine .cons ?_ (ih ?_ head.ne_root)
    · refine Leads.shift ?_ hroot
      rwa [show position + 1 + offset - 1 = position + 1 - 1 + offset by omega] at head
    · rwa [show position + 1 + offset + 1 = position + 1 + 1 + offset by omega] at tail

/-- The parents of the elements of a run stand directly in front of the run or in it. -/
theorem Run.le_parent {position : Nat} (h : Run model place position es last)
    (hroot : place ≠ .root) : ∀ e ∈ es, ∀ parent ∈ e.parent?, position - 1 ≤ parent := by
  induction h with
  | nil => exact fun e he ↦ by cases he
  | cons head _ ih =>
    refine List.forall_mem_cons.mpr ⟨fun parent hparent ↦ ?_, fun e he parent hparent ↦ ?_⟩
    · rw [head.parent?_eq hroot] at hparent
      cases hparent
      exact Nat.le_refl _
    · have hlater := ih head.ne_root e he parent hparent
      omega

private theorem Run.eq_of_orphans {position : Nat} {place' last' : Place}
    (h : Run model place position es last) (h' : Run model place' position es' last')
    (hroot : place ≠ .root) (hroot' : place' ≠ .root)
    (horphans : es.map PathElement.orphan = es'.map PathElement.orphan) : es = es' := by
  induction h generalizing es' place' with
  | nil => exact (List.map_eq_nil_iff.mp horphans.symm).symm
  | @cons place mid last position e es head _ ih =>
    obtain ⟨e', es', rfl, he, hes⟩ := List.map_eq_cons_iff.mp horphans.symm
    obtain ⟨⟩ | ⟨head', tail'⟩ := h'
    have hparent : e.parent? = e'.parent? := by
      rw [head.parent?_eq hroot, head'.parent?_eq hroot']
    rw [PathElement.eq_of_orphan he.symm hparent, ih tail' head.ne_root head'.ne_root hes.symm]

private theorem Leads.eq_entitySet {parent : Nat} {t : EntityType}
    (h : Leads model parent place e (.set t)) : t ∈ model.types ∧
      ∃ navigation outer, e = .entitySet t.name t.plural navigation outer := by
  generalize hnext : Place.set t = next at h
  cases h with
  | root _ set =>
    cases hnext
    exact ⟨(Registry.plural_of_entitySet? set).1, _, _, rfl⟩
  | many _ _ leads _ =>
    cases hnext
    exact ⟨Registry.mem_of_target? leads, _, _, rfl⟩
  | property | item | field => exact absurd hnext.symm (Resolution.ofValue_ne_set _ t)
  | _ => cases hnext

/-- A keyed entity stands behind the set of its type. -/
theorem Run.of_keyed (h : Run model .root 0 (es ++ e :: back) last) (he : e.isKeyed = true) :
    ∃ (t : EntityType) (k : Key) (outer : List PathElement) (navigation : Option String)
      (parent : Option Nat), t ∈ model.types ∧ k.kind = t.keyKind ∧
        es = outer ++ [.entitySet t.name t.plural navigation parent] ∧
        e = .entity t.name (some k) none (some outer.length) ∧
        Run model (.entity t) (es.length + 1) back last := by
  obtain ⟨mid, hfront, hrest⟩ := h.exists_of_append
  obtain ⟨⟩ | ⟨head, tail⟩ := hrest
  cases head with
  | @key t k kind =>
    rcases List.eq_nil_or_concat es with rfl | ⟨outer, set, rfl⟩
    · cases hfront
    · rw [List.concat_eq_append] at hfront tail ⊢
      obtain ⟨place, -, hset⟩ := hfront.exists_of_append
      obtain ⟨⟩ | ⟨head, hnil⟩ := hset
      cases hnil
      obtain ⟨ht, navigation, parent, rfl⟩ := head.eq_entitySet
      refine ⟨t, k, outer, navigation, parent, ht, kind, rfl, ?_, by simpa using tail⟩
      simp
  | _ => cases he

namespace ResourcePath

variable {p q : ResourcePath} {t : EntityType} {k : Key} {outer : List PathElement}

/-- The elements of a path that begins with a keyed entity of the type at the root, followed by what
stood behind `offset + 2` elements. -/
def atKey (t : EntityType) (k : Key) (offset : Nat) (back : List PathElement) : List PathElement :=
  .entitySet t.name t.plural none none :: .entity t.name (some k) none (some 0) ::
    back.map (PathElement.shiftParent offset)

/-- The last keyed entity of the path has the key, and stands behind the set of its type. -/
structure KeyedAt (model : Registry) (p : ResourcePath) (t : EntityType) (k : Key)
    (outer back : List PathElement) : Prop where
  mem : t ∈ model.types
  kind : k.kind = t.keyKind
  identified : p.identified? = some (outer.length + 1)
  exists_elements : ∃ navigation parent, p.elements = outer ++
    .entitySet t.name t.plural navigation parent ::
      .entity t.name (some k) none (some outer.length) :: back
  unkeyed : ∀ e ∈ back, e.isKeyed = false
  exists_run : ∃ last, Run model (.entity t) (outer.length + 2) back last

/-- A path with a keyed entity has a last one. -/
theorem Formed.exists_keyedAt (h : p.Formed model) {i : Nat} (hi : p.identified? = some i) :
    ∃ t k outer back, p.KeyedAt model t k outer back := by
  obtain ⟨front, e, back, helements, hlength, he, hback⟩ := exists_of_lastIndex? hi
  obtain ⟨last, hrun⟩ := h.exists_run
  rw [helements] at hrun
  obtain ⟨t, k, outer, navigation, parent, ht, hkind, rfl, rfl, htail⟩ := hrun.of_keyed he
  rw [List.length_append, List.length_singleton] at hlength htail
  refine ⟨t, k, outer, back, ht, hkind, hlength ▸ hi, ⟨navigation, parent, ?_⟩, hback, last, htail⟩
  rw [helements, List.append_assoc, List.singleton_append]

/-- A path is compressed to its last keyed entity, at the root, and what follows it. -/
theorem KeyedAt.compress_eq (hk : p.KeyedAt model t k outer back) (h : p.Formed model) :
    p.compress = { p with
      elements := atKey t k outer.length back
      main := p.main - outer.length } := by
  obtain ⟨navigation, parent, helements⟩ := hk.exists_elements
  have hparent : (p.identified?.bind fun i ↦ p.elements[i]?.bind PathElement.parent?) =
      some outer.length := by
    rw [hk.identified, Option.bind_some, helements]
    simp [PathElement.parent?]
  rw [compress, hparent]
  cases outer with
  | nil =>
    -- The set of the root is where the path begins already.
    obtain ⟨last, hrun⟩ := h.exists_run
    rw [helements] at hrun
    obtain ⟨⟩ | ⟨head, -⟩ := hrun
    have hroot := head.atRoot_eq
    simp only [PathElement.atRoot, PathElement.entitySet.injEq, true_and] at hroot
    obtain ⟨rfl, rfl⟩ := hroot
    simp only [List.nil_append, List.length_nil] at helements ⊢
    rw [atKey, PathElement.shiftParent_zero, List.map_id, ← helements, Nat.sub_zero]
  | cons first outer =>
    have hdrop : p.elements.drop (first :: outer).length =
        .entitySet t.name t.plural navigation parent ::
          .entity t.name (some k) none (some (first :: outer).length) :: back := by
      rw [helements, List.drop_left]
    simp only [List.length_cons] at hdrop ⊢
    rw [dropBefore, hdrop]
    simp [PathElement.atRoot, PathElement.shiftParent, atKey]

private theorem KeyedAt.drop_elements (hk : p.KeyedAt model t k outer back) :
    p.elements.drop (outer.length + 1) =
      .entity t.name (some k) none (some outer.length) :: back := by
  obtain ⟨navigation, parent, helements⟩ := hk.exists_elements
  rw [helements, ← List.drop_drop, List.drop_left]
  rfl

/-- What follows the keyed entity can follow it at the root. -/
theorem KeyedAt.exists_run_shift (hk : p.KeyedAt model t k outer back) :
    ∃ last, Run model (.entity t) 2 (back.map (PathElement.shiftParent outer.length)) last := by
  obtain ⟨last, hrun⟩ := hk.exists_run
  have hback : Run model (.entity t) (1 + 1 + outer.length) back last := by
    rwa [Nat.add_comm] at hrun
  exact ⟨last, hback.shift (by simp)⟩

/-- No index falls below zero when a path is compressed. -/
theorem KeyedAt.le_parent (hk : p.KeyedAt model t k outer back) :
    ∀ e ∈ p.elements.drop (outer.length + 1), ∀ parent ∈ e.parent?, outer.length ≤ parent := by
  obtain ⟨last, hrun⟩ := hk.exists_run
  rw [hk.drop_elements, List.forall_mem_cons]
  refine ⟨fun parent hparent ↦ ?_, fun e he parent hparent ↦ ?_⟩
  · cases hparent
    exact Nat.le_refl _
  · have hlater := hrun.le_parent (by simp) e he parent hparent
    omega

/-- The main element stands at or behind the last keyed entity. -/
theorem KeyedAt.exists_main (hk : p.KeyedAt model t k outer back) (h : p.Formed model) :
    ∃ j, p.main = outer.length + (j + 1) ∧
      lastIndex? PathElement.isResource (atKey t k outer.length back) = some (j + 1) := by
  obtain ⟨navigation, parent, helements⟩ := hk.exists_elements
  have hmain : p.main = (lastIndex? PathElement.isResource p.elements).getD 0 := by
    rw [h.eq_ofElements]
    rfl
  rw [hmain, helements]
  simp only [lastIndex?_append, atKey, lastIndex?,
    lastIndex?_map (PathElement.isResource_shiftParent outer.length)]
  cases lastIndex? PathElement.isResource back with
  | none => exact ⟨0, rfl, rfl⟩
  | some j => exact ⟨j + 1, rfl, rfl⟩

/-- From the last keyed entity on, the elements are those of the compressed path. -/
theorem KeyedAt.tail_atKey (hk : p.KeyedAt model t k outer back) :
    (atKey t k outer.length back).drop 1 =
      (p.elements.drop (outer.length + 1)).map (PathElement.shiftParent outer.length) := by
  rw [hk.drop_elements]
  simp [atKey, PathElement.shiftParent]

private theorem KeyedAt.getElem?_atKey (hk : p.KeyedAt model t k outer back) (j : Nat) :
    (atKey t k outer.length back)[j + 1]? =
      p.elements[outer.length + (j + 1)]?.map (PathElement.shiftParent outer.length) := by
  have htail := congrArg (·[j]?) hk.tail_atKey
  simp only [List.getElem?_drop, List.getElem?_map] at htail
  rwa [Nat.add_comm 1 j, Nat.add_right_comm, Nat.add_assoc] at htail

private theorem KeyedAt.mainElement?_compress (hk : p.KeyedAt model t k outer back)
    (h : p.Formed model) :
    p.compress.mainElement? = p.mainElement?.map (PathElement.shiftParent outer.length) := by
  obtain ⟨j, hj, -⟩ := hk.exists_main h
  rw [hk.compress_eq h, mainElement?, mainElement?]
  simp only [hj, Nat.add_sub_cancel_left]
  exact hk.getElem?_atKey j

private theorem KeyedAt.isCollection_compress (hk : p.KeyedAt model t k outer back)
    (h : p.Formed model) :
    p.compress.isCollection = p.isCollection := by
  obtain ⟨navigation, parent, helements⟩ := hk.exists_elements
  obtain ⟨j, hj, -⟩ := hk.exists_main h
  have hlast : p.compress.mainIsLast = p.mainIsLast := by
    rw [hk.compress_eq h, mainIsLast, mainIsLast, decide_eq_decide, helements]
    simp only [atKey, List.length_cons, List.length_append, List.length_map]
    omega
  rw [isCollection, isCollection, hlast, hk.mainElement?_compress h, Option.map_map]
  congr 2
  cases p.mainElement? <;> simp

private theorem fits_of_getLast? {suffix : Option Suffix}
    (h : es.getLast?.map PathElement.isResource = es'.getLast?.map PathElement.isResource)
    (hfits : Suffix.Fits es suffix) : Suffix.Fits es' suffix := by
  cases suffix with
  | none => trivial
  | some suffix =>
    cases suffix <;> obtain ⟨e, he, hresource⟩ := hfits <;> rw [Option.mem_def.mp he] at h <;>
      obtain ⟨e', he', hsame⟩ := Option.map_eq_some_iff.mp h.symm <;>
      exact ⟨e', he', hsame.trans hresource⟩

/-- A compressed path is one that could have been read, if the set of its first entity can be
written. -/
theorem KeyedAt.formed_compress (hk : p.KeyedAt model t k outer back) (h : p.Formed model)
    (hset : model.entitySet? t.plural = some t) (hplural : IsName t.plural) :
    p.compress.Formed model := by
  obtain ⟨navigation, parent, helements⟩ := hk.exists_elements
  obtain ⟨last, hrun⟩ := hk.exists_run_shift
  obtain ⟨j, hj, hmain⟩ := hk.exists_main h
  have hcompress := hk.compress_eq h
  refine ⟨?_, ⟨last, ?_⟩, ?_, ?_⟩
  · rw [hcompress]
    exact List.cons_ne_nil _ _
  · rw [hcompress]
    exact .cons (.root hplural hset) (.cons (.key hk.kind) hrun)
  · rw [hcompress]
    refine fits_of_getLast? ?_ h.fits
    rw [helements]
    simp only [atKey, List.getLast?_append, List.getLast?_cons_cons]
    rcases List.eq_nil_or_concat back with rfl | ⟨front, e, rfl⟩
    · rfl
    · simp [List.getLast?_cons]
  · have htype : p.mainType = ((p.mainElement?.bind PathElement.entityType?).getD "") := by
      rw [h.eq_ofElements]
      rfl
    rw [hcompress, ofElements, hmain, htype, mainElement?, hj]
    simp [hk.getElem?_atKey, Option.bind_map]

/-- A compressed path has its keyed entity right behind the root, so it is compressed already. -/
theorem KeyedAt.compress_compress (hk : p.KeyedAt model t k outer back) (h : p.Formed model) :
    p.compress.compress = p.compress := by
  have hback : lastIndex? PathElement.isKeyed (back.map (PathElement.shiftParent outer.length)) =
      none := by
    rw [lastIndex?_map (PathElement.isKeyed_shiftParent outer.length)]
    exact lastIndex?_eq_none_iff.mpr hk.unkeyed
  have hidentified : p.compress.identified? = some 1 := by
    rw [hk.compress_eq h, identified?, atKey]
    simp only [lastIndex?, hback]
    rfl
  rw [compress, hidentified]
  rw [hk.compress_eq h]
  rfl

/-- Paths that agree from their last keyed entities on have one compressed form. -/
theorem KeyedAt.elements_compress_eq (hmodel : model.Finalized) {t' : EntityType} {k' : Key}
    {outer' back' : List PathElement} (hk : p.KeyedAt model t k outer back) (h : p.Formed model)
    (hk' : q.KeyedAt model t' k' outer' back') (h' : q.Formed model)
    (hsame : (p.elements.drop (outer.length + 1)).map PathElement.orphan =
      (q.elements.drop (outer'.length + 1)).map PathElement.orphan) :
    p.compress.elements = q.compress.elements := by
  rw [hk.drop_elements, hk'.drop_elements, List.map_cons, List.map_cons] at hsame
  obtain ⟨hentity, hback⟩ := List.cons.inj hsame
  simp only [PathElement.orphan, PathElement.entity.injEq, Option.some.injEq] at hentity
  obtain ⟨hname, rfl, -⟩ := hentity
  have htype : some t = some t' := by
    rw [← hmodel.entityType? hk.mem, ← hmodel.entityType? hk'.mem, hname]
  obtain rfl := Option.some.inj htype
  obtain ⟨last, hrun⟩ := hk.exists_run_shift
  obtain ⟨last', hrun'⟩ := hk'.exists_run_shift
  have horphans (offset : Nat) (es : List PathElement) :
      (es.map (PathElement.shiftParent offset)).map PathElement.orphan =
        es.map PathElement.orphan := by simp
  rw [hk.compress_eq h, hk'.compress_eq h', atKey, atKey,
    hrun.eq_of_orphans hrun' (by simp) (by simp) (by rw [horphans, horphans, hback])]

/-- A path without a keyed entity is not compressed. -/
theorem compress_of_identified?_eq_none (h : p.identified? = none) : p.compress = p := by
  rw [compress, h, Option.bind_none]

/-- A compressed path could have been read, if the sets of the model can be written. -/
theorem Formed.compress (h : p.Formed model) (hmodel : model.Finalized)
    (hplurals : ∀ t ∈ model.types, IsName t.plural) : p.compress.Formed model := by
  cases hi : p.identified? with
  | none => rwa [compress_of_identified?_eq_none hi]
  | some i =>
    obtain ⟨t, k, outer, back, hk⟩ := h.exists_keyedAt hi
    exact hk.formed_compress h (hmodel.entitySet? hk.mem) (hplurals t hk.mem)

end ResourcePath

/-- Compressing a path that was read gives its canonical form, if the sets of the model can be
written. No index falls below zero on the way, a compressed path is not compressed further, it keeps
what the path is about, and it is read from its text. What leads to the last keyed entity makes no
difference. -/
theorem compress_is_canonical (model : Registry) (hmodel : model.Finalized)
    (hplurals : ∀ t ∈ model.types, IsName t.plural) (root : String) (version : Version) (t : String)
    (p : ResourcePath) (h : ResourcePath.parse model root version t = .ok p) :
    (∀ start, (p.identified?.bind fun i ↦ p.elements[i]?.bind PathElement.parent?) = some start →
      start ≤ p.main ∧
        ∀ e ∈ p.elements.drop (start + 1), ∀ parent ∈ e.parent?, start ≤ parent) ∧
    p.compress.compress = p.compress ∧
    (p.compress.suffix = p.suffix ∧ p.compress.isCollection = p.isCollection ∧
      p.compress.mainType = p.mainType ∧
      p.compress.mainElement?.bind PathElement.key? = p.mainElement?.bind PathElement.key? ∧
      ∀ i, p.identified? = some i → p.compress.elements.drop 1 =
        (p.elements.drop i).map (PathElement.shiftParent (i - 1))) ∧
    (∃ p', ResourcePath.parse model root version (String.ofList p.compress.text) = .ok p' ∧
      p'.same p.compress = true) ∧
    ∀ (root' : String) (version' : Version) (t' : String) (q : ResourcePath),
      ResourcePath.parse model root' version' t' = .ok q →
      ∀ i j, p.identified? = some i → q.identified? = some j → p.suffix = q.suffix →
      (p.elements.drop i).map PathElement.orphan = (q.elements.drop j).map PathElement.orphan →
      p.compress.same q.compress = true := by
  have hp := ResourcePath.formed_of_parse h
  have hread := (hp.compress hmodel hplurals).exists_parse_text root version
  cases hi : p.identified? with
  | none =>
    -- Without a keyed entity nothing is dropped.
    have hsame := ResourcePath.compress_of_identified?_eq_none hi
    rw [hsame] at hread ⊢
    refine ⟨?_, hsame, ⟨rfl, rfl, rfl, rfl, ?_⟩, hread, ?_⟩
    · rintro start ⟨⟩
    · rintro i ⟨⟩
    · rintro root' version' t' q - i j ⟨⟩
  | some i =>
    obtain ⟨type, k, outer, back, hk⟩ := hp.exists_keyedAt hi
    obtain rfl : i = outer.length + 1 := Option.some.inj (hi.symm.trans hk.identified)
    have hcompress := hk.compress_eq hp
    obtain ⟨j, hmain, -⟩ := hk.exists_main hp
    refine ⟨?_, hk.compress_compress hp, ⟨?_, hk.isCollection_compress hp, ?_, ?_, ?_⟩, hread, ?_⟩
    · intro start hstart
      obtain ⟨navigation, parent, helements⟩ := hk.exists_elements
      obtain rfl : outer.length = start := by
        simpa [helements, PathElement.parent?] using hstart
      exact ⟨hmain ▸ Nat.le_add_right _ _, hk.le_parent⟩
    · rw [hcompress]
    · rw [hcompress]
    · rw [hk.mainElement?_compress hp]
      cases p.mainElement? <;> simp
    · rintro _ ⟨⟩
      rw [hcompress, Nat.add_sub_cancel]
      exact hk.tail_atKey
    · rintro root' version' t' q hq _ j' ⟨⟩ hj hsuffix hsame
      have hq := ResourcePath.formed_of_parse hq
      obtain ⟨type', k', outer', back', hk'⟩ := hq.exists_keyedAt hj
      obtain rfl : j' = outer'.length + 1 := Option.some.inj (hj.symm.trans hk'.identified)
      rw [(hp.compress hmodel hplurals).same_iff (hq.compress hmodel hplurals)]
      refine ⟨hk.elements_compress_eq hmodel hp hk' hq hsame, ?_⟩
      rw [hcompress, hk'.compress_eq hq, hsuffix]

/-- What `/Exhibits('o''b')/notes/a[2][3]/$value` is read as in the museum. -/
def Museum.directPath : ResourcePath where
  elements :=
    [.entitySet "Exhibit" "Exhibits" none none,
      .entity "Exhibit" (some (.string "o'b")) none (some 0), .property "notes" 1, .custom "a" 2,
      .index 2 3, .index 3 4]
  main := 1
  mainType := "Exhibit"
  suffix := some .value
  serviceRoot := "http://museum"
  version := .v1_1
  raw := "/Exhibits('o''b')/notes/a[2][3]/$value"

private theorem Museum.parse_directPath :
    ResourcePath.parse Museum.model directPath.serviceRoot directPath.version directPath.raw =
      .ok directPath := by
  decide +kernel

private theorem Museum.isName_plural : ∀ t ∈ Museum.model.types, IsName t.plural := by
  rintro _ (_ | ⟨_, _ | ⟨_, ⟨⟩⟩⟩) <;> exact ⟨⟨by decide, by decide⟩, by decide⟩

/-- The theorem at a path through a room and one to the same note from the root. -/
theorem museum_paths_compress :
    Museum.notePath.compress.compress = Museum.notePath.compress ∧
      Museum.notePath.compress.same Museum.directPath.compress = true := by
  obtain ⟨-, hcompress, -, -, hsame⟩ := compress_is_canonical Museum.model Museum.finalized
    Museum.isName_plural _ _ _ _ Museum.parse_notePath
  exact ⟨hcompress, hsame _ _ _ _ Museum.parse_directPath 3 1 rfl rfl rfl rfl⟩

end SensorQuery
