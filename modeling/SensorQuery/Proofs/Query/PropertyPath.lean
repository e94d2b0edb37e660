import SensorQuery.Query.PropertyPath
import SensorQuery.Proofs.Number.Numeral
import SensorQuery.Proofs.Query.Word

/-!
# Property paths read back

Sorting the names of a path by the model does not change its text, so a path is read back if its
steps are, as they were written (`RawStep.Written`). The text of the steps behind the first falls
apart into groups, a name with the indices behind it, which is how they are read.
-/

namespace SensorQuery

open Scanner

namespace Text

/-- The two parts and the separator between them make up the text. -/
theorem eq_of_cutAtLast? {sep : Char} {s front back : List Char}
    (h : cutAtLast? sep s = some (front, back)) : s = front ++ sep :: back := by
  induction s generalizing front with
  | nil => cases h
  | cons c s ih =>
    rw [cutAtLast?] at h
    cases hs : cutAtLast? sep s with
    | some p =>
      obtain ⟨a, b⟩ := p
      simp only [hs, Option.some.injEq, Prod.mk.injEq] at h
      obtain ⟨rfl, rfl⟩ := h
      rw [ih hs]
      rfl
    | none =>
      simp only [hs] at h
      split at h
      · next hc =>
        simp only [Option.some.injEq, Prod.mk.injEq] at h
        obtain ⟨rfl, rfl⟩ := h
        rw [hc]
        rfl
      · cases h

end Text

namespace RawStep

/-- A word that is read as a name is the alias of the key or a run of name characters. -/
def IsWord (w : List Char) : Prop :=
  w = PathStep.keyAlias.toList ∨ w ≠ [] ∧ ∀ c ∈ w, isNameChar c = true

/-- The step as it is written inside a path. -/
def innerText : RawStep → List Char
  | .name w => '/' :: w.toList
  | .index i => '[' :: Nat.toDigits 10 i.toNat ++ [']']

/-- The step stands for what its text is read as. -/
def Written : RawStep → Prop
  | .name w => IsWord w.toList ∧ ofName w.toList = .name w
  | .index _ => True

/-- The word of a step is a name or an index. -/
theorem ofName_eq (w : List Char) :
    ofName w = .name (String.ofList w) ∨ ∃ i, ofName w = .index i := by
  unfold ofName
  split
  · split
    · exact .inr ⟨_, rfl⟩
    · exact .inl rfl
  · exact .inl rfl

private theorem written_ofName {w : List Char} (h : IsWord w) : (ofName w).Written := by
  rcases ofName_eq w with hname | ⟨i, hindex⟩
  · rw [hname]
    refine ⟨?_, ?_⟩
    · rwa [String.toList_ofList]
    · rw [String.toList_ofList, hname]
  · rw [hindex]
    trivial

/-! ### Names and indices -/

/-- A word is read in front of a text that does not continue it. -/
theorem scanName_append {ε : Type} {w rest : List Char} (hw : IsWord w)
    (h : Stops isNameChar rest) :
    (scanName : Scanner ε (List Char)) (w ++ rest) = .found w rest := by
  unfold scanName
  rcases hw with rfl | ⟨hne, hw⟩
  · apply orElse_found
    rw [bind_found (exactly_append _ rest)]
    rfl
  · rw [orElse_missed]
    · exact run1_append hne hw h
    · apply bind_missed
      cases w with
      | nil => exact absurd rfl hne
      | cons c w =>
        have hc : isNameChar c = true := hw c List.mem_cons_self
        apply exactly_missed_of_stops
        rw [List.cons_append, stops_cons, beq_eq_false_iff_ne]
        rintro rfl
        exact absurd hc (by decide)

/-- What is read as a name is the alias of the key or the longest run of name characters. -/
theorem scanName_eq_found {ε : Type} {s w rest : List Char}
    (h : (scanName : Scanner ε (List Char)) s = .found w rest) :
    s = w ++ rest ∧ IsWord w ∧ (w = PathStep.keyAlias.toList ∨ Stops isNameChar rest) := by
  rcases orElse_eq_found.mp h with h | ⟨-, h⟩
  · obtain ⟨_, mid, hexactly, h⟩ := bind_eq_found.mp h
    cases h
    exact ⟨exactly_eq_found.mp hexactly, .inl rfl, .inl rfl⟩
  · obtain ⟨hs, hne, hw, hstops⟩ := run1_eq_found.mp h
    exact ⟨hs, .inr ⟨hne, hw⟩, .inr hstops⟩

private theorem scanIndex_append {ε : Type} (i : UInt64) (rest : List Char) :
    (scanIndex : Scanner ε RawStep) ((RawStep.index i).innerText ++ rest) =
      .found (.index i) rest := by
  unfold scanIndex innerText
  simp only [List.cons_append, List.append_assoc, List.nil_append]
  rw [bind_found (char_cons '[' _), bind_found (digits_append Nat.toDigits_ne_nil
    (Numeral.isDigit_toDigits _) ((stops_cons _ _ _).mpr (by decide))), Numeral.uint64?_toDigits,
    bind_found (ofOption_some i _), bind_found (char_cons ']' rest)]
  rfl

/-- There is no index where no bracket opens. -/
theorem scanIndex_missed {ε : Type} {s : List Char} (h : Stops (· == '[') s) :
    (scanIndex : Scanner ε RawStep) s = .missed := bind_missed (char_missed h)

private theorem exists_of_scanIndex {ε : Type} {s rest : List Char} {r : RawStep}
    (h : (scanIndex : Scanner ε RawStep) s = .found r rest) : ∃ i, r = .index i := by
  obtain ⟨_, _, _, h⟩ := bind_eq_found.mp h
  obtain ⟨_, _, _, h⟩ := bind_eq_found.mp h
  obtain ⟨i, _, _, h⟩ := bind_eq_found.mp h
  obtain ⟨_, _, _, h⟩ := bind_eq_found.mp h
  cases h
  exact ⟨i, rfl⟩

/-! ### Groups -/

/-- What may follow a path: nothing that a name, an index or another step could begin with. -/
structure Follows (rest : List Char) : Prop where
  name : Stops isNameChar rest
  index : Stops (· == '[') rest
  step : Stops (· == '/') rest

/-- What ends an expression follows a path. -/
theorem follows_of_ends {rest : List Char} (h : Ends rest) : Follows rest :=
  ⟨h.stops (by decide), h.stops (by decide),
    h.stops (by decide)⟩

-- The steps that a text is made of fall apart into the indices at its front and groups of a name
-- with the indices behind it, and are read in these pieces.
private structure Grouped (ε : Type) (raws : List RawStep) (s rest : List Char)
    (indices : List RawStep) (groups : List (List RawStep)) (mid : List Char) : Prop where
  eq : raws = indices ++ groups.flatten
  front : (many scanIndex : Scanner ε (List RawStep)) s = .found indices mid
  suffix : mid <:+ s
  back : Chain (do char '/'; scanNamed : Scanner ε (List RawStep)) groups mid rest
  length : groups.length ≤ mid.length

/-- Behind the first name of a path comes an index, another name, or what follows the path. -/
theorem stops_inner {p : Char → Bool} {raws : List RawStep} {rest : List Char}
    (hindex : p '[' = false) (hstep : p '/' = false) (h : Stops p rest) :
    Stops p (raws.flatMap innerText ++ rest) := by
  cases raws with
  | nil => exact h
  | cons r raws =>
    cases r with
    | index i => exact (stops_cons _ _ _).mpr hindex
    | name w => exact (stops_cons _ _ _).mpr hstep

private theorem scanNamed_append {ε : Type} {w : String} (hw : (RawStep.name w).Written)
    {indices : List RawStep} {s mid : List Char} (hs : Stops isNameChar s)
    (h : (many scanIndex : Scanner ε (List RawStep)) s = .found indices mid) :
    (do char '/'; scanNamed : Scanner ε (List RawStep)) ((RawStep.name w).innerText ++ s) =
      .found (.name w :: indices) mid := by
  unfold innerText scanNamed
  rw [List.cons_append, bind_found (char_cons '/' _), bind_found (scanName_append hw.1 hs),
    bind_found h, hw.2]
  rfl

private theorem exists_grouped {ε : Type} {raws : List RawStep} (h : ∀ r ∈ raws, r.Written)
    {rest : List Char} (hrest : Follows rest) : ∃ indices groups mid,
      Grouped ε raws (raws.flatMap innerText ++ rest) rest indices groups mid ∧
        (scanIndex : Scanner ε RawStep) mid = .missed := by
  induction raws with
  | nil =>
    have hmissed : (scanIndex : Scanner ε RawStep) rest = .missed := scanIndex_missed hrest.index
    exact ⟨[], [], rest, ⟨rfl, many_nil_of_missed hmissed, List.suffix_refl rest, .nil rest,
      Nat.zero_le _⟩, hmissed⟩
  | cons r raws ih =>
    obtain ⟨hr, hraws⟩ := List.forall_mem_cons.mp h
    obtain ⟨indices, groups, mid, hgrouped, hmissed⟩ := ih hraws
    have htext : (r :: raws).flatMap innerText ++ rest =
        r.innerText ++ (raws.flatMap innerText ++ rest) := by
      rw [List.flatMap_cons, List.append_assoc]
    rw [htext]
    cases r with
    | index i =>
      refine ⟨.index i :: indices, groups, mid, ⟨?_, ?_, ?_, hgrouped.back, hgrouped.length⟩,
        hmissed⟩
      · rw [hgrouped.eq]
        rfl
      · apply many_of_chain (.cons (scanIndex_append i _) (chain_of_many hgrouped.front)) hmissed
        have hlength := length_le_of_many hgrouped.front
        simp only [innerText, List.length_cons, List.length_append] at hlength ⊢
        omega
      · exact hgrouped.suffix.trans (List.suffix_append _ _)
    | name w =>
      have hstops : Stops isNameChar (raws.flatMap innerText ++ rest) :=
        stops_inner (by decide) (by decide) hrest.name
      have hindex : (scanIndex : Scanner ε RawStep)
          ((RawStep.name w).innerText ++ (raws.flatMap innerText ++ rest)) = .missed :=
        scanIndex_missed ((stops_cons _ _ _).mpr (by decide))
      refine ⟨[], (.name w :: indices) :: groups, _, ⟨?_, many_nil_of_missed hindex,
        List.suffix_refl _, .cons (scanNamed_append hr hstops hgrouped.front) hgrouped.back, ?_⟩,
        hindex⟩
      · rw [hgrouped.eq]
        rfl
      · have hmid := hgrouped.suffix.length_le
        have hlength := hgrouped.length
        simp only [innerText, List.length_cons, List.length_append] at hmid hlength ⊢
        omega

/-- The first name of a path begins with a letter, an underscore or as the alias of the key. -/
def IsFirst (w : List Char) : Prop := (w.head?.map isFirstChar).getD false = true

/-- A word with a letter in front may be the first of a path. -/
theorem isFirst_of_letter {w : List Char} (h : ∃ c ∈ w.head?, Text.isAlphabetic c = true) :
    IsFirst w := by
  obtain ⟨c, hhead, hc⟩ := h
  rw [IsFirst, Option.mem_def.mp hhead]
  simp [isFirstChar, hc]

/-- The first name of a path does not begin with a digit. -/
theorem IsFirst.stops_isDigit {w : List Char} (h : IsFirst w) : Stops Char.isDigit w := by
  cases w with
  | nil => simp
  | cons c w =>
    rw [stops_cons]
    cases hc : c.isDigit with
    | false => rfl
    | true =>
      simp only [IsFirst, List.head?_cons, Option.map_some, Option.getD_some, isFirstChar,
        isAlphabetic_of_isDigit c hc, Bool.false_or, Bool.or_eq_true, beq_iff_eq] at h
      rcases h with rfl | rfl <;> simp at hc

/-- A run of name characters is not the alias of the key. -/
theorem ne_keyAlias {name : String} (h : ∀ c ∈ name.toList, isNameChar c = true) :
    name ≠ PathStep.keyAlias := by
  rintro rfl
  exact absurd (h '@' List.mem_cons_self) (by decide)

/-- A path is read as the steps it is written for. -/
theorem scanPath_append {ε : Type} {w : String} {raws : List RawStep} (hfirst : IsFirst w.toList)
    (hw : (RawStep.name w).Written) (hraws : ∀ r ∈ raws, r.Written) {rest : List Char}
    (hrest : Follows rest) :
    (scanPath : Scanner ε (List RawStep)) (w.toList ++ (raws.flatMap innerText ++ rest)) =
      .found (.name w :: raws) rest := by
  obtain ⟨indices, groups, mid, hgrouped, -⟩ := exists_grouped (ε := ε) hraws hrest
  have hgroups : (many (do char '/'; scanNamed) : Scanner ε (List (List RawStep))) mid =
      .found groups rest :=
    many_of_chain hgrouped.back (bind_missed (char_missed hrest.step)) hgrouped.length
  unfold IsFirst at hfirst
  unfold scanPath
  rw [bind_found (scanName_append hw.1 (stops_inner (by decide) (by decide) hrest.name)),
    if_pos hfirst, bind_found hgrouped.front]
  refine (bind_found hgroups).trans ?_
  rw [hw.2, hgrouped.eq]
  rfl

private theorem written_of_indices {ε : Type} {s rest : List Char} {indices : List RawStep}
    (h : (many scanIndex : Scanner ε (List RawStep)) s = .found indices rest) :
    ∀ r ∈ indices, r.Written := by
  refine (chain_of_many h).forall_mem ?_
  intro s r rest hr
  obtain ⟨i, rfl⟩ := exists_of_scanIndex hr
  trivial

private theorem written_of_scanNamed {ε : Type} {s rest : List Char} {raws : List RawStep}
    (h : (scanNamed : Scanner ε (List RawStep)) s = .found raws rest) : ∀ r ∈ raws, r.Written := by
  obtain ⟨w, _, hw, h⟩ := bind_eq_found.mp h
  obtain ⟨indices, _, hindices, h⟩ := bind_eq_found.mp h
  cases h
  exact List.forall_mem_cons.mpr
    ⟨written_ofName (scanName_eq_found hw).2.1, written_of_indices hindices⟩

/-- What is read as a path begins with a name and goes on with steps as they are written. -/
theorem exists_of_scanPath {ε : Type} {s rest : List Char} {raws : List RawStep}
    (h : (scanPath : Scanner ε (List RawStep)) s = .found raws rest) : ∃ w more t,
      IsFirst w ∧ IsWord w ∧ raws = ofName w :: more ∧ (∀ r ∈ more, r.Written) ∧ s = w ++ t ∧
        (w = PathStep.keyAlias.toList ∨ Stops isNameChar t) := by
  obtain ⟨w, mid, hname, h⟩ := bind_eq_found.mp h
  obtain ⟨hs, hw, hstops⟩ := scanName_eq_found hname
  split at h
  · next hfirst =>
    obtain ⟨indices, mid', hindices, h⟩ := bind_eq_found.mp h
    obtain ⟨groups, _, hgroups, h⟩ := bind_eq_found.mp h
    cases h
    refine ⟨w, indices ++ groups.flatten, mid, hfirst, hw, rfl, ?_, hs, hstops⟩
    intro r hr
    rcases List.mem_append.mp hr with hr | hr
    · exact written_of_indices hindices r hr
    · obtain ⟨g, hg, hr⟩ := List.mem_flatten.mp hr
      have hgroup : ∀ g ∈ groups, ∀ r ∈ g, r.Written := by
        refine (chain_of_many hgroups).forall_mem ?_
        intro s g rest hg
        obtain ⟨_, _, _, hnamed⟩ := bind_eq_found.mp hg
        exact written_of_scanNamed hnamed
      exact hgroup g hg r hr
  · cases h

/-- Behind the first name of a path comes an index, another name, or what follows the path. -/
theorem exists_scanName_of_scanPath {ε : Type} {p : Char → Bool} (hindex : p '[' = false)
    (hstep : p '/' = false) {s rest : List Char} {raws : List RawStep}
    (h : (scanPath : Scanner ε (List RawStep)) s = .found raws rest) (hrest : Stops p rest) :
    ∃ w t, (scanName : Scanner ε (List Char)) s = .found w t ∧ Stops p t := by
  obtain ⟨w, mid, hname, h⟩ := bind_eq_found.mp h
  refine ⟨w, mid, hname, ?_⟩
  split at h
  · obtain ⟨indices, mid', hindices, h⟩ := bind_eq_found.mp h
    obtain ⟨groups, _, hgroups, h⟩ := bind_eq_found.mp h
    cases h
    have hmid' : Stops p mid' := by
      refine (chain_of_many hgroups).stops (fun s g rest hg ↦ ?_) hrest
      obtain ⟨_, _, hslash, -⟩ := bind_eq_found.mp hg
      rw [char_eq_found.mp hslash, stops_cons]
      exact hstep
    refine (chain_of_many hindices).stops (fun s i rest hi ↦ ?_) hmid'
    obtain ⟨_, _, hbracket, -⟩ := bind_eq_found.mp hi
    rw [char_eq_found.mp hbracket, stops_cons]
    exact hindex
  · cases h

private theorem scanName_missed {ε : Type} {s : List Char} (hname : Stops isNameChar s)
    (halias : Stops (· == '@') s) : (scanName : Scanner ε (List Char)) s = .missed := by
  unfold scanName
  rw [orElse_missed]
  · exact run1_missed hname
  · exact bind_missed (exactly_missed_of_stops halias)

end RawStep

namespace PropertyPath

/-- There is no path where neither a name nor an alias begins. -/
theorem scan_missed_of_stops {ctx : Context} {s : List Char} (hname : Stops RawStep.isNameChar s)
    (halias : Stops (· == '@') s) : scan ctx s = .missed :=
  bind_missed (bind_missed (RawStep.scanName_missed hname halias))

/-- A link by name has its parts around the last dot, and its target is an entity type. -/
theorem customLink?_eq_some {model : Registry} {name link target : String}
    (h : customLink? model name = some (link, target)) :
    name.toList = link.toList ++ '.' :: target.toList ∧
      ∃ t, model.entityType? target = some t := by
  unfold customLink? at h
  cases hcut : Text.cutAtLast? '.' name.toList with
  | none => simp [hcut] at h
  | some parts =>
    obtain ⟨front, back⟩ := parts
    simp only [hcut] at h
    split at h
    · cases h
    · next hknown =>
      simp only [Option.some.injEq, Prod.mk.injEq] at h
      obtain ⟨rfl, rfl⟩ := h
      rw [Bool.or_eq_true, not_or, Option.isNone_iff_eq_none] at hknown
      exact ⟨by rw [Text.eq_of_cutAtLast? hcut, String.toList_ofList, String.toList_ofList],
        Option.ne_none_iff_exists'.mp hknown.2⟩

/-- What sorting a step can come to. Against an entity, a name is the alias of the key, or the name
of a link, or that of a value. Against a value, it is a link where links are on and it has the form
of one, and else a part of the value. Nothing can stand behind the key. -/
inductive Classified (ctx : Context) : Position → RawStep → PathStep → Position → Prop where
  | primaryKey : Classified ctx .entity (.name PathStep.keyAlias) .primaryKey .key
  | navigation {name : String} (notAlias : name ≠ PathStep.keyAlias)
    (link : ctx.model.isNavigationName name = true) :
    Classified ctx .entity (.name name) (.navigation name) .entity
  | property {name : String} (notAlias : name ≠ PathStep.keyAlias)
    (notLink : ctx.model.isNavigationName name = false)
    (value : ctx.model.isEntityPropertyName name = true) :
    Classified ctx .entity (.name name) (.property name) .value
  | customLink {name link target : String} (on : ctx.customLinks = true)
    (parts : customLink? ctx.model name = some (link, target)) :
    Classified ctx .value (.name name) (.customLink link target) .entity
  | custom {name : String}
    (notLink : (if ctx.customLinks then customLink? ctx.model name else none) = none) :
    Classified ctx .value (.name name) (.custom name) .value
  | index (i : UInt64) : Classified ctx .value (.index i) (.index i) .value

section Classified

variable {ctx : Context} {position next : Position} {raw : RawStep} {step : PathStep}

private theorem classified_of_stepOfEntity {name : String}
    (h : stepOfEntity ctx name = .ok (step, next)) :
    Classified ctx .entity (.name name) step next := by
  unfold stepOfEntity at h
  split at h
  · next halias =>
    cases h
    exact halias ▸ .primaryKey
  next halias =>
  split at h
  · next hlink =>
    cases h
    exact .navigation halias hlink
  next hlink =>
  split at h
  · next hvalue =>
    cases h
    exact .property halias (Bool.not_eq_true _ ▸ hlink) hvalue
  · cases h

private theorem classified_of_stepOfValue {name : String}
    (h : stepOfValue ctx name = (step, next)) : Classified ctx .value (.name name) step next := by
  unfold stepOfValue at h
  split at h
  · next link target hparts =>
    cases h
    split at hparts
    · next hon => exact .customLink hon hparts
    · cases hparts
  · next hparts =>
    cases h
    exact .custom hparts

/-- The six cases are all that sorting a step comes to, and each is what it comes to. -/
theorem classifyStep_eq_ok_iff :
    classifyStep ctx position raw = .ok (step, next) ↔ Classified ctx position raw step next := by
  constructor
  · intro h
    cases position with
    | entity =>
      cases raw with
      | name name => exact classified_of_stepOfEntity h
      | index i => cases h
    | value =>
      cases raw with
      | name name => exact classified_of_stepOfValue (Except.ok.inj h)
      | index i =>
        cases h
        exact .index i
    | key => cases h
  · intro h
    cases h with
    | primaryKey => rfl
    | navigation notAlias link =>
      simp only [classifyStep, stepOfEntity, notAlias, link, ite_false, ite_true]
    | property notAlias notLink value =>
      simp only [classifyStep, stepOfEntity, notAlias, notLink, value, Bool.false_eq_true,
        ite_false, ite_true]
    | customLink on parts => simp only [classifyStep, stepOfValue, on, ite_true, parts]
    | custom notLink => simp only [classifyStep, stepOfValue, notLink]
    | index i => rfl

private theorem Classified.innerText_eq (h : Classified ctx position raw step next) :
    step.innerText = raw.innerText := by
  cases h with
  | customLink on parts => exact congrArg ('/' :: ·) (customLink?_eq_some parts).1.symm
  | _ => rfl

end Classified

/-- The steps that a list of steps is sorted into are sorted one by one. -/
theorem classify_cons {ctx : Context} {position : Position} {raw : RawStep}
    {raws : List RawStep} {steps : List PathStep}
    (h : classify ctx position (raw :: raws) = .ok steps) : ∃ p more,
      classifyStep ctx position raw = .ok p ∧ classify ctx p.2 raws = .ok more ∧
        steps = p.1 :: more := by
  rw [classify] at h
  cases hstep : classifyStep ctx position raw with
  | error e =>
    rw [hstep] at h
    cases h
  | ok p =>
    cases hmore : classify ctx p.2 raws with
    | error e =>
      simp only [hstep, bind, Except.bind, hmore] at h
      cases h
    | ok more =>
      simp only [hstep, bind, Except.bind, hmore, pure, Except.pure, Except.ok.injEq] at h
      exact ⟨p, more, rfl, hmore, h.symm⟩

private theorem classify_text {ctx : Context} {position : Position} {raws : List RawStep}
    {steps : List PathStep} (h : classify ctx position raws = .ok steps) :
    steps.flatMap PathStep.innerText = raws.flatMap RawStep.innerText := by
  induction raws generalizing position steps with
  | nil =>
    cases h
    rfl
  | cons raw raws ih =>
    obtain ⟨p, more, hstep, hmore, rfl⟩ := classify_cons h
    have htext := (classifyStep_eq_ok_iff.mp hstep).innerText_eq
    rw [List.flatMap_cons, List.flatMap_cons, htext, ih hmore]

/-- The path is sorted from a first name and steps that are read as they are written. -/
structure Sorted (ctx : Context) (p : PropertyPath) (w : String) (more : List RawStep) : Prop where
  name : (RawStep.name w).Written
  others : ∀ r ∈ more, r.Written
  sorted : classify ctx .entity (.name w :: more) = .ok p.steps

/-- The path is sorted from steps that can be read as a path. -/
structure Formed (ctx : Context) (p : PropertyPath) (w : String) (more : List RawStep) : Prop
    extends p.Sorted ctx w more where
  first : RawStep.IsFirst w.toList

/-- The text of a path is that of the steps it was sorted from. -/
theorem Sorted.text_eq {ctx : Context} {p : PropertyPath} {w : String} {more : List RawStep}
    (h : p.Sorted ctx w more) : p.text = w.toList ++ more.flatMap RawStep.innerText := by
  obtain ⟨⟨step, next⟩, steps, hstep, hmore, hsteps⟩ := classify_cons h.sorted
  have hinner := classify_text hmore
  obtain ⟨psteps⟩ := p
  cases hsteps
  unfold text
  cases classifyStep_eq_ok_iff.mp hstep <;> exact congrArg (_ ++ ·) hinner

/-- A path is read back from its text. -/
theorem Formed.scan_text {ctx : Context} {p : PropertyPath} {w : String} {more : List RawStep}
    (h : p.Formed ctx w more) {rest : List Char} (hrest : RawStep.Follows rest) :
    scan ctx (p.text ++ rest) = .found p rest := by
  unfold scan
  rw [h.text_eq, List.append_assoc,
    bind_found (RawStep.scanPath_append h.first h.name h.others hrest), h.sorted,
    bind_found (ofExcept_ok p.steps rest)]
  rfl

/-- An initial letter is not a digit. -/
theorem ofName_of_isFirst {w : List Char} (h : RawStep.IsFirst w) :
    RawStep.ofName w = .name (String.ofList w) := by
  have hdigit : w.all Char.isDigit = false := by
    cases w with
    | nil => cases h
    | cons c w =>
      rw [List.all_cons, (stops_cons _ _ _).mp h.stops_isDigit, Bool.false_and]
  rw [RawStep.ofName, hdigit]
  rfl

/-- A path that is read is sorted from steps as they are written, the first of which is all that
the text could be read as there. -/
theorem exists_of_scan {ctx : Context} {s rest : List Char} {p : PropertyPath}
    (h : scan ctx s = .found p rest) : ∃ w more t, p.Formed ctx w more ∧ s = w.toList ++ t ∧
      (w = PathStep.keyAlias ∨ Stops RawStep.isNameChar t) := by
  obtain ⟨raws, mid, hraws, h⟩ := bind_eq_found.mp h
  obtain ⟨steps, _, hsteps, h⟩ := bind_eq_found.mp h
  cases h
  obtain ⟨w, more, t, hfirst, hw, rfl, hmore, hs, hstops⟩ := RawStep.exists_of_scanPath hraws
  obtain ⟨hsorted, -⟩ := ofExcept_eq_found.mp hsteps
  have hwritten := RawStep.written_ofName hw
  rw [ofName_of_isFirst hfirst] at hsorted hwritten
  refine ⟨String.ofList w, more, t, ⟨⟨hwritten, hmore, hsorted⟩, ?_⟩, ?_, ?_⟩
  · rwa [String.toList_ofList]
  · rwa [String.toList_ofList]
  · exact hstops.imp (fun halias ↦ by rw [halias, String.ofList_toList]) id

/-- A character that may stand in a path. -/
def isPathChar (c : Char) : Bool := RawStep.isNameChar c || ['@', '/', '[', ']'].contains c

private theorem isPathChar_of_isWord {w : List Char} (h : RawStep.IsWord w) :
    ∀ c ∈ w, isPathChar c = true := by
  rcases h with rfl | ⟨-, h⟩
  · exact List.all_eq_true.mp (by decide)
  · intro c hc
    rw [isPathChar, h c hc, Bool.true_or]

private theorem isPathChar_of_written {r : RawStep} (h : r.Written) :
    ∀ c ∈ r.innerText, isPathChar c = true := by
  intro c hc
  cases r with
  | name w =>
    rcases List.mem_cons.mp hc with rfl | hc
    · decide
    · exact isPathChar_of_isWord h.1 c hc
  | index i =>
    rcases List.mem_append.mp hc with hc | hc
    · rcases List.mem_cons.mp hc with rfl | hc
      · decide
      · rw [isPathChar, RawStep.isNameChar_of_isDigit c (Numeral.isDigit_toDigits _ c hc),
          Bool.true_or]
    · rw [List.mem_singleton] at hc
      rw [hc]
      decide

/-- The text of a path consists of names, slashes and indices. -/
theorem Sorted.isPathChar_text {ctx : Context} {p : PropertyPath} {w : String}
    {more : List RawStep} (h : p.Sorted ctx w more) : ∀ c ∈ p.text, isPathChar c = true := by
  intro c hc
  rw [h.text_eq] at hc
  rcases List.mem_append.mp hc with hc | hc
  · exact isPathChar_of_isWord h.name.1 c hc
  · obtain ⟨r, hr, hc⟩ := List.mem_flatMap.mp hc
    exact isPathChar_of_written (h.others r hr) c hc

/-- A path is made of the characters of paths. -/
theorem within_scanPath {ε : Type} :
    Within isPathChar (RawStep.scanPath : Scanner ε (List RawStep)) := by
  have hname : Within isPathChar (RawStep.scanName : Scanner ε (List Char)) :=
    .orElse (.bind (.exactly (List.all_eq_true.mp (by decide))) fun _ ↦ .pure _)
      (.run1 fun c hc ↦ by rw [isPathChar, hc, Bool.true_or])
  have hdigits : Within isPathChar (digits : Scanner ε (List Char)) :=
    .run1 fun c hc ↦ by rw [isPathChar, RawStep.isNameChar_of_isDigit c hc, Bool.true_or]
  have hindex : Within isPathChar (RawStep.scanIndex : Scanner ε RawStep) :=
    .bind (.char (by decide)) fun _ ↦ .bind hdigits fun _ ↦ .bind (.ofOption _) fun _ ↦
      .bind (.char (by decide)) fun _ ↦ .pure _
  have hindices : Within isPathChar (many RawStep.scanIndex : Scanner ε (List RawStep)) :=
    .many hindex (Within.moves_char fun _ ↦ .bind hdigits fun _ ↦ .bind (.ofOption _) fun _ ↦
      .bind (.char (by decide)) fun _ ↦ .pure _)
  have hnamed : Within isPathChar (RawStep.scanNamed : Scanner ε (List RawStep)) :=
    .bind hname fun _ ↦ .bind hindices fun _ ↦ .pure _
  refine .bind hname fun name ↦ ?_
  split
  · exact .bind hindices fun _ ↦ .bind (.many (.bind (.char (by decide)) fun _ ↦ hnamed)
      (Within.moves_char fun _ ↦ hnamed)) fun _ ↦ .pure _
  · exact .miss

/-- A path is read from names, slashes and indices. -/
theorem exists_of_scan_eq {ctx : Context} {s rest : List Char} {p : PropertyPath}
    (h : scan ctx s = .found p rest) : ∃ w, s = w ++ rest ∧ ∀ c ∈ w, isPathChar c = true := by
  obtain ⟨raws, mid, hraws, h⟩ := bind_eq_found.mp h
  obtain ⟨steps, _, hsteps, h⟩ := bind_eq_found.mp h
  obtain ⟨-, rfl⟩ := ofExcept_eq_found.mp hsteps
  cases h
  exact within_scanPath.reads hraws

end PropertyPath

end SensorQuery
