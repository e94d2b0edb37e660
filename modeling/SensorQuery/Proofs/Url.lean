import Mathlib.Data.List.DropRight
import SensorQuery.Request
import SensorQuery.Proofs.Fallible
import SensorQuery.Proofs.Query.Pieces
import SensorQuery.Proofs.Path.Addressed

/-!
# The parts of a URL

A URL of a request is the stem of the service root, a slash, the version, the path and, behind a
question mark, the query (`RequestTarget.Spells`). The parts are found in one way only, and a URL is
read as the request of its parts; what is no stem with a slash behind it lies outside the root.
-/

namespace SensorQuery

open Fallible

/-- A word is dropped from a text that begins with it. -/
theorem Query.dropWord?_eq_some_iff {w s t : List Char} :
    dropWord? w s = some t ↔ s = w ++ t := by
  unfold dropWord?
  constructor
  · intro h
    split at h
    · next hw =>
      obtain ⟨u, rfl⟩ := List.isPrefixOf_iff_prefix.mp hw
      rw [List.drop_left] at h
      rw [Option.some.inj h]
    · cases h
  · rintro rfl
    simp

namespace RequestTarget

/-- What is left of a service root without the slashes at its end. -/
structure IsStem (stem root : List Char) : Prop where
  bare : stem.getLast? ≠ some '/'
  slashes : ∃ n, root = stem ++ List.replicate n '/'

/-- The URL lies below the service root, and `below` is what follows the slash behind the stem. -/
def IsBelow (below : List Char) (serviceRoot url : String) : Prop :=
  ∃ stem, IsStem stem serviceRoot.toList ∧ url.toList = stem ++ '/' :: below

/-- The URL is made up of the parts: first the version, then the path, which is empty or begins with
a slash and has no question mark in it, then the query behind a question mark, or no query. -/
structure Spells (t : RequestTarget) (serviceRoot url : String) : Prop where
  path : ∀ c ∈ t.path.toList.head?, c = '/'
  unmarked : '?' ∉ t.path.toList
  parts : ∃ tail, IsBelow (t.version.toList ++ t.path.toList ++ tail) serviceRoot url ∧
    (tail = [] ∧ t.query = "" ∨ tail = '?' :: t.query.toList)

/-! ### The stem of a service root -/

private theorem trimSlashes_replicate (s : List Char) (n : Nat) :
    trimSlashes (s ++ List.replicate n '/') = trimSlashes s := by
  induction n with
  | zero => simp
  | succ n ih =>
    rw [List.replicate_succ', ← List.append_assoc]
    exact (List.rdropWhile_concat_pos (· == '/') _ '/' rfl).trans ih

private theorem isStem_trimSlashes (s : List Char) : IsStem (trimSlashes s) s := by
  induction s using List.reverseRecOn with
  | nil => exact ⟨nofun, 0, rfl⟩
  | append_singleton s c ih =>
    by_cases hc : c = '/'
    · obtain ⟨hbare, n, hn⟩ := ih
      have htrim : trimSlashes (s ++ [c]) = trimSlashes s := by
        rw [hc]
        exact trimSlashes_replicate s 1
      rw [htrim]
      refine ⟨hbare, n + 1, ?_⟩
      rw [List.replicate_succ', ← List.append_assoc, ← hn, hc]
    · have htrim : trimSlashes (s ++ [c]) = s ++ [c] :=
        List.rdropWhile_concat_neg (· == '/') s c (by simpa using hc)
      rw [htrim]
      exact ⟨by simpa using hc, 0, by simp⟩

/-- A service root has one stem. -/
theorem isStem_iff {stem s : List Char} : IsStem stem s ↔ stem = trimSlashes s := by
  constructor
  · rintro ⟨hbare, n, rfl⟩
    rw [trimSlashes_replicate]
    refine (List.rdropWhile_eq_self_iff.mpr fun hne hslash ↦ hbare ?_).symm
    rw [List.getLast?_eq_some_getLast hne, beq_iff_eq.mp hslash]
  · rintro rfl
    exact isStem_trimSlashes s

/-! ### The parts of a target -/

/-- A version ends at the first slash. -/
theorem splitVersion_eq_iff {s version path : List Char} :
    splitVersion s = (version, path) ↔
      s = version ++ path ∧ '/' ∉ version ∧ ∀ c ∈ path.head?, c = '/' := by
  rw [splitVersion, Prod.mk.injEq]
  constructor
  · rintro ⟨rfl, rfl⟩
    refine ⟨List.takeWhile_append_dropWhile.symm, fun hmem ↦ ?_, fun c hc ↦ ?_⟩
    · simpa using List.all_eq_true.mp List.all_takeWhile _ hmem
    · simpa using Scanner.stops_dropWhile (· != '/') s c hc
  · rintro ⟨rfl, hversion, hpath⟩
    have hclass : ∀ c ∈ version, (c != '/') = true := fun c hc ↦
      bne_iff_ne.mpr (ne_of_mem_of_not_mem hc hversion)
    have hstops : Scanner.Stops (· != '/') path := fun c hc ↦ by simp [hpath c hc]
    exact ⟨Scanner.takeWhile_append_of_stops hclass hstops,
      Scanner.dropWhile_append_of_stops hclass hstops⟩

/-- A query begins behind the first question mark. -/
theorem cutQuery_eq_iff {s target query : List Char} :
    (Text.cutAt? '?' s).getD (s, []) = (target, query) ↔ '?' ∉ target ∧
      ∃ tail, s = target ++ tail ∧ (tail = [] ∧ query = [] ∨ tail = '?' :: query) := by
  constructor
  · intro h
    by_cases hmem : '?' ∈ s
    · obtain ⟨front, back, rfl, hfront⟩ := List.eq_append_cons_of_mem hmem
      rw [Text.cutAt?_append hfront] at h
      cases h
      exact ⟨hfront, _, rfl, .inr rfl⟩
    · rw [Text.cutAt?_eq_none hmem] at h
      cases h
      exact ⟨hmem, [], (List.append_nil s).symm, .inl ⟨rfl, rfl⟩⟩
  · rintro ⟨htarget, tail, rfl, ⟨rfl, rfl⟩ | rfl⟩
    · rw [List.append_nil, Text.cutAt?_eq_none htarget]
      rfl
    · rw [Text.cutAt?_append htarget]
      rfl

/-- The parts of what lies below a service root. -/
def ofBelow (rest : List Char) : RequestTarget :=
  let cut := (Text.cutAt? '?' rest).getD (rest, [])
  let parts := splitVersion cut.1
  ⟨String.ofList parts.1, String.ofList parts.2, String.ofList cut.2⟩

private theorem ofBelow_eq_iff {rest : List Char} {t : RequestTarget} :
    ofBelow rest = t ↔ ∃ tail, rest = t.version.toList ++ t.path.toList ++ tail ∧
      (tail = [] ∧ t.query = "" ∨ tail = '?' :: t.query.toList) ∧
      ('/' ∉ t.version.toList ∧ '?' ∉ t.version.toList) ∧
      (∀ c ∈ t.path.toList.head?, c = '/') ∧ '?' ∉ t.path.toList := by
  obtain ⟨version, path, query⟩ := t
  constructor
  · intro h
    cases hcut : (Text.cutAt? '?' rest).getD (rest, []) with
    | mk target query' =>
    cases hparts : splitVersion target with
    | mk version' path' =>
    obtain ⟨hmark, tail, hrest, htail⟩ := cutQuery_eq_iff.mp hcut
    obtain ⟨rfl, hslash, hpath⟩ := splitVersion_eq_iff.mp hparts
    simp only [ofBelow, hcut, hparts, mk.injEq] at h
    obtain ⟨rfl, rfl, rfl⟩ := h
    rw [List.mem_append, not_or] at hmark
    simp only [String.toList_ofList]
    refine ⟨tail, hrest, ?_, ⟨hslash, hmark.1⟩, hpath, hmark.2⟩
    exact htail.imp_left fun ⟨htail, hquery⟩ ↦ ⟨htail, by rw [hquery]⟩
  · rintro ⟨tail, hrest, htail, ⟨hslash, hversion⟩, hpath, hmark⟩
    have hcut : (Text.cutAt? '?' rest).getD (rest, []) =
        (version.toList ++ path.toList, query.toList) :=
      cutQuery_eq_iff.mpr ⟨by rw [List.mem_append, not_or]; exact ⟨hversion, hmark⟩, tail, hrest,
        htail.imp_left fun ⟨htail, hquery⟩ ↦ ⟨htail, String.toList_eq_nil_iff.mpr hquery⟩⟩
    have hparts : splitVersion (version.toList ++ path.toList) = (version.toList, path.toList) :=
      splitVersion_eq_iff.mpr ⟨rfl, hslash, hpath⟩
    simp only [ofBelow, hcut, hparts, String.ofList_toList]

/-- A URL is taken apart exactly if it lies below the service root. -/
theorem ofUrl?_eq (serviceRoot url : String) : ofUrl? serviceRoot url =
    ((Query.dropWord? (trimSlashes serviceRoot.toList) url.toList).bind
      (Query.dropWord? ['/'])).map ofBelow := by
  unfold ofUrl?
  cases hstem : Query.dropWord? (trimSlashes serviceRoot.toList) url.toList with
  | none => rfl
  | some below =>
    cases hslash : Query.dropWord? ['/'] below with
    | none => simp [hslash]
    | some rest => simp [hslash, ofBelow]

private theorem isBelow_iff {serviceRoot url : String} {rest : List Char} :
    IsBelow rest serviceRoot url ↔
      (Query.dropWord? (trimSlashes serviceRoot.toList) url.toList).bind (Query.dropWord? ['/']) =
        some rest := by
  simp only [Option.bind_eq_some_iff, Query.dropWord?_eq_some_iff]
  constructor
  · rintro ⟨stem, hstem, htext⟩
    rw [isStem_iff.mp hstem] at htext
    exact ⟨_, htext, rfl⟩
  · rintro ⟨_, htext, rfl⟩
    exact ⟨_, isStem_trimSlashes _, htext⟩

/-- The parts that are found in a URL are those that it is made up of, if the version has neither a
slash nor a question mark. -/
theorem ofUrl?_eq_some_iff {serviceRoot url : String} {t : RequestTarget} :
    ofUrl? serviceRoot url = some t ↔
      t.Spells serviceRoot url ∧ '/' ∉ t.version.toList ∧ '?' ∉ t.version.toList := by
  simp only [ofUrl?_eq, Option.map_eq_some_iff, ← isBelow_iff, ofBelow_eq_iff]
  constructor
  · rintro ⟨rest, hbelow, tail, rfl, htail, hversion, hpath, hmark⟩
    exact ⟨⟨hpath, hmark, tail, hbelow, htail⟩, hversion⟩
  · rintro ⟨⟨hpath, hmark, tail, hbelow, htail⟩, hversion⟩
    exact ⟨_, hbelow, tail, rfl, htail, hversion, hpath, hmark⟩

end RequestTarget

namespace Version

private theorem parse_eq_ok_iff {text : String} {v : Version} :
    Version.parse text = .ok v ↔ text = v.text := by
  unfold Version.parse
  constructor
  · intro h
    split at h
    · next htext =>
      cases h
      exact htext
    · split at h
      · next htext =>
        cases h
        exact htext
      · cases h
  · rintro rfl
    cases v <;> rfl

private theorem not_mem_text (v : Version) : '/' ∉ v.text.toList ∧ '?' ∉ v.text.toList := by
  cases v <;> decide

private theorem text_inj {v v' : Version} (h : v.text = v'.text) : v = v' := by
  have hparse : Version.parse v.text = .ok v' := parse_eq_ok_iff.mpr h
  exact Except.ok.inj ((parse_eq_ok_iff.mpr rfl).symm.trans hparse)

end Version

namespace Request

variable {ctx : Context} {serviceRoot url : String}

private theorem mapError_eq_ok {ε δ α : Type} {f : ε → δ} {x : Except ε α} {a : α} :
    mapError f x = .ok a ↔ x = .ok a := by
  cases x with
  | error e => simp [mapError]
  | ok b => simp [mapError]

private theorem mapError_ne_error {ε δ α : Type} {f : ε → δ} {d : δ} (hf : ∀ e, f e ≠ d)
    (x : Except ε α) : mapError f x ≠ .error d := by
  cases x with
  | error e => simpa [mapError] using hf e
  | ok a => simp [mapError]

private theorem parse_ne_outside (v : Version) (path query : String) :
    parse ctx serviceRoot v path query ≠ .error (.outsideServiceRoot url serviceRoot) :=
  bind_ne_error (mapError_ne_error nofun _) fun _ ↦
    bind_ne_error (mapError_ne_error nofun _) fun _ ↦
      bind_ne_error (mapError_ne_error nofun _) nofun

/-- A URL outside the service root is reported as such, and no other is. -/
theorem ofUrl_eq_outside_iff :
    ofUrl ctx serviceRoot url = .error (.outsideServiceRoot url serviceRoot) ↔
      RequestTarget.ofUrl? serviceRoot url = none := by
  unfold ofUrl
  cases RequestTarget.ofUrl? serviceRoot url with
  | none => exact iff_of_true rfl rfl
  | some t =>
    refine iff_of_false ?_ nofun
    exact bind_ne_error (mapError_ne_error nofun _) fun v ↦ parse_ne_outside v t.path t.query

private theorem ofUrl_eq_ok_iff {r : Request} : ofUrl ctx serviceRoot url = .ok r ↔
    ∃ (v : Version) (path query : String),
      RequestTarget.ofUrl? serviceRoot url = some ⟨v.text, path, query⟩ ∧
      parse ctx serviceRoot v path query = .ok r := by
  unfold ofUrl
  cases RequestTarget.ofUrl? serviceRoot url with
  | none => simp
  | some t =>
    simp only [bind_eq_ok, mapError_eq_ok, Version.parse_eq_ok_iff, Option.some.injEq]
    constructor
    · rintro ⟨v, hversion, hr⟩
      exact ⟨v, t.path, t.query, by rw [← hversion], hr⟩
    · rintro ⟨v, path, query, rfl, hr⟩
      exact ⟨v, rfl, hr⟩

end Request

/-- A URL is read as a request exactly if it is made up of a version, a path and a query that make
this request. It is made up of them in one way at most, and one that does not go on with a slash
behind the stem of the service root lies outside it. -/
theorem url_decomposes_uniquely (ctx : Context) (serviceRoot url : String) :
    (∀ r, Request.ofUrl ctx serviceRoot url = .ok r ↔
      ∃ (v : Version) (path query : String),
        (RequestTarget.mk v.text path query).Spells serviceRoot url ∧
        Request.parse ctx serviceRoot v path query = .ok r) ∧
    (∀ (v v' : Version) (path path' query query' : String),
      (RequestTarget.mk v.text path query).Spells serviceRoot url →
      (RequestTarget.mk v'.text path' query').Spells serviceRoot url →
      v = v' ∧ path = path' ∧ query = query') ∧
    (Request.ofUrl ctx serviceRoot url = .error (.outsideServiceRoot url serviceRoot) ↔
      ¬ ∃ below, RequestTarget.IsBelow below serviceRoot url) := by
  have hspells (v : Version) (path query : String) :
      RequestTarget.ofUrl? serviceRoot url = some ⟨v.text, path, query⟩ ↔
        (RequestTarget.mk v.text path query).Spells serviceRoot url :=
    RequestTarget.ofUrl?_eq_some_iff.trans (and_iff_left v.not_mem_text)
  refine ⟨fun r ↦ ?_, fun v v' path path' query query' h h' ↦ ?_, ?_⟩
  · simp only [Request.ofUrl_eq_ok_iff, hspells]
  · have hsame := ((hspells v path query).mpr h).symm.trans ((hspells v' path' query').mpr h')
    rw [Option.some.injEq, RequestTarget.mk.injEq] at hsame
    exact ⟨Version.text_inj hsame.1, hsame.2⟩
  · rw [Request.ofUrl_eq_outside_iff, RequestTarget.ofUrl?_eq, Option.map_eq_none_iff,
      Option.eq_none_iff_forall_ne_some]
    simp only [RequestTarget.isBelow_iff, not_exists, ne_eq]

namespace Museum

/-- A URL with a slash in a key and a question mark in a query. -/
def exhibitUrl : String := "http://museum/api/v1.1/Exhibits('o/b')?$filter=notes eq '?'"

/-- What the URL is read as below a service root that ends in two slashes. -/
def exhibitRequest : Request where
  path :=
    ⟨[.entitySet "Exhibit" "Exhibits" none none,
        .entity "Exhibit" (some (.string "o/b")) none (some 0)],
      1, "Exhibit", none, "http://museum/api//", .v1_1, "/Exhibits('o/b')"⟩
  query :=
    { Query.empty with
      filter := some (.binary .equal (.path ⟨[.property "notes"]⟩) (.constant (.string "?"))) }

end Museum

/-- The theorem at a URL with more than one slash and more than one question mark. -/
theorem museum_url_decomposes :
    (RequestTarget.mk Version.v1_1.text "/Exhibits('o/b')" "$filter=notes eq '?'").Spells
        "http://museum/api//" Museum.exhibitUrl ∧
      Request.ofUrl Museum.context "http://museum/api//" Museum.exhibitUrl =
        .ok Museum.exhibitRequest ∧
      ∀ (v : Version) (path query : String),
        (RequestTarget.mk v.text path query).Spells "http://museum/api//" Museum.exhibitUrl →
        path = "/Exhibits('o/b')" := by
  have hstem : RequestTarget.IsStem "http://museum/api".toList "http://museum/api//".toList :=
    ⟨by decide, 2, by decide⟩
  have hspells :
      (RequestTarget.mk Version.v1_1.text "/Exhibits('o/b')" "$filter=notes eq '?'").Spells
        "http://museum/api//" Museum.exhibitUrl :=
    ⟨by rintro _ ⟨⟩; rfl, by decide, _, ⟨_, hstem, rfl⟩, .inr rfl⟩
  obtain ⟨hread, hunique, -⟩ :=
    url_decomposes_uniquely Museum.context "http://museum/api//" Museum.exhibitUrl
  refine ⟨hspells, (hread _).mpr ⟨.v1_1, _, _, hspells, by decide +kernel⟩, fun v path query h ↦ ?_⟩
  exact (hunique v .v1_1 path _ query _ h hspells).2.1

end SensorQuery
