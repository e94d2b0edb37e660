import SensorQuery.Function.Catalog

/-!
# The standard functions

The functions that every filter may call, by category: texts, times, numbers and geometries.
-/

namespace SensorQuery.Catalog

open ArgumentKind in
/-- Functions on texts. -/
def stringFunctions : List Signature :=
  [.ofParameters "substringof" .string [text, text] boolean,
    .ofParameters "endswith" .string [text, text] boolean,
    .ofParameters "startswith" .string [text, text] boolean,
    .ofParameters "contains" .string [text, text] boolean,
    .ofParameters "length" .string [text] numeric,
    .ofParameters "indexof" .string [text, text] numeric,
    { Signature.ofParameters "substring" .string [text, numeric] text with arity := .range 2 3 },
    .ofParameters "tolower" .string [text] text,
    .ofParameters "toupper" .string [text] text,
    .ofParameters "trim" .string [text] text,
    .ofParameters "concat" .string [text, text] text]

open ArgumentKind in
/-- Functions on times: their parts, the present and the limits, and how two of them lie. -/
def temporalFunctions : List Signature :=
  (["year", "month", "day", "hour", "minute", "second", "fractionalseconds"].map fun name ↦
    Signature.ofParameters name .temporal [temporal] numeric) ++
  [.ofParameters "date" .temporal [temporal] temporal,
    .ofParameters "time" .temporal [temporal] temporal,
    .ofParameters "totaloffsetminutes" .temporal [temporal] numeric,
    .ofParameters "now" .temporal [] temporal,
    .ofParameters "mindatetime" .temporal [] temporal,
    .ofParameters "maxdatetime" .temporal [] temporal] ++
  (["before", "after", "meets", "during", "overlaps", "starts", "finishes"].map fun name ↦
    Signature.ofParameters name .temporal [temporal, temporal] boolean)

open ArgumentKind in
/-- Roundings. -/
def mathFunctions : List Signature :=
  ["round", "floor", "ceiling"].map fun name ↦ .ofParameters name .math [numeric] numeric

open ArgumentKind in
/-- Functions on geometries: measures, and how two of them lie. -/
def spatialFunctions : List Signature :=
  [.ofParameters "geo.distance" .spatial [geometry, geometry] numeric,
    .ofParameters "geo.length" .spatial [geometry] numeric,
    .ofParameters "geo.intersects" .spatial [geometry, geometry] boolean,
    .ofParameters "st_relate" .spatial [geometry, geometry, text] boolean] ++
  (["st_equals", "st_disjoint", "st_touches", "st_within", "st_overlaps", "st_crosses",
    "st_intersects", "st_contains"].map fun name ↦
    Signature.ofParameters name .spatial [geometry, geometry] boolean)

/-- All standard functions, by category. -/
def standardFunctions : List Signature :=
  stringFunctions ++ temporalFunctions ++ mathFunctions ++ spatialFunctions

/-- The catalog of the standard functions. -/
def standard : Catalog := (empty.registerAll standardFunctions).1

end SensorQuery.Catalog
