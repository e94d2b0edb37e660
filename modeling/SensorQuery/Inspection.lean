import SensorQuery.Request

/-!
# Inspections

An inspection says what a request asks for: the shortest text of the path and the query, the type
of the entities, and for a collection how many entities are answered and whether they are counted.
-/

namespace SensorQuery

/-- What a request asks for. -/
structure Inspection where
  /-- The path without what its last key makes redundant, and the query in its usual order. -/
  canonical : List Char
  entityType : String
  collection : Bool
  effectiveTop : UInt64
  effectiveCount : Bool
deriving DecidableEq

namespace Inspection

/-- What the request asks for within the limits of a service. -/
def ofRequest (limits : Limits) (r : Request) : Inspection where
  canonical := r.path.compress.text ++ (if r.query.isEmpty then [] else '?' :: r.query.text)
  entityType := r.path.mainType
  collection := r.path.isCollection
  effectiveTop := r.query.effectiveTop limits
  effectiveCount := r.query.effectiveCount limits

/-- The inspection of the request that a URL denotes. -/
def ofUrl (ctx : Context) (limits : Limits) (serviceRoot url : String) :
    Except RequestError Inspection :=
  match Request.ofUrl ctx serviceRoot url with
  | .ok r => .ok (ofRequest limits r)
  | .error e => .error e

/-- What holds of the answer besides its type, where it is a collection. -/
def pagingText (i : Inspection) : String :=
  if i.collection then
    s!"[] top={i.effectiveTop} count={i.effectiveCount}"
  else ""

/-- The inspection on one line. -/
def line (i : Inspection) : String :=
  String.ofList i.canonical ++ "\t" ++ i.entityType ++ i.pagingText

end Inspection

end SensorQuery
