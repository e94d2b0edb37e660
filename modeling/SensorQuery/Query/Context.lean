import SensorQuery.Function.Standard
import SensorQuery.Model.Registry

/-!
# What queries are read by

The model, the catalog of functions and the settings that reading a query depends on, and the
limits that a service sets on its answers.
-/

namespace SensorQuery

/-- What reading a query depends on. -/
structure Context where
  model : Registry
  functions : Catalog
  /-- A name `link.Type` below an open value is a link to an entity of that type. -/
  customLinks : Bool

/-- The limits of a service, and what holds where a query leaves an option out. -/
structure Limits where
  topDefault : UInt64
  topMax : UInt64
  countDefault : Bool
deriving DecidableEq

/-- A hundred entities, at most a thousand, without their count. -/
def Limits.usual : Limits := ⟨100, 1000, false⟩

end SensorQuery
