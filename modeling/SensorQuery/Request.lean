import SensorQuery.Path.Resolve
import SensorQuery.Query.Options
import SensorQuery.Query.Validation

/-!
# Requests

A request is a resource path with a query that can be asked of the type it addresses. A request URL
is the service root, a slash, the version, the path, and a query after a question mark.
-/

namespace SensorQuery

/-- Why a text is no request. -/
inductive RequestError where
  | outsideServiceRoot (url serviceRoot : String)
  | path (source : PathError)
  | query (source : QueryError)
  | validation (source : ValidationError)
deriving DecidableEq

/-- The wording of the error. -/
def RequestError.message : RequestError → String
  | .outsideServiceRoot url serviceRoot =>
    s!"url {url} is not below the service root {serviceRoot}"
  | .path source => source.message
  | .query source => source.message
  | .validation source => source.message

/-- A path and a query that fits it. -/
structure Request where
  path : ResourcePath
  query : Query
deriving DecidableEq

/-- The parts of a request URL below the service root, in their texts. -/
structure RequestTarget where
  version : String
  path : String
  query : String
deriving DecidableEq

namespace Request

/-- Checks the query against the type that a path addresses. -/
def validate (model : Registry) (p : ResourcePath) (q : Query) : Except ValidationError Unit :=
  match model.entityType? p.mainType with
  | some t => q.validate model t
  | none => .error (.unknownLinkTarget p.mainType)

/-- Gives the errors of one part their place. -/
def mapError {ε δ α : Type} (f : ε → δ) : Except ε α → Except δ α
  | .ok a => .ok a
  | .error e => .error (f e)

/-- The request of a path and a query: first the path, then the query, then both together. -/
def parse (ctx : Context) (serviceRoot : String) (version : Version) (path query : String) :
    Except RequestError Request := do
  let p ← mapError .path (ResourcePath.parse ctx.model serviceRoot version path)
  let q ← mapError .query (Query.parse ctx query)
  mapError .validation (validate ctx.model p q)
  pure ⟨p, q⟩

end Request

namespace RequestTarget

/-- The text without the slashes at its end. -/
def trimSlashes (s : List Char) : List Char := (s.reverse.dropWhile (· == '/')).reverse

/-- The version and the path in a text, which the first slash parts; it belongs to the path. -/
def splitVersion (s : List Char) : List Char × List Char :=
  (s.takeWhile (· != '/'), s.dropWhile (· != '/'))

/-- The parts of a URL, if it lies below the service root. -/
def ofUrl? (serviceRoot url : String) : Option RequestTarget := do
  let below ← Query.dropWord? (trimSlashes serviceRoot.toList) url.toList
  let rest ← Query.dropWord? ['/'] below
  let (target, query) := (Text.cutAt? '?' rest).getD (rest, [])
  let (version, path) := splitVersion target
  pure ⟨String.ofList version, String.ofList path, String.ofList query⟩

end RequestTarget

/-- The request that a URL denotes. -/
def Request.ofUrl (ctx : Context) (serviceRoot url : String) : Except RequestError Request :=
  match RequestTarget.ofUrl? serviceRoot url with
  | none => .error (.outsideServiceRoot url serviceRoot)
  | some target => do
    let version ← mapError .path (Version.parse target.version)
    parse ctx serviceRoot version target.path target.query

end SensorQuery
