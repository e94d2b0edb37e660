import SensorQuery.Query.Grammar
import SensorQuery.Query.Query
import SensorQuery.Text.Form

/-!
# Option lists

Reads the options of a query. The options of a request are cut at every `&` and then form-decoded;
those of an expansion come from decoded text and are cut at every `;` outside quotes and
parentheses. Both follow the same grammar. Options that nest in one another are bounded by the
length of the text.
-/

namespace SensorQuery

/-- Why a text is no query. -/
inductive QueryError where
  | unknownOption (name : String)
  | duplicateOption (name : String)
  | invalidValue (option reason : String)
  | expression (option : String) (source : ExpressionError)
  | unbalancedParentheses (text : String)
  | undecodable (text : String)
deriving DecidableEq

/-- The wording of the error. -/
def QueryError.message : QueryError → String
  | .unknownOption name => s!"unknown query option {name}"
  | .duplicateOption name => s!"query option {name} is given more than once"
  | .invalidValue option reason => s!"invalid value for {option}: {reason}"
  | .expression option source => s!"in {option}: {source.message}"
  | .unbalancedParentheses text => s!"unbalanced parentheses in '{text}'"
  | .undecodable text => s!"'{text}' is not valid percent-encoded UTF-8"

/-- Where a list of options stands. -/
inductive Scope where
  /-- In the query of a request. -/
  | request
  /-- In the parentheses of an expansion. -/
  | expansion
deriving DecidableEq

namespace Scope

/-- The pieces of the list. -/
def pieces : Scope → List Char → Except QueryError (List (List Char))
  | .request, s => .ok (Text.splitAt '&' s)
  | .expansion, s =>
    match Text.splitTopLevel ';' s with
    | some parts => .ok parts
    | none => .error (.unbalancedParentheses (String.ofList s))

/-- What a name or a value in the list stands for. -/
def decode : Scope → List Char → Except QueryError (List Char)
  | .request, s =>
    match Text.formDecode? s with
    | some t => .ok t
    | none => .error (.undecodable (String.ofList s))
  | .expansion, s => .ok s

end Scope

namespace Query

/-- A list in an option, cut at its commas. -/
def items (s : List Char) : Except QueryError (List (List Char)) :=
  match Text.splitTopLevel ',' s with
  | some parts => .ok parts
  | none => .error (.unbalancedParentheses (String.ofList s))

/-- Names the option in which an expression fails. -/
def inOption {α : Type} (option : String) : Except ExpressionError α → Except QueryError α
  | .ok a => .ok a
  | .error e => .error (.expression option e)

/-- A number of entities. -/
def parseNumber (option : String) (value : List Char) : Except QueryError UInt64 :=
  if value.isEmpty || !value.all Char.isDigit then
    .error (.invalidValue option s!"'{String.ofList value}' is not a non-negative integer")
  else
    match Numeral.uint64? value with
    | some n => .ok n
    | none => .error (.invalidValue option s!"'{String.ofList value}' is out of range")

/-- A truth value. -/
def parseFlag (option : String) (value : List Char) : Except QueryError Bool :=
  if value = "true".toList then .ok true
  else if value = "false".toList then .ok false
  else .error (.invalidValue option s!"'{String.ofList value}' is not true or false")

/-- An item of a list, which must not be blank. -/
def parseItem (option reason : String) (item : List Char) : Except QueryError (List Char) :=
  let item := Text.trim item
  if item.isEmpty then .error (.invalidValue option reason) else .ok item

/-- The selection with the path of one more item. -/
def selectItem (ctx : Context) (select : Select) (item : List Char) : Except QueryError Select := do
  let item ← parseItem "$select" "empty select item" item
  let path ← inOption "$select" (PropertyPath.parse ctx (String.ofList item))
  pure (select.insert path).1

/-- The text after the word, if it begins with the word. -/
def dropWord? (word : List Char) (s : List Char) : Option (List Char) :=
  if word.isPrefixOf s then some (s.drop word.length) else none

/-- A selection. -/
def parseSelect (ctx : Context) (value : List Char) : Except QueryError Select := do
  let rest := dropWord? "distinct:".toList value
  let parts ← items (rest.getD value)
  parts.foldlM (selectItem ctx) { Select.empty with distinct := rest.isSome }

/-- A path that leads through several entities, as expansions inside one another. -/
def nestExpand : List PropertyPath → Option Query → Expand Query
  | [], query => ⟨⟨[]⟩, query⟩
  | [path], query => ⟨path, query⟩
  | path :: paths, query => ⟨path, some { empty with expand := [nestExpand paths query] }⟩

/-- An item of an expansion: the text of its path, and of its options if there are any. -/
def splitExpandItem (item : List Char) : Except QueryError (List Char × Option (List Char)) :=
  match Text.cutAt? '(' item with
  | none => .ok (item, none)
  | some (path, rest) =>
    if rest.getLast? = some ')' then .ok (Text.trimEnd path, some rest.dropLast)
    else .error (.unbalancedParentheses (String.ofList item))

/-- The query of an expansion; blank options are none. -/
def parseNested (nested : List Char → Except QueryError Query) :
    Option (List Char) → Except QueryError (Option Query)
  | none => .ok none
  | some inner =>
    if (Text.trim inner).isEmpty then .ok none
    else do
      let query ← nested inner
      pure (some query)

/-- An expansion, with a reader for the options in its parentheses. -/
def parseExpandItem (ctx : Context) (nested : List Char → Except QueryError Query)
    (item : List Char) : Except QueryError (Expand Query) := do
  let item ← parseItem "$expand" "empty expand item" item
  let (path, inner) ← splitExpandItem item
  let path ← inOption "$expand" (PropertyPath.parse ctx (String.ofList path))
  let query ← parseNested nested inner
  pure (nestExpand path.hops query)

/-- The expansions in a value. -/
def parseExpand (ctx : Context) (nested : List Char → Except QueryError Query)
    (value : List Char) : Except QueryError (List (Expand Query)) := do
  let parts ← items value
  parts.mapM (parseExpandItem ctx nested)

/-- The query with one more option. -/
def setOption (ctx : Context) (nested : List Char → Except QueryError Query) (q : Query)
    (name : String) (value : List Char) : Except QueryError Query :=
  if name = "$top" then do
    let n ← parseNumber name value
    pure { q with top := some n }
  else if name = "$skip" then do
    let n ← parseNumber name value
    pure { q with skip := some n }
  else if name = "$count" then do
    let b ← parseFlag name value
    pure { q with count := some b }
  else if name = "$filter" then do
    let e ← inOption name (Expression.parse ctx (String.ofList value))
    pure { q with filter := some e }
  else if name = "$orderby" then do
    let os ← inOption name (Order.parse ctx (String.ofList value))
    pure { q with orderBy := os }
  else if name = "$select" then do
    let s ← parseSelect ctx value
    pure { q with select := s }
  else if name = "$expand" then do
    let es ← parseExpand ctx nested value
    pure { q with expand := es }
  else if name = "$resultFormat" then
    if value.isEmpty then .error (.invalidValue name "a format name is required")
    else .ok { q with resultFormat := some (String.ofList value) }
  else .error (.unknownOption name)

/-- The name and the value of an option, decoded and without the blanks around them. -/
def splitOption (scope : Scope) (item : List Char) : Except QueryError (String × List Char) :=
  match Text.cutAt? '=' item with
  | none => .error (.invalidValue (String.ofList item) "expected name=value")
  | some (name, value) => do
    let name ← scope.decode name
    let value ← scope.decode value
    pure (String.ofList (Text.trim name), Text.trim value)

/-- Reads options in order into the query. `seen` holds the names before them; blank items are
passed over. -/
def readItems (ctx : Context) (nested : List Char → Except QueryError Query) (scope : Scope) :
    Query → (seen : List String) → List (List Char) → Except QueryError Query
  | q, _, [] => .ok q
  | q, seen, item :: items =>
    if (Text.trim item).isEmpty then readItems ctx nested scope q seen items
    else do
      let (name, value) ← splitOption scope item
      if seen.contains name then .error (.duplicateOption name)
      else
        let q ← setOption ctx nested q name value
        readItems ctx nested scope q (name :: seen) items

/-- The query of a list of options, in which expansions nest at most `depth` deep. -/
def parseOptions (ctx : Context) : (depth : Nat) → Scope → List Char → Except QueryError Query
  | 0, _, s => .error (.unbalancedParentheses (String.ofList s))
  | depth + 1, scope, s => do
    let items ← scope.pieces s
    readItems ctx (parseOptions ctx depth .expansion) scope empty [] items

/-- The query that a text denotes; a question mark in front is passed over. -/
def parse (ctx : Context) (text : String) : Except QueryError Query :=
  let s := (dropWord? ['?'] text.toList).getD text.toList
  parseOptions ctx (s.length + 1) .request s

end Query

end SensorQuery
