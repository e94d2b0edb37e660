import SensorQuery.Query.Expression

/-!
# Queries

The options of a request: what to filter, sort, select and expand, and how much of it to answer
with. An expansion may have options of its own. A query is written with its options in a fixed
order, joined by `&`, and the options of an expansion by `;`.
-/

namespace SensorQuery

/-- The paths to select. As a set, their order does not count. -/
structure Select where
  paths : List PropertyPath
  /-- Repeated results are left out. -/
  distinct : Bool
deriving DecidableEq

namespace Select

/-- Nothing is selected. -/
def empty : Select := ⟨[], false⟩

/-- The selection with one more path, and whether the path is new to it. -/
def insert (s : Select) (p : PropertyPath) : Select × Bool :=
  if s.paths.contains p then (s, false) else ({ s with paths := s.paths ++ [p] }, true)

/-- The selection of the paths. -/
def ofList (paths : List PropertyPath) : Select :=
  paths.foldl (fun s p ↦ (s.insert p).1) empty

/-- The selections have equally many paths, and the paths of the one are among those of the
other. -/
def same (a b : Select) : Bool :=
  a.distinct = b.distinct && a.paths.length = b.paths.length && a.paths.all b.paths.contains

end Select

/-- A path to entities that are answered with, and the query that they are answered by. -/
structure Expand (Q : Type) where
  path : PropertyPath
  query : Option Q
deriving DecidableEq

/-- The options of a request or of an expansion. -/
structure Query where
  top : Option UInt64
  skip : Option UInt64
  count : Option Bool
  resultFormat : Option String
  filter : Option Expression
  orderBy : List Order
  select : Select
  expand : List (Expand Query)

namespace Query

/-- No option is given. -/
def empty : Query := ⟨none, none, none, none, none, [], .empty, []⟩

/-- The query is the one without options. A selection that is only distinct is an option. -/
def isEmpty (q : Query) : Bool :=
  q.top.isNone && q.skip.isNone && q.count.isNone && q.resultFormat.isNone && q.filter.isNone &&
    q.orderBy.isEmpty && q.select = .empty && q.expand.isEmpty

/-- How many entities to answer with. -/
def effectiveTop (limits : Limits) (q : Query) : UInt64 :=
  min (q.top.getD limits.topDefault) limits.topMax

/-- Whether to answer with the number of entities. -/
def effectiveCount (limits : Limits) (q : Query) : Bool := q.count.getD limits.countDefault

/-- Both filters are absent, or they are the same. -/
def sameFilter : Option Expression → Option Expression → Bool
  | none, none => true
  | some a, some b => a.same b
  | _, _ => false

mutual

/-- The queries are equal. -/
def equals : Query → Query → Bool
  | ⟨top, skip, count, format, filter, orderBy, select, expand⟩,
    ⟨top', skip', count', format', filter', orderBy', select', expand'⟩ =>
    top = top' && skip = skip' && count = count' && format = format' && filter = filter' &&
      orderBy = orderBy' && select = select' && equalsAll expand expand'

/-- The lists have equal expansions in the same order. -/
def equalsAll : List (Expand Query) → List (Expand Query) → Bool
  | [], [] => true
  | ⟨p, none⟩ :: es, ⟨p', none⟩ :: es' => p = p' && equalsAll es es'
  | ⟨p, some q⟩ :: es, ⟨p', some q'⟩ :: es' => p = p' && q.equals q' && equalsAll es es'
  | _, _ => false

end

mutual

/-- Queries are compared option by option. -/
theorem equals_iff : (a b : Query) → (a.equals b = true ↔ a = b)
  | ⟨_, _, _, _, _, _, _, expand⟩, ⟨_, _, _, _, _, _, _, _⟩ => by
    simp [equals, equalsAll_iff expand, and_assoc]

/-- Lists of expansions are compared one by one. -/
theorem equalsAll_iff : (as bs : List (Expand Query)) → (equalsAll as bs = true ↔ as = bs)
  | [], bs => by cases bs <;> simp [equalsAll]
  | ⟨_, none⟩ :: es, bs => by
    rcases bs with _ | ⟨⟨_, _ | _⟩, _⟩ <;> simp [equalsAll, equalsAll_iff es]
  | ⟨_, some q⟩ :: es, bs => by
    rcases bs with _ | ⟨⟨_, _ | _⟩, _⟩ <;>
      simp [equalsAll, equals_iff q, equalsAll_iff es, and_assoc]

end

instance : DecidableEq Query := fun a b ↦ decidable_of_iff (a.equals b) (equals_iff a b)

mutual

/-- The queries have the same options. -/
def same : Query → Query → Bool
  | ⟨top, skip, count, format, filter, orderBy, select, expand⟩,
    ⟨top', skip', count', format', filter', orderBy', select', expand'⟩ =>
    top = top' && skip = skip' && count = count' && format = format' &&
      sameFilter filter filter' && Order.sameAll orderBy orderBy' && select.same select' &&
      sameExpands expand expand'

/-- The expansions have the same paths and queries, in the same order. -/
def sameExpands : List (Expand Query) → List (Expand Query) → Bool
  | [], [] => true
  | ⟨p, none⟩ :: es, ⟨p', none⟩ :: es' => p = p' && sameExpands es es'
  | ⟨p, some q⟩ :: es, ⟨p', some q'⟩ :: es' => p = p' && q.same q' && sameExpands es es'
  | _, _ => false

end

/-- The texts with a separator between them. -/
def joined (separator : Char) (texts : List (List Char)) : List Char :=
  List.intercalate [separator] texts

/-- An option as it is written. -/
def optionText (o : String × List Char) : List Char := o.1.toList ++ '=' :: o.2

mutual

/-- The options that are set, by name and value, in the order they are written. A selection
without paths is not written. -/
def options : Query → List (String × List Char)
  | ⟨top, skip, count, format, filter, orderBy, select, expand⟩ =>
    (if select.paths.isEmpty then []
      else [("$select", (if select.distinct then "distinct:".toList else []) ++
        joined ',' (select.paths.map PropertyPath.text))]) ++
    (if expand.isEmpty then [] else [("$expand", joined ',' (expandTexts expand))]) ++
    (filter.map fun e ↦ ("$filter", e.text)).toList ++
    (if orderBy.isEmpty then [] else [("$orderby", joined ',' (orderBy.map Order.text))]) ++
    (top.map fun n ↦ ("$top", Nat.toDigits 10 n.toNat)).toList ++
    (skip.map fun n ↦ ("$skip", Nat.toDigits 10 n.toNat)).toList ++
    (count.map fun b ↦ ("$count", (Literal.boolean b).text)).toList ++
    (format.map fun f ↦ ("$resultFormat", f.toList)).toList

/-- The expansions as a query writes them. A query without options is not written. -/
def expandTexts : List (Expand Query) → List (List Char)
  | [] => []
  | ⟨path, none⟩ :: es => path.text :: expandTexts es
  | ⟨path, some q⟩ :: es =>
    (path.text ++
      if q.isEmpty then [] else '(' :: joined ';' (q.options.map optionText) ++ [')']) ::
    expandTexts es

end

/-- The query as a request writes it, before it is encoded. -/
def text (q : Query) : List Char := joined '&' (q.options.map optionText)

end Query

end SensorQuery
