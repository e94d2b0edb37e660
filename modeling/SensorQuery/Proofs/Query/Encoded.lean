import SensorQuery.Proofs.Model.Names
import SensorQuery.Proofs.Query.Restored
import SensorQuery.Proofs.Text.Form

/-!
# Queries in a request

In the URL of a request the values of options are escaped, so that no value cuts the list of options
and decoding gives back each value. Then a query comes back from what it writes. Only the values of
the outermost options are escaped: those in parentheses are part of the value of an expansion.
-/

namespace SensorQuery

open Fallible

/-- Every property of the model begins with a letter or an underscore. -/
def Registry.NamesBegin (model : Registry) : Prop :=
  ∀ t ∈ model.types, ∀ p ∈ t.properties,
    ∃ c ∈ p.name.toList.head?, Text.isAlphabetic c = true ∨ c = '_'

namespace Query

variable {ctx : Context} {scope : Scope} {q : Query}

/-- The option as a request writes it. -/
def escapedText (o : String × List Char) : List Char := optionText (o.1, Text.escape o.2)

/-- The query as a request writes it. -/
def escaped (q : Query) : List Char := joined '&' (q.options.map escapedText)

/-! ### The paths of expansions -/

-- A name that is read against an entity is the alias of the key, or the name of a property.
private theorem isFirst_of_classifyStep (hbegin : ctx.model.NamesBegin) {name : String}
    {p : PathStep × PropertyPath.Position}
    (h : PropertyPath.classifyStep ctx .entity (.name name) = .ok p) :
    RawStep.IsFirst name.toList := by
  have hdeclared (hname : ∃ t ∈ ctx.model.types, ∃ p ∈ t.properties, p.name = name) :
      RawStep.IsFirst name.toList := by
    obtain ⟨t, ht, p, hp, rfl⟩ := hname
    obtain ⟨c, hc, hletter⟩ := hbegin t ht p hp
    rw [RawStep.IsFirst, Option.mem_def.mp hc, Option.map_some, Option.getD_some]
    rcases hletter with hletter | rfl
    · rw [RawStep.isFirstChar, hletter]
      rfl
    · decide
  obtain ⟨step, next⟩ := p
  cases PropertyPath.classifyStep_eq_ok_iff.mp h with
  | primaryKey => rfl
  | navigation notAlias link =>
    obtain ⟨t, ht, n, hn, hname⟩ := Registry.isNavigationName_iff.mp link
    exact hdeclared ⟨t, ht, _, hn, hname⟩
  | property notAlias notLink value =>
    obtain ⟨t, ht, p, hp, hname⟩ := Registry.isEntityPropertyName_iff.mp value
    exact hdeclared ⟨t, ht, _, hp, hname⟩

private theorem Formed.beginsFirst {P : Duration → Prop} (h : q.Formed ctx P scope)
    (hbegin : ctx.model.NamesBegin) : q.BeginsFirst := by
  induction h with
  | intro _ _ _ _ hops _ ih =>
    refine beginsFirst_iff.mpr fun x hx ↦ ⟨?_, ih x hx⟩
    obtain ⟨w, more, hsorted⟩ := (hops x hx).exists_sorted
    obtain ⟨p, _, hstep, -⟩ := PropertyPath.classify_cons hsorted.sorted
    exact hsorted.beginsFirst_iff.mpr (isFirst_of_classifyStep hbegin hstep)

/-! ### Reading the request -/

private theorem splits_escapedText {o : String × List Char} (hname : o.1 ∈ optionNames)
    (hvalue : IsValue .request o.2) : Splits .request (escapedText o) o := by
  obtain ⟨n, v⟩ := o
  have hn := isName_of_mem hname
  have hcut : Text.cutAt? '=' (escapedText (n, v)) = some (n.toList, Text.escape v) :=
    Text.cutAt?_append hn.noEquals _
  constructor
  · rw [splitOption, hcut]
    simp only [Scope.decode, hn.raw.decoded, Text.formDecode?_escape, ok_bind, hn.edged.trim,
      hvalue.edged.trim, String.ofList_toList]
    rfl
  · -- The equals sign is not blank.
    have hequals : '=' ∈ escapedText (n, v) := by simp [escapedText, optionText]
    exact List.isEmpty_eq_false_iff.mpr (Text.trim_ne_nil hequals (by decide))

private theorem pieces_escaped (q : Query) : Scope.request.pieces q.escaped =
    .ok (if q.options = [] then [[]] else q.options.map escapedText) := by
  split
  · next hnil =>
    rw [escaped, hnil]
    rfl
  · next hne =>
    refine congrArg _ (Text.splitAt_joined (by simpa using hne) ?_)
    refine List.forall_mem_map.mpr fun o ho hmem ↦ ?_
    rcases List.mem_append.mp hmem with hmem | hmem
    · exact (isName_of_mem (mem_optionNames ho)).raw.uncut hmem
    · rcases List.mem_cons.mp hmem with heq | hmem
      · exact absurd heq (by decide)
      · exact Text.not_mem_escape o.2 hmem

/-- A query that could have been read is read from the text of a request, as the query without the
queries that are not written. -/
theorem Formed.parse_escaped (h : q.Formed ctx Duration.IsPlain .request)
    (hfirst : q.BeginsFirst) : parse ctx (String.ofList q.escaped) = .ok q.pruned := by
  have hmark : dropWord? ['?'] q.escaped = none := dropWord?_options Text.escape q
  have hsplits : ∀ o ∈ q.options, Splits .request (escapedText o) o := fun o ho ↦
    splits_escapedText (mem_optionNames ho) (h.isValue o ho)
  have hinner : ∀ x ∈ q.expand, ∀ q' ∈ x.query, q'.isEmpty = false →
      read ctx .expansion (q'.body .expansion) = .ok q'.pruned := by
    intro x hx q' hq' _
    have hquery := (beginsFirst_iff.mp hfirst x hx).2 q' hq'
    obtain ⟨-, -, -, -, -, queries⟩ := h
    exact ((queries x hx q' hq').read_body nofun).1 hquery
  rw [parse_eq_read, String.toList_ofList, hmark, Option.getD_none, read_eq, pieces_escaped,
    ok_bind, h.readItems_options hsplits, h.mapM_parseExpandItem hfirst hinner, ok_bind, pruned_eq]

end Query

/-- A query that was read comes back from the text of a request, in which the values of its options
are escaped, if the properties of the model begin with letters or underscores, no function is
spelled as one of the words `not`, `null`, `true` and `false`, no duration is beyond the range of
numbers and every query of an expansion has options. -/
theorem escaped_query_reads_back (ctx : Context) (hbegin : ctx.model.NamesBegin)
    (hnames : ∀ f ∈ ctx.functions.signatures, f.name ∉ Expression.reservedWords) (t : String)
    (q : Query) (h : Query.parse ctx t = .ok q)
    (hfinite : ∀ q' ∈ q.all, ∀ d ∈ q'.durations, d.seconds.isFinite = true)
    (hwritten : q.IsWritten) : Query.parse ctx (String.ofList q.escaped) = .ok q := by
  have hformed : q.Formed ctx Duration.IsPlain .request :=
    (Query.formed_of_parse hnames h).imp fun q' hq' d hd hunsigned ↦
      hunsigned.isPlain (hfinite q' hq' d hd)
  rw [hformed.parse_escaped (hformed.beginsFirst hbegin), hformed.pruned_eq_self_iff.mpr hwritten]

/-- What `$expand=parts($top=05)&$filter='a%26%2B' eq '%25'` is read as. -/
def escapedQuery : Query :=
  { partsQuery with
    filter := some (.binary .equal (.constant (.string "a&+")) (.constant (.string "%"))) }

/-- The theorem at a query with an expansion and with characters that are escaped. -/
theorem parts_query_reads_back_escaped :
    Query.parse partsContext "$expand=parts($top=5)&$filter='a%26%2B' eq '%25'" =
      .ok escapedQuery := by
  have hbegin : partsContext.model.NamesBegin := by
    intro t ht p hp
    obtain rfl := List.mem_singleton.mp ht
    obtain rfl := List.mem_singleton.mp hp
    exact ⟨'p', rfl, .inl (by decide)⟩
  have hnames : ∀ f ∈ partsContext.functions.signatures, f.name ∉ Expression.reservedWords := by
    decide
  have hparse : Query.parse partsContext "$filter='a%26%2B' eq '%25'&$expand=parts($top=05)" =
      .ok escapedQuery := by decide +kernel
  have hall : escapedQuery.all = [escapedQuery, { Query.empty with top := some 5 }] := rfl
  have hfinite : ∀ q' ∈ escapedQuery.all, ∀ d ∈ q'.durations, d.seconds.isFinite = true := by
    rw [hall]
    decide
  have hwritten : escapedQuery.IsWritten := by
    unfold Query.IsWritten
    rw [hall]
    decide
  have hback := escaped_query_reads_back partsContext hbegin hnames _ escapedQuery hparse hfinite
    hwritten
  exact hback

end SensorQuery
