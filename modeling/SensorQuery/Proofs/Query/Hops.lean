import SensorQuery.Proofs.Query.RoundTrip
import SensorQuery.Proofs.Query.Shape

/-!
# The hops of a path

A path that was read is cut behind each step that leads to an entity. Each hop is again sorted from
steps as they are written, and is read back from its text if the text begins as a path does. A name
inside a path may begin in ways that the first name of a path may not.
-/

namespace SensorQuery.PropertyPath

open Scanner

variable {ctx : Context}

/-- The path begins with a letter, an underscore or as the alias of the key. -/
def BeginsFirst (p : PropertyPath) : Prop := RawStep.IsFirst p.text

instance (p : PropertyPath) : Decidable p.BeginsFirst := inferInstanceAs (Decidable (_ = true))

/-- The path is sorted from written steps, and leads to an entity at its end or not at all. -/
structure IsHop (ctx : Context) (p : PropertyPath) : Prop where
  exists_sorted : ∃ w more, p.Sorted ctx w more
  hops : p.hops = [p]

/-- A path begins as names do exactly if the word that it is read from does. -/
theorem Sorted.beginsFirst_iff {p : PropertyPath} {w : String} {more : List RawStep}
    (h : p.Sorted ctx w more) : p.BeginsFirst ↔ RawStep.IsFirst w.toList := by
  unfold BeginsFirst RawStep.IsFirst
  rw [h.text_eq]
  rcases h.name.1 with hw | ⟨hne, -⟩
  · rw [hw]
    rfl
  · obtain ⟨c, s, hs⟩ := List.exists_cons_of_ne_nil hne
    rw [hs]
    rfl

private theorem Sorted.stops_text {p : PropertyPath} {w : String} {more : List RawStep}
    (h : p.Sorted ctx w more) : Stops Char.isWhitespace p.text := by
  intro c hc
  have hblank := h.isItem_text.edged.front c hc
  cases hwhite : c.isWhitespace with
  | false => rfl
  | true =>
    rw [Text.isBlank_of_isWhitespace c hwhite] at hblank
    cases hblank

/-- A path that could have been read is read from its text. -/
theorem Formed.parse_text {p : PropertyPath} {w : String} {more : List RawStep}
    (h : p.Formed ctx w more) : parse ctx (String.ofList p.text) = .ok p := by
  have hfound := h.scan_text (RawStep.follows_of_ends ends_nil)
  rw [List.append_nil] at hfound
  exact entire_of_found h.stops_text hfound

/-- What is read as a path has the form of one. -/
theorem exists_of_parse {t : String} {p : PropertyPath} (h : parse ctx t = .ok p) :
    ∃ w more, p.Formed ctx w more := by
  obtain ⟨rest, hscan, -⟩ := found_of_entire h
  obtain ⟨w, more, _, hformed, -⟩ := exists_of_scan hscan
  exact ⟨w, more, hformed⟩

/-- A path is read from names, slashes and indices with blanks around them. -/
theorem isPathChar_of_parse {t : String} {p : PropertyPath} (h : parse ctx t = .ok p) :
    ∀ c ∈ t.toList, isPathChar c = true ∨ c.isWhitespace = true := by
  obtain ⟨rest, hscan, hrest⟩ := found_of_entire h
  obtain ⟨w, hw, hpath⟩ := exists_of_scan_eq hscan
  have htext := List.takeWhile_append_dropWhile (p := Char.isWhitespace) (l := t.toList)
  rw [← htext, hw]
  simp only [List.forall_mem_append]
  exact ⟨fun c hc ↦ .inr (List.all_eq_true.mp List.all_takeWhile c hc),
    fun c hc ↦ .inl (hpath c hc), fun c hc ↦ .inr (hrest c hc)⟩

/-- A path that begins as it should is read from its text. -/
theorem IsHop.parse_text {p : PropertyPath} (h : p.IsHop ctx) (hfirst : p.BeginsFirst) :
    parse ctx (String.ofList p.text) = .ok p := by
  obtain ⟨w, more, hsorted⟩ := h.exists_sorted
  exact Formed.parse_text ⟨hsorted, hsorted.beginsFirst_iff.mp hfirst⟩

/-- What is read as a path begins as a path does. -/
theorem IsHop.beginsFirst_of_parse {p q : PropertyPath} (h : p.IsHop ctx)
    (hq : parse ctx (String.ofList p.text) = .ok q) : p.BeginsFirst := by
  obtain ⟨w, more, hsorted⟩ := h.exists_sorted
  obtain ⟨rest, hfound, -⟩ := found_of_entire hq
  rw [String.toList_ofList, hsorted.stops_text.dropWhile_eq] at hfound
  obtain ⟨v, _, t, hformed, htext, -⟩ := exists_of_scan hfound
  unfold BeginsFirst RawStep.IsFirst
  rw [htext]
  have hfirst := hformed.first
  obtain ⟨c, s, hs⟩ : ∃ c s, v.toList = c :: s := by
    cases hv : v.toList with
    | nil =>
      rw [hv] at hfirst
      cases hfirst
    | cons c s => exact ⟨c, s, rfl⟩
  rw [hs] at hfirst ⊢
  exact hfirst

/-! ### Cutting behind entities -/

/-- Behind a step that leads to an entity, the next is read against an entity. -/
theorem position_of_isHop {position : Position} {raw : RawStep} {p : PathStep × Position}
    (h : classifyStep ctx position raw = .ok p) (hhop : p.1.isHop = true) : p.2 = .entity := by
  obtain ⟨step, next⟩ := p
  cases classifyStep_eq_ok_iff.mp h with
  | navigation | customLink => rfl
  | _ => cases hhop

/-- Steps are sorted one after the other, each from where the last has led. -/
theorem classify_of_step {position : Position} {raw : RawStep} {raws : List RawStep}
    {p : PathStep × Position} {more : List PathStep}
    (hstep : classifyStep ctx position raw = .ok p) (hmore : classify ctx p.2 raws = .ok more) :
    classify ctx position (raw :: raws) = .ok (p.1 :: more) := by
  rw [classify, hstep]
  simp only [bind, Except.bind, hmore]
  rfl

-- The steps are sorted from some of the written steps, and form one hop.
private def Hop (ctx : Context) (position : Position) (raws : List RawStep)
    (hop : List PathStep) : Prop :=
  ∃ raws' : List RawStep, raws' ≠ [] ∧ (∀ r ∈ raws', r ∈ raws) ∧
    classify ctx position raws' = .ok hop ∧ hopsOf hop = [hop]

private theorem Hop.mono {position : Position} {raws raws' : List RawStep} {hop : List PathStep}
    (h : Hop ctx position raws hop) (hsub : ∀ r ∈ raws, r ∈ raws') :
    Hop ctx position raws' hop := by
  obtain ⟨written, hne, hmem, hsorted⟩ := h
  exact ⟨written, hne, fun r hr ↦ hsub r (hmem r hr), hsorted⟩

-- The first hop goes on from where the path stands, and each other starts from an entity.
private theorem hop_of_classify {position : Position} {raws : List RawStep}
    {steps : List PathStep} (h : classify ctx position raws = .ok steps) :
    (hopsOf steps = [] ∧ raws = []) ∨ ∃ hop hops, hopsOf steps = hop :: hops ∧
      Hop ctx position raws hop ∧ ∀ hop' ∈ hops, Hop ctx .entity raws hop' := by
  induction raws generalizing position steps with
  | nil =>
    cases h
    exact .inl ⟨rfl, rfl⟩
  | cons raw raws ih =>
    obtain ⟨p, more, hstep, hmore, rfl⟩ := classify_cons h
    have hsub : ∀ r ∈ raws, r ∈ raw :: raws := fun r hr ↦ List.mem_cons_of_mem raw hr
    right
    rw [hopsOf]
    by_cases hhop : p.1.isHop = true
    · rw [if_pos hhop]
      rw [position_of_isHop hstep hhop] at hmore
      refine ⟨_, _, rfl, ⟨[raw], List.cons_ne_nil _ _, by simp, classify_of_step hstep rfl, ?_⟩, ?_⟩
      · rw [hopsOf, if_pos hhop]
        rfl
      · rcases ih hmore with ⟨hnil, -⟩ | ⟨hop, hops, hhops, hfirst, hothers⟩
        · rw [hnil]
          exact fun hop' hmem ↦ by cases hmem
        · rw [hhops]
          exact List.forall_mem_cons.mpr
            ⟨hfirst.mono hsub, fun hop' hmem ↦ (hothers hop' hmem).mono hsub⟩
    · rw [if_neg hhop]
      rcases ih hmore with ⟨hnil, hraws⟩ | ⟨hop, hops, hhops, hfirst, hothers⟩
      · simp only [hnil]
        refine ⟨_, _, rfl, ⟨[raw], List.cons_ne_nil _ _, by simp, classify_of_step hstep rfl, ?_⟩,
          fun hop' hmem ↦ by cases hmem⟩
        rw [hopsOf, if_neg hhop]
        rfl
      · obtain ⟨written, -, hmem, hsorted, hone⟩ := hfirst
        simp only [hhops]
        refine ⟨_, _, rfl, ⟨raw :: written, List.cons_ne_nil _ _, ?_,
          classify_of_step hstep hsorted, ?_⟩, fun hop' hmem' ↦ (hothers hop' hmem').mono hsub⟩
        · exact List.forall_mem_cons.mpr
            ⟨List.mem_cons_self, fun r hr ↦ List.mem_cons_of_mem raw (hmem r hr)⟩
        · rw [hopsOf, if_neg hhop, hone]

/-- The hops of a path that is read are hops, and there is at least one. -/
theorem isHop_of_parse {t : String} {p : PropertyPath} (h : parse ctx t = .ok p) :
    p.hops ≠ [] ∧ ∀ hop ∈ p.hops, hop.IsHop ctx := by
  obtain ⟨w, more, hformed⟩ := exists_of_parse h
  have hwritten : ∀ r ∈ RawStep.name w :: more, r.Written :=
    List.forall_mem_cons.mpr ⟨hformed.name, hformed.others⟩
  have hishop (hop : List PathStep) (h : Hop ctx .entity (.name w :: more) hop) :
      IsHop ctx ⟨hop⟩ := by
    obtain ⟨raws, hne, hmem, hsorted, hone⟩ := h
    refine ⟨?_, by rw [hops, hone, List.map_singleton]⟩
    cases raws with
    | nil => exact absurd rfl hne
    | cons raw raws =>
      obtain ⟨hraw, hraws⟩ := List.forall_mem_cons.mp hmem
      cases raw with
      | index i =>
        obtain ⟨_, _, hstep, -⟩ := classify_cons hsorted
        cases hstep
      | name v =>
        exact ⟨v, raws, hwritten _ hraw, fun r hr ↦ hwritten r (hraws r hr), hsorted⟩
  rcases hop_of_classify hformed.sorted with ⟨-, hnil⟩ | ⟨hop, hops', hhops, hfirst, hothers⟩
  · cases hnil
  · rw [hops, hhops, List.map_cons]
    refine ⟨List.cons_ne_nil _ _, List.forall_mem_cons.mpr ⟨hishop hop hfirst, ?_⟩⟩
    exact List.forall_mem_map.mpr fun hop' hmem ↦ hishop hop' (hothers hop' hmem)

end SensorQuery.PropertyPath
