import SensorQuery.Text.Form

/-!
# Texts escaped for a form

A text whose percent signs, ampersands and plus signs are escaped has no ampersand, and stands for
the text as it was. Decoding makes no text longer.
-/

namespace SensorQuery.Text

/-- The character as a form carries it. -/
def escapeChar (c : Char) : List Char :=
  if c = '%' then ['%', '2', '5']
  else if c = '&' then ['%', '2', '6']
  else if c = '+' then ['%', '2', 'B']
  else [c]

/-- The text as a form carries it. -/
def escape (s : List Char) : List Char := s.flatMap escapeChar

/-- An escaped text holds no ampersand. -/
theorem not_mem_escape (s : List Char) : '&' ∉ escape s := by
  have hchar (c : Char) : '&' ∉ escapeChar c := by grind [escapeChar]
  intro hmem
  obtain ⟨c, -, hc⟩ := List.mem_flatMap.mp hmem
  exact hchar c hc

/-- Bytes below `0x80` are characters of their own. -/
theorem utf8Chars?_ascii {bytes : List Nat} (h : ∀ b ∈ bytes, b < 0x80) :
    utf8Chars? bytes = some (bytes.map Char.ofNat) := by
  induction bytes with
  | nil => rfl
  | cons b bytes ih =>
    obtain ⟨hb, hbytes⟩ := List.forall_mem_cons.mp h
    unfold utf8Chars?
    rw [if_pos hb, ih hbytes]
    rfl

-- Escaped characters that follow each other are decoded as one run of bytes.
private theorem formDecodeFrom_escape {pending : List Nat} (h : ∀ b ∈ pending, b < 0x80)
    (s : List Char) :
    formDecodeFrom pending (escape s) = some (pending.map Char.ofNat ++ s) := by
  induction s generalizing pending with
  | nil =>
    rw [escape, List.flatMap_nil, formDecodeFrom, afterBytes?, utf8Chars?_ascii h]
    rfl
  | cons c s ih =>
    have hbyte {b : Nat} {low : Char} (hb : b < 0x80) (hlow : hexByte? '2' low = some b)
        (hc : Char.ofNat b = c) :
        formDecodeFrom pending ('%' :: '2' :: low :: escape s) =
          some (pending.map Char.ofNat ++ c :: s) := by
      have hmore : ∀ b' ∈ pending ++ [b], b' < 0x80 :=
        List.forall_mem_append.mpr ⟨h, List.forall_mem_singleton.mpr hb⟩
      rw [formDecodeFrom]
      simp only [hlow]
      rw [ih hmore, List.map_append, List.map_singleton, hc, List.append_assoc]
      rfl
    rw [escape, List.flatMap_cons, escapeChar]
    split
    · next hc => exact hbyte (by decide) (by decide) hc.symm
    split
    · next hc => exact hbyte (by decide) (by decide) hc.symm
    split
    · next hc => exact hbyte (by decide) (by decide) hc.symm
    · next hpercent _ hplus =>
      have hplain : formDecodeFrom [] (escape s) = some s := ih fun b hb ↦ by cases hb
      rw [List.singleton_append, formDecodeFrom, ← escape, hplain, afterBytes?, utf8Chars?_ascii h,
        Option.map_some, plusAsSpace, if_neg hplus]
      · rfl
      · rintro _ _ _ rfl
        exact absurd rfl hpercent

/-- A form stands for the text that was escaped in it. -/
theorem formDecode?_escape (s : List Char) : formDecode? (escape s) = some s :=
  formDecodeFrom_escape (fun b hb ↦ by cases hb) s

/-- Characters take at least a byte each. -/
theorem length_utf8Chars?_le {bytes : List Nat} {chars : List Char}
    (h : utf8Chars? bytes = some chars) : chars.length ≤ bytes.length := by
  fun_induction utf8Chars? bytes generalizing chars with
  | _ => grind [Option.bind_eq_some_iff, Option.map_eq_some_iff]

private theorem length_afterBytes?_le {bytes : List Nat} {rest : Option (List Char)}
    {s : List Char} {n : Nat} (h : afterBytes? bytes rest = some s)
    (hrest : ∀ t, rest = some t → t.length ≤ n) : s.length ≤ bytes.length + n := by
  obtain ⟨chars, hchars, h⟩ := Option.bind_eq_some_iff.mp h
  obtain ⟨more, hmore, h⟩ := Option.bind_eq_some_iff.mp h
  cases h
  have hfront := length_utf8Chars?_le hchars
  have hback := hrest more hmore
  rw [List.length_append]
  omega

private theorem length_formDecodeFrom_le {pending : List Nat} {s t : List Char}
    (h : formDecodeFrom pending s = some t) : t.length ≤ pending.length + s.length := by
  fun_induction formDecodeFrom pending s generalizing t with
  | case1 pending => exact length_afterBytes?_le h (by rintro _ ⟨⟩; exact Nat.le_refl _)
  | case2 pending high low s b hb ih =>
    have hmore := ih h
    simp only [List.length_append, List.length_cons, List.length_nil] at hmore ⊢
    omega
  | case3 pending high low s hb ih =>
    refine length_afterBytes?_le h fun t ht ↦ ?_
    obtain ⟨t', ht', rfl⟩ := Option.map_eq_some_iff.mp ht
    have hmore := ih ht'
    simpa using hmore
  | case4 pending c s hs ih =>
    refine length_afterBytes?_le h fun t ht ↦ ?_
    obtain ⟨t', ht', rfl⟩ := Option.map_eq_some_iff.mp ht
    have hmore := ih ht'
    simpa using hmore

/-- Decoding makes no text longer. -/
theorem length_formDecode?_le {s t : List Char} (h : formDecode? s = some t) :
    t.length ≤ s.length := by
  simpa using length_formDecodeFrom_le h

end SensorQuery.Text
