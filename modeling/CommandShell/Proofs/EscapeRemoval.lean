import CommandShell.Proofs.SegmentLexing

/-! Removing backslashes undoes putting them in, between double quotes and outside of quotes. It goes
once through a text, which can be cut wherever no backslash loses the byte behind it. -/
namespace CommandShell.Line
open Gathering (unescape_cons)

/-- A text as it stands between double quotes: a backslash before each dollar sign, backquote, double
quote and backslash. -/
def escapedInDouble (s : Bytes) : Bytes :=
  s.flatMap fun b => if b ∈ ([36, 96, 34, 92] : Bytes) then [92, b] else [b]

/-- A text as it may stand outside of quotes: a backslash before every byte but a newline, which would
join two lines. -/
def escapedBare (s : Bytes) : Bytes := s.flatMap fun b => if b = 10 then [b] else [92, b]

/-- Removal that looks for a backslash first and keeps a text without one as it is. -/
def unescapeIfNeeded (quoted : Bool) (s : Bytes) : Bytes :=
  if s.contains 92 then unescape quoted s else s

/-- Whether going through a text comes to a backslash with no byte behind it. -/
def endsOnBackslash (quoted : Bool) : Bytes → Bool
  | [] => false
  | [b] => b == 92
  | b :: c :: s =>
    if b = 92 ∧ (c = 10 ∨ quoted = false ∨ escapable c) then endsOnBackslash quoted s
    else endsOnBackslash quoted (c :: s)

theorem unescape_hidden {quoted : Bool} {c : UInt8} (line : c ≠ 10)
    (h : quoted = false ∨ escapable c = true) (s : Bytes) :
    unescape quoted (92 :: c :: s) = c :: unescape quoted s := by
  have hc : (!quoted || escapable c) = true := by simpa using h
  rw [unescape, if_pos rfl, if_neg line, if_pos hc]

/-- A backslash that hides nothing between double quotes is a byte like any other. -/
theorem unescape_kept {c : UInt8} (line : c ≠ 10) (h : escapable c = false) (s : Bytes) :
    unescape true (92 :: c :: s) = 92 :: unescape true (c :: s) := by
  rw [unescape, if_pos rfl, if_neg line, if_neg (by simp [h])]

theorem unescape_escapedInDouble (s : Bytes) : unescape true (escapedInDouble s) = s := by
  induction s with
  | nil => rfl
  | cons b s ih =>
    rw [escapedInDouble, List.flatMap_cons, ← escapedInDouble]
    split
    · next hb =>
      have hesc : escapable b = true := by simpa [escapable_eq] using hb
      have hline : b ≠ 10 := by
        rintro rfl
        exact absurd hesc (by decide)
      rw [List.cons_append, List.singleton_append, unescape_hidden hline (.inr hesc), ih]
    · next hb =>
      have hback : b ≠ 92 := by
        rintro rfl
        exact hb (by decide)
      rw [List.singleton_append, unescape_cons true _ hback, ih]

theorem unescape_escapedBare (s : Bytes) : unescape false (escapedBare s) = s := by
  induction s with
  | nil => rfl
  | cons b s ih =>
    rw [escapedBare, List.flatMap_cons, ← escapedBare]
    split
    · next hb =>
      subst hb
      rw [List.singleton_append, unescape_cons false _ (by decide), ih]
    · next hb =>
      rw [List.cons_append, List.singleton_append, unescape_hidden hb (.inl rfl), ih]

theorem unescapeIfNeeded_eq (quoted : Bool) (s : Bytes) :
    unescapeIfNeeded quoted s = unescape quoted s := by
  unfold unescapeIfNeeded
  split
  · rfl
  · next hs =>
    have hback : ∀ b ∈ s, b ≠ 92 := by
      rintro b hb rfl
      exact hs (List.contains_iff_mem.mpr hb)
    simpa [unescape] using (unescape_texts hback quoted []).symm

/-- The byte behind a backslash is looked at and at most that byte is passed over, so that nothing
changes for a text when another follows it. -/
theorem unescape_append {quoted : Bool} {s : Bytes} (h : endsOnBackslash quoted s = false)
    (t : Bytes) : unescape quoted (s ++ t) = unescape quoted s ++ unescape quoted t := by
  fun_induction endsOnBackslash quoted s with
  | case1 => rfl
  | case2 b =>
    have hb : b ≠ 92 := by simpa using h
    rw [List.singleton_append, unescape_cons quoted t hb]
    rfl
  | case3 b c s hpair ih =>
    obtain ⟨rfl, hc⟩ := hpair
    rw [List.cons_append, List.cons_append]
    by_cases hline : c = 10
    · subst hline
      rw [unescape, unescape, if_pos rfl, if_pos rfl, if_pos rfl, if_pos rfl, ih h]
    · have hc := hc.resolve_left hline
      rw [unescape_hidden hline hc, unescape_hidden hline hc, ih h, List.cons_append]
  | case4 b c s hpair ih =>
    have hrest := ih h
    rw [List.cons_append, List.cons_append]
    rw [List.cons_append] at hrest
    by_cases hb : b = 92
    · subst hb
      simp only [true_and, not_or, Bool.not_eq_false, Bool.not_eq_true] at hpair
      obtain ⟨hline, rfl, hc⟩ := hpair
      rw [unescape_kept hline hc, unescape_kept hline hc, hrest, List.cons_append]
    · rw [unescape_cons quoted _ hb, unescape_cons quoted _ hb, hrest, List.cons_append]

/-- Removing backslashes gives back every text that was escaped for its place, between double quotes or
outside of quotes. A text without a backslash need not be gone through. And in both places the parts of
a text can be taken one after the other, unless the first ends on a backslash that has no byte. -/
theorem unescape_undoes_escaping :
    (∀ s, unescape true (escapedInDouble s) = s) ∧ (∀ s, unescape false (escapedBare s) = s) ∧
      (∀ quoted s, unescapeIfNeeded quoted s = unescape quoted s) ∧
      ∀ quoted s t, endsOnBackslash quoted s = false →
        unescape quoted (s ++ t) = unescape quoted s ++ unescape quoted t :=
  ⟨unescape_escapedInDouble, unescape_escapedBare, unescapeIfNeeded_eq,
    fun _ _ t h => unescape_append h t⟩

/-- Three backslashes and a newline: what is escaped comes back, and the text can be cut behind the
second backslash and not behind the third. -/
theorem unescape_undoes_escaping_backslashes :
    let s : Bytes := [92, 92, 92, 10]
    escapedInDouble s = [92, 92, 92, 92, 92, 92, 10] ∧ unescape true (escapedInDouble s) = s ∧
      unescape false (escapedBare s) = s ∧ unescapeIfNeeded true s = [92] ∧
      endsOnBackslash true [92, 92] = false ∧
      unescape true ([92, 92] ++ [92, 10]) = unescape true [92, 92] ++ unescape true [92, 10] ∧
      endsOnBackslash true [92, 92, 92] = true ∧
      unescape true ([92, 92, 92] ++ [10]) ≠ unescape true [92, 92, 92] ++ unescape true [10] := by
  intro s
  obtain ⟨hdouble, hbare, hquick, happend⟩ := unescape_undoes_escaping
  have hclosed : endsOnBackslash true [92, 92] = false := by decide
  exact ⟨by decide, hdouble s, hbare s, (hquick true s).trans (by decide), hclosed,
    happend true _ _ hclosed, by decide, by decide⟩

end CommandShell.Line
