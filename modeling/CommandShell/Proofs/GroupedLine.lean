import CommandShell.Proofs.JoinedLines
import CommandShell.Proofs.TokenRun

/-! A line between parentheses. Where the closing parenthesis is not part of a comment or a word, the
lexemes of the line stand between those of the parentheses, and what is read of the line is read one
level deeper. -/
namespace CommandShell.Line

namespace State

/-- The same state with another list around the outermost one. -/
def within (up : Level) (st : State) : State := { st with outer := st.outer ++ [up] }

theorem step_within {up : Level} {st next : State} {x : Spaced} (h : st.step x = some next) :
    (st.within up).step x = some (next.within up) := by
  obtain ⟨lv, outer⟩ := st
  obtain ⟨sp, x⟩ := x
  rcases lexeme_cases x with rfl | rfl | rfl | ⟨op, kind, hop, rfl⟩ | rfl | rfl | ⟨op, hop, rfl⟩ | hx
  · rw [step_newline] at h ⊢
    split at h
    · next idle =>
      cases h
      exact if_pos idle
    · next idle =>
      obtain ⟨lv', he, rfl⟩ := Option.map_eq_some_iff.mp h
      exact (if_neg idle).trans (Option.map_eq_some_iff.mpr ⟨lv', he, rfl⟩)
  · obtain ⟨lv', he, rfl⟩ := Option.map_eq_some_iff.mp h
    exact Option.map_eq_some_iff.mpr ⟨lv', he, rfl⟩
  · obtain ⟨t, ht, rfl⟩ := Option.map_eq_some_iff.mp h
    exact Option.map_eq_some_iff.mpr ⟨t, ht, rfl⟩
  · rw [step_connective _ _ hop] at h ⊢
    obtain ⟨t, ht, rfl⟩ := Option.map_eq_some_iff.mp h
    exact Option.map_eq_some_iff.mpr ⟨t, ht, rfl⟩
  · rw [step_open] at h ⊢
    split at h
    · next idle =>
      cases h
      exact if_pos idle
    · cases h
  · cases outer with
    | nil => cases h
    | cons below outer =>
      rw [step_close] at h ⊢
      cases ht : lv.tree? with
      | none => simp [ht] at h
      | some inner =>
        simp only [ht] at h
        split at h
        · cases h
        · next absent =>
          cases h
          simp only [within, List.cons_append, ht, if_neg absent]
  · rw [step_redirect _ _ hop] at h ⊢
    obtain ⟨stage, hs, rfl⟩ := Option.map_eq_some_iff.mp h
    exact Option.map_eq_some_iff.mpr ⟨stage, hs, rfl⟩
  · rw [step_word _ _ hx] at h ⊢
    obtain ⟨stage, hs, rfl⟩ := Option.map_eq_some_iff.mp h
    exact Option.map_eq_some_iff.mpr ⟨stage, hs, rfl⟩

theorem run_within {up : Level} {st last : State} {xs : List Spaced} (h : st.run xs = some last) :
    (st.within up).run xs = some (last.within up) := by
  induction xs generalizing st with
  | nil =>
    cases h
    rfl
  | cons x xs ih =>
    obtain ⟨next, hstep, hrun⟩ := Option.bind_eq_some_iff.mp h
    rw [run, step_within hstep]
    exact ih hrun

/-- Words open and close no groups. -/
theorem outer_run_words {st last : State} {xs : List Spaced}
    (hxs : ∀ x ∈ xs, isWord x.lexeme = true) (h : st.run xs = some last) : last.outer = st.outer := by
  induction xs generalizing st with
  | nil =>
    cases h
    rfl
  | cons x xs ih =>
    obtain ⟨hx, hxs⟩ := List.forall_mem_cons.mp hxs
    obtain ⟨next, hstep, hrun⟩ := Option.bind_eq_some_iff.mp h
    rw [step_word st x.spaced hx] at hstep
    obtain ⟨stage, -, rfl⟩ := Option.map_eq_some_iff.mp hstep
    have houter := ih hxs hrun
    exact houter

theorem outer_of_tree? {st : State} {t : Tree} (h : st.tree? = some t) : st.outer = [] := by
  obtain ⟨lv, outer⟩ := st
  cases outer with
  | nil => rfl
  | cons up outer => cases h

end State

theorem lineMarks_nil : lineMarks [] = [] := by
  rw [lineMarks, if_pos Utf8.isValid_nil, marks]

/-- The text between parentheses. -/
def grouped (a : Bytes) : Bytes := 40 :: (a ++ [41])

/-- The lexemes of a text between parentheses, given its own: the closing parenthesis is one of them,
whatever comes behind it, or it is part of a comment or a word. -/
theorem lexemes_grouped {a : Bytes} {xs : List Spaced} (ha : lexemes a = some xs) :
    (∃ sp, ∀ rest, lexemes (grouped a ++ rest) = (scan false false (lineMarks rest)).map
      ((⟨false, .operator .open⟩ :: (xs ++ [⟨sp, .operator .close⟩])) ++ ·)) ∨
    ∃ front own others, xs = front ++ own ∧
      (∀ y ∈ own ++ others, State.isWord y.lexeme = true) ∧
      lexemes (grouped a) = some (⟨false, .operator .open⟩ :: (front ++ others)) := by
  have opening (rest : Bytes) : lexemes (grouped a ++ rest) =
      (scan false false (lineMarks (a ++ 41 :: rest))).map (⟨false, .operator .open⟩ :: ·) := by
    have hmarks : lineMarks ([] ++ 40 :: (a ++ 41 :: rest)) =
        marks false [] ++ .byte 40 :: lineMarks (a ++ 41 :: rest) :=
      lineMarks_append _ Utf8.isValid_nil (by decide) (by decide) (by simp)
    have htext : grouped a ++ rest = [] ++ 40 :: (a ++ 41 :: rest) := by simp [grouped]
    rw [lexemes_eq_scan, htext, hmarks]
    exact scan_operator false false rfl
  have hidden {front own others : List Spaced} (hxs : xs = front ++ own)
      (words : ∀ y ∈ own ++ others, State.isWord y.lexeme = true)
      (h : scan false false (lineMarks (a ++ [41])) = some (front ++ others)) :
      ∃ front own others, xs = front ++ own ∧
        (∀ y ∈ own ++ others, State.isWord y.lexeme = true) ∧
        lexemes (grouped a) = some (⟨false, .operator .open⟩ :: (front ++ others)) := by
    refine ⟨front, own, others, hxs, words, ?_⟩
    rw [← List.append_nil (grouped a), opening, h]
    rfl
  have nowords : ∀ y ∈ ([] : List Spaced) ++ [], State.isWord y.lexeme = true := by simp
  cases valid : Utf8.isValid a with
  | false =>
    refine .inr (hidden (List.append_nil xs).symm nowords ?_)
    rw [lineMarks_of_bad [] valid (by decide), ← lexemes_eq_scan, ha, List.append_nil]
  | true =>
    have hmarks : lineMarks a = marks false a := if_pos valid
    have hcut (rest : Bytes) :
        lineMarks (a ++ 41 :: rest) = lineMarks a ++ .byte 41 :: lineMarks rest := by
      rw [hmarks]
      exact lineMarks_append rest valid (by decide) (by decide) (by simp)
    have hseam : Seam 41 (.operator .close) false false (lineMarks a) xs :=
      scan_seam divider_close ha (by simp)
    cases hseam with
    | apart sp walk joined =>
      refine .inl ⟨sp, fun rest => ?_⟩
      rw [opening, hcut, joined, Option.map_map]
      congr 1
      funext zs
      simp
    | closed walk joined =>
      refine .inr (hidden (List.append_nil xs).symm nowords ?_)
      rw [hcut, joined, List.append_nil]
    | hidden newline own words joined =>
      refine .inr (hidden own words ?_)
      rw [hcut, lineMarks_nil, joined]

/-- A line that is read in parentheses as it is on its own is read so in front of anything. -/
theorem run_grouped {a : Bytes} {inner : Tree} (ha : parse a = .ok inner)
    (hgroup : parse (grouped a) = .ok (.subshell inner)) :
    ∃ front, (∀ rest, lexemes (grouped a ++ rest) =
        (scan false false (lineMarks rest)).map (front ++ ·)) ∧
      State.run {} front = some (inStage {} [] (.reading (.group inner) .none .rest)) := by
  rw [parse_eq_ok_iff] at ha hgroup
  obtain ⟨xs, st, hxs, hrun, ht⟩ := read?_eq_some_iff.mp ha
  obtain ⟨ys, last, hys, hrun', ht'⟩ := read?_eq_some_iff.mp hgroup
  have houter := State.outer_of_tree? ht
  have hopen : State.step {} ⟨false, .operator .open⟩ = some (State.within {} {}) := rfl
  rcases lexemes_grouped hxs with ⟨sp, joined⟩ | ⟨front, own, others, rfl, words, hidden⟩
  · refine ⟨_, joined, ?_⟩
    have hfront := joined []
    rw [List.append_nil, hys, lineMarks_nil, scan.eq_1, Option.map_some, List.append_nil,
      Option.some.injEq] at hfront
    have hlevel : st.level.tree? = some inner := by
      rwa [State.tree?, houter, List.isEmpty_nil, if_pos rfl] at ht
    have hlast := hrun'
    rw [hfront, State.run, hopen, Option.bind_some, State.run_append, State.run_within hrun,
      Option.bind_some, State.run, State.step_close, State.within, houter] at hlast
    simp only [List.nil_append, hlevel] at hlast
    rw [← hfront, hrun']
    split at hlast
    · cases hlast
    · exact hlast.symm
  · -- The group would still be open.
    rw [hidden, Option.some.injEq] at hys
    obtain ⟨mid, hfront, hown⟩ := Option.bind_eq_some_iff.mp ((State.run_append ..).symm.trans hrun)
    have hmid := State.outer_run_words (fun y hy => words y (List.mem_append_left others hy)) hown
    rw [← hys, State.run, hopen, Option.bind_some, State.run_append, State.run_within hfront,
      Option.bind_some] at hrun'
    have hopened := State.outer_run_words (fun y hy => words y (List.mem_append_right own hy)) hrun'
    rw [State.outer_of_tree? ht', State.within, ← hmid, houter] at hopened
    cases hopened

end CommandShell.Line
