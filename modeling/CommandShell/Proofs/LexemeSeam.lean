import CommandShell.Proofs.Quoting

/-! Lexing across a newline or a closing parenthesis. What can be lexed up to there is lexed on its
own, and the lexer starts afresh behind it, unless the end of what is read came first. A parenthesis
may also stand in a comment or behind a backslash. -/
namespace CommandShell.Line

/-- A byte that is a lexeme of its own behind whatever comes before it, outside quotes and comments. -/
structure Divider (c : UInt8) (x : Lexeme) : Prop where
  ends : endsWord c = true
  single : c ∉ [38, 59, 60, 62, 124]
  inert : startsExpansion c = false
  scan_eq : ∀ w sp more, scan w sp (.byte c :: more) = (scan false false more).map (⟨sp, x⟩ :: ·)

theorem divider_newline : Divider 10 .newline where
  ends := by decide
  single := by decide
  inert := by decide
  scan_eq w sp _ := scan_newline w sp

theorem divider_close : Divider 41 (.operator .close) where
  ends := by decide
  single := by decide
  inert := by decide
  scan_eq w sp _ := scan_operator w sp rfl

section
variable {c : UInt8} {x : Lexeme}

/-- A newline ends a comment; any other byte stays behind a comment that has ended. -/
theorem skipComment_append {ms : List Mark} (h : c = 10 ∨ skipComment ms ≠ []) (more : List Mark) :
    skipComment (ms ++ .byte c :: more) = skipComment ms ++ .byte c :: more := by
  fun_induction skipComment ms with
  | case1 rest => simp [skipComment]
  | case2 b rest hb ih => simpa [skipComment, hb] using ih h
  | case3 ms hms =>
    cases ms with
    | nil =>
      obtain rfl := h.resolve_right (by simp)
      rfl
    | cons m ms =>
      cases m with
      | byte b => exact absurd rfl (hms b ms)
      | joint | joiner | closer | bad => rfl

theorem skipComment_hides {ms : List Mark} (newline : c ≠ 10) (h : skipComment ms = []) :
    skipComment (ms ++ [.byte c]) = [] := by
  fun_induction skipComment ms with
  | case1 rest => cases h
  | case2 b rest hb ih => simpa [skipComment, hb] using ih h
  | case3 ms hms =>
    subst h
    simp [skipComment, newline]

theorem scanSingle_append {ms after : List Mark} {s : Bytes} (more : List Mark)
    (h : scanSingle ms = some (s, after)) : scanSingle (ms ++ more) = some (s, after ++ more) := by
  fun_induction scanSingle ms generalizing s after with
  | case1 | case2 | case3 => cases h
  | case4 rest =>
    cases h
    rfl
  | case5 b rest hb ih =>
    obtain ⟨⟨s', after'⟩, he, hp⟩ := Option.map_eq_some_iff.mp h
    cases hp
    simp [scanSingle, hb, ih he]
  | case6 rest ih | case7 rest ih =>
    obtain ⟨⟨s', after'⟩, he, hp⟩ := Option.map_eq_some_iff.mp h
    cases hp
    simp [scanSingle, ih he]

theorem scanDouble_append {inText : Bool} {ms after : List Mark} {s : Bytes} (more : List Mark)
    (h : scanDouble inText ms = some (s, after)) :
    scanDouble inText (ms ++ more) = some (s, after ++ more) := by
  fun_induction scanDouble inText ms generalizing s after with
  | case1 | case2 | case3 | case10 => cases h
  | case4 _ rest ih => simpa [scanDouble] using ih h
  | case5 _ rest ih =>
    obtain ⟨⟨s', after'⟩, he, hp⟩ := Option.map_eq_some_iff.mp h
    cases hp
    simp [scanDouble, ih he]
  | case6 _ c rest ih | case7 _ rest ih | case8 _ rest ih =>
    obtain ⟨⟨s', after'⟩, he, hp⟩ := Option.map_eq_some_iff.mp h
    cases hp
    simp [scanDouble, ih he]
  | case9 _ rest =>
    cases h
    simp [scanDouble]
  | case11 _ b rest hb hc hj h34 hexp ih =>
    obtain ⟨⟨s', after'⟩, he, hp⟩ := Option.map_eq_some_iff.mp h
    cases hp
    cases rest with
    | nil => simp [scanDouble] at he
    | cons m rest =>
      have hexp' : ¬ (decide (b = 96) ||
          (decide (b = 36) && expands (m :: rest ++ more))) = true := by
        have hsame : expands (m :: rest ++ more) = expands (m :: rest) := by cases m <;> rfl
        rwa [hsame]
      rw [List.cons_append, scanDouble, if_neg h34, if_neg hexp', ih he]
      · rfl
      · intro c _ hm
        cases hm
        exact hb c rest rfl
      · intro _ hm
        cases hm
        exact hc rest rfl
      · intro _ hm
        cases hm
        exact hj rest rfl

theorem expands_append (hc : Divider c x) (ms more : List Mark) :
    expands (ms ++ .byte c :: more) = expands ms := by
  cases ms with
  | nil => exact hc.inert
  | cons m ms => cases m <;> rfl

theorem scanOperator_append (hc : Divider c x) {ms after : List Mark} {op : Operator}
    (more : List Mark) (h : scanOperator ms = some (op, after)) :
    scanOperator (ms ++ .byte c :: more) = some (op, after ++ .byte c :: more) := by
  have hsingle := hc.single
  simp only [List.mem_cons, List.not_mem_nil, or_false, not_or] at hsingle
  obtain ⟨h38, h59, h60, h62, h124⟩ := hsingle
  have first {m : Mark} {rest : List Mark} (hm : m ≠ .byte c) (hne : ∀ tail, rest ≠ m :: tail) :
      ∀ tail, rest ++ .byte c :: more ≠ m :: tail := by
    intro tail he
    cases rest with
    | nil => exact hm (List.cons.inj he).1.symm
    | cons m' rest => exact hne rest (by rw [(List.cons.inj he).1])
  unfold scanOperator at h
  split at h
  case h_1 | h_13 => cases h
  case h_2 hne | h_5 hne =>
    cases h
    rw [List.cons_append, scanOperator]
    exact first (by simp [Ne.symm h59, Ne.symm h124]) hne
  case h_3 | h_4 | h_6 | h_7 | h_10 =>
    cases h
    rfl
  case h_8 b rest =>
    split at h
    · cases h
    · next hb =>
      cases h
      rw [List.cons_append, List.cons_append, scanOperator, if_neg hb]
  case h_11 b rest h62 =>
    split at h
    · cases h
    · next hb =>
      cases h
      rw [List.cons_append, List.cons_append, scanOperator, if_neg hb]
      exact h62
  case h_9 hne | h_12 hne =>
    cases h
    cases after with
    | nil => simp [scanOperator, h60, h62, h38, h124]
    | cons m rest =>
      cases m with
      | byte b => exact absurd rfl (hne b rest)
      | joint | joiner | closer | bad => rfl

/-! The rest of a text behind its front ends as the text does. -/

theorem last_of_suffix {m : Mark} {ms after : List Mark} (h : after <:+ ms)
    (hl : ms.getLast? ≠ some m) : after.getLast? ≠ some m := by
  obtain ⟨before, rfl⟩ := h
  intro he
  exact hl (by simp [List.getLast?_append, he])

theorem skipComment_suffix (ms : List Mark) : skipComment ms <:+ ms := by
  fun_induction skipComment ms <;> grind [List.suffix_cons_iff, List.suffix_refl]

theorem scanSingle_suffix {ms after : List Mark} {s : Bytes} (h : scanSingle ms = some (s, after)) :
    after <:+ ms := by
  fun_induction scanSingle ms generalizing s after <;>
    grind [Option.map_eq_some_iff, List.suffix_cons_iff, List.suffix_refl]

theorem scanDouble_suffix {inText : Bool} {ms after : List Mark} {s : Bytes}
    (h : scanDouble inText ms = some (s, after)) : after <:+ ms := by
  fun_induction scanDouble inText ms generalizing s after <;>
    grind [Option.map_eq_some_iff, List.suffix_cons_iff, List.suffix_refl]

theorem scanBare_suffix (ms : List Mark) : (scanBare ms).2.2 <:+ ms := by
  fun_induction scanBare ms <;> grind [List.suffix_cons_iff, List.suffix_refl]

theorem scanOperator_suffix {ms after : List Mark} {op : Operator}
    (h : scanOperator ms = some (op, after)) : after <:+ ms := by
  obtain ⟨b, tail, rfl, -, rfl | ⟨c, rfl, -⟩⟩ := scanOperator_bytes h
  · exact List.suffix_cons ..
  · exact (List.suffix_cons ..).trans (List.suffix_cons ..)

theorem behindQuote_last {b : UInt8} {ms : List Mark} (h : ms.getLast? ≠ some (.byte b)) :
    (behindQuote ms).getLast? ≠ some (.byte b) := by
  fun_cases behindQuote ms with
  | case1 rest => cases rest <;> simp_all
  | case2 => exact h

/-- What the lexer makes of marks with a divider and more behind them, given their own lexemes: both
sides are read on their own, or only the marks are, or the divider is part of a comment or a word. -/
inductive Seam (c : UInt8) (x : Lexeme) (w sp : Bool) (ms : List Mark) (xs : List Spaced) : Prop
  | apart (spaced : Bool) (walk : (survey (.bare w sp) ms).2 ≠ .closed)
      (joined : ∀ more, scan w sp (ms ++ .byte c :: more) =
        (scan false false more).map (xs ++ ⟨spaced, x⟩ :: ·))
  | closed (walk : (survey (.bare w sp) ms).2 = .closed)
      (joined : ∀ more, scan w sp (ms ++ .byte c :: more) = some xs)
  | hidden {front rest rest' : List Spaced} (newline : c ≠ 10) (own : xs = front ++ rest)
      (words : ∀ y ∈ rest ++ rest', State.isWord y.lexeme = true)
      (joined : scan w sp (ms ++ [.byte c]) = some (front ++ rest'))

variable {w sp w' sp' : Bool} {ms after : List Mark} {ys : List Spaced}

/-- A front that is read the same way with and without the divider. -/
theorem Seam.extend (front : List Spaced) (h : Seam c x w' sp' after ys)
    (walk : survey (.bare w sp) ms = survey (.bare w' sp') after)
    (joined : ∀ more, scan w sp (ms ++ .byte c :: more) =
      (scan w' sp' (after ++ .byte c :: more)).map (front ++ ·)) :
    Seam c x w sp ms (front ++ ys) := by
  cases h with
  | apart spaced hwalk hjoined =>
    refine .apart spaced (by rwa [walk]) fun more => ?_
    rw [joined, hjoined, Option.map_map]
    congr 1
    funext zs
    simp
  | closed hwalk hjoined =>
    refine .closed (by rw [walk, hwalk]) fun more => ?_
    rw [joined, hjoined, Option.map_some]
  | @hidden front' rest rest' newline own words hjoined =>
    refine .hidden newline (by rw [own, List.append_assoc]) words ?_
    rw [joined, hjoined, Option.map_some, List.append_assoc]

/-- Marks that give no lexeme. -/
theorem Seam.skip (h : Seam c x w' sp' after ys)
    (walk : survey (.bare w sp) ms = survey (.bare w' sp') after)
    (joined : ∀ more, scan w sp (ms ++ .byte c :: more) = scan w' sp' (after ++ .byte c :: more)) :
    Seam c x w sp ms ys :=
  h.extend [] walk fun more => by simpa using joined more

/-- A number sign that starts a comment, which hides the divider unless a newline ends it. -/
theorem Seam.comment {b : UInt8} {rest : List Mark}
    (comment : (decide (b = 35) && (sp || !w)) = true)
    (h : scan w false (skipComment rest) = some ys)
    (ih : Seam c x w false (skipComment rest) ys) : Seam c x w sp (.byte b :: rest) ys := by
  by_cases hides : c ≠ 10 ∧ skipComment rest = []
  · obtain ⟨newline, hskip⟩ := hides
    rw [hskip, scan] at h
    cases h
    have hjoined : scan w sp (.byte b :: rest ++ [.byte c]) = some ([] ++ []) := by
      rw [List.cons_append, scan_numberSign w sp comment, skipComment_hides newline hskip]
      exact scan.eq_1 w false
    exact .hidden newline (List.nil_append _).symm (by simp) hjoined
  · refine ih.skip (survey_numberSign rest comment) fun more => ?_
    rw [← skipComment_append (by grind)]
    exact scan_numberSign w sp comment

/-- A byte that starts a word, which the divider ends unless it stands behind a backslash. -/
theorem Seam.word {b : UInt8} {rest : List Mark} {raw : Bytes} {ending : Ending}
    (ends : endsWord c = true) (hb : ¬ isBlank b = true)
    (hcom : ¬ (decide (b = 35) && (sp || !w)) = true)
    (bare : ∀ {more after : List Mark} {raw : Bytes} {ending : Ending},
      scanBare (.byte b :: rest ++ more) = (raw, ending, after) →
        scan w sp (.byte b :: rest ++ more) = (scan (bareEnding raw ending == .word) false after).map
          (⟨sp, .bare raw (bareEnding raw ending)⟩ :: ·))
    (hs : scanBare (.byte b :: rest) = (raw, ending, after))
    (h : scan (bareEnding raw ending == .word) false after = some ys)
    (last : c = 10 → (Mark.byte b :: rest).getLast? ≠ some (.byte 92))
    (ih : Seam c x (bareEnding raw ending == .word) false after ys) :
    Seam c x w sp (.byte b :: rest) (⟨sp, .bare raw (bareEnding raw ending)⟩ :: ys) := by
  cases bareEnd ends (.byte b :: rest) with
  | stopped walk joined =>
    rw [hs] at walk joined
    refine ih.extend [_] ?_ fun more => bare (joined more)
    rw [survey_wordStart hb hcom, walk, survey_after_bare hs]
  | closed walk ha joined =>
    rw [hs] at ha joined
    subst ha
    rw [scan] at h
    cases h
    refine .closed (by rw [survey_wordStart hb hcom, walk]) fun more => ?_
    rw [bare (joined more), scan, Option.map_some]
  | hides walk hl ha joined =>
    rw [hs] at ha
    cases ha
    rw [scan] at h
    cases h
    have newline : c ≠ 10 := fun he => last he hl
    obtain ⟨raw', hraw⟩ : ∃ raw', scanBare (.byte b :: rest ++ [.byte c]) = (raw', .word, []) :=
      ⟨_, congrArg (Prod.mk _) joined⟩
    have hjoined : scan w sp (.byte b :: rest ++ [.byte c]) = some ([] ++ [⟨sp, .bare raw' .word⟩]) := by
      rw [bare hraw, scan.eq_1]
      rfl
    exact .hidden newline (List.nil_append _).symm (by simp [State.isWord]) hjoined

theorem scan_seam (hc : Divider c x) {xs : List Spaced} (h : scan w sp ms = some xs)
    (last : c = 10 → ms.getLast? ≠ some (.byte 92)) : Seam c x w sp ms xs := by
  have within {ms after : List Mark} (hs : after <:+ ms)
      (last : c = 10 → ms.getLast? ≠ some (.byte 92)) :
      c = 10 → after.getLast? ≠ some (.byte 92) := fun newline => last_of_suffix hs (last newline)
  fun_induction scan w sp ms generalizing xs with
  | case1 w sp =>
    cases h
    refine .apart sp (by simp [survey, Quoting.outcome]) fun more => ?_
    exact hc.scan_eq w sp more
  | case2 w sp rest =>
    cases h
    exact .closed (by simp [Quoting.step]) fun _ => scan_closer w sp
  | case3 => cases h
  | case4 w sp rest ih =>
    exact (ih h (within (List.suffix_cons ..) last)).skip (survey_joint ..) fun _ => scan_joint w sp
  | case5 w sp rest ih =>
    exact (ih h (within (List.suffix_cons ..) last)).skip (survey_joiner ..)
      fun _ => scan_joiner w sp
  | case6 w sp b rest hb ih =>
    exact (ih h (within (List.suffix_cons ..) last)).skip (survey_blank w sp rest hb)
      fun _ => scan_blank w sp hb
  | case7 w sp rest _ ih =>
    obtain ⟨ys, hy, rfl⟩ := Option.map_eq_some_iff.mp h
    exact (ih hy (within (List.suffix_cons ..) last)).extend [_] (survey_newline w sp rest)
      fun _ => scan_newline w sp
  | case8 w sp b rest _ _ comment ih =>
    have hl := within ((skipComment_suffix rest).trans (List.suffix_cons ..)) last
    exact .comment comment h (ih h hl)
  | case9 | case11 | case13 | case14 | case16 => cases h
  | case10 w sp rest text after hs _ _ _ ih =>
    obtain ⟨ys, hy, rfl⟩ := Option.map_eq_some_iff.mp h
    have hl : c = 10 → after.getLast? ≠ some (.byte 92) := fun newline =>
      last_of_suffix (scanSingle_suffix hs)
        (behindQuote_last (last_of_suffix (List.suffix_cons ..) (last newline)))
    have hs' (more : List Mark) : scanSingle (behindQuote (rest ++ .byte c :: more)) =
        some (text, after ++ .byte c :: more) := by
      rw [behindQuote_append, scanSingle_append _ hs]
    exact (ih hy hl).extend [_] (survey_singleQuoted w sp hs)
      fun more => scan_singleQuoted w sp (hs' more)
  | case12 w sp rest raw after hs _ _ _ _ ih =>
    obtain ⟨ys, hy, rfl⟩ := Option.map_eq_some_iff.mp h
    have hl := within ((scanDouble_suffix hs).trans (List.suffix_cons ..)) last
    exact (ih hy hl).extend [_] (survey_doubleQuoted w sp hs)
      fun more => scan_doubleQuoted w sp (scanDouble_append _ hs)
  | case15 w sp rest he _ _ _ _ _ _ ih =>
    obtain ⟨ys, hy, rfl⟩ := Option.map_eq_some_iff.mp h
    have he' (more : List Mark) : ¬ expands (rest ++ .byte c :: more) = true := by
      rwa [expands_append hc]
    exact (ih hy (within (List.suffix_cons ..) last)).extend [_] (survey_dollar w sp he)
      fun more => scan_dollar w sp (he' more)
  | case17 w sp b rest _ _ _ _ _ _ _ _ op after hs ih =>
    obtain ⟨ys, hy, rfl⟩ := Option.map_eq_some_iff.mp h
    exact (ih hy (within (scanOperator_suffix hs) last)).extend [_] (survey_operator hs)
      fun more => scan_operator w sp (scanOperator_append hc more hs)
  | case18 w sp b rest hb hn hcom h39 h34 h96 h36 ho raw ending after hs ih =>
    obtain ⟨ys, hy, rfl⟩ := Option.map_eq_some_iff.mp h
    have hsuffix := scanBare_suffix (.byte b :: rest)
    rw [hs] at hsuffix
    exact .word hc.ends hb hcom (scan_bare w sp hb hn hcom h39 h34 h96 h36 ho) hs hy last
      (ih hy (within hsuffix last))

end

private theorem marks_eq_nil {ab : Bool} {s : Bytes} (nul : 0 ∉ s) (cr : 13 ∉ s)
    (h : marks ab s = []) : s = [] := by
  revert h
  fun_cases marks ab s <;> simp_all

theorem marks_last {ab : Bool} {a : Bytes} (nul : 0 ∉ a) (cr : 13 ∉ a)
    (last : a.getLast? ≠ some 92) : (marks ab a).getLast? ≠ some (.byte 92) := by
  fun_induction marks ab a <;> grind [marks_eq_nil]

end CommandShell.Line
