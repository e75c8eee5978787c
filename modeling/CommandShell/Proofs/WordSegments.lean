import CommandShell.Proofs.SegmentLexing

/-! Quote removal. A word is read as the values of its parts together, except that two control
characters in quotes are read as marks of the lexer's own. -/
namespace CommandShell.Line

/-- A word behind others goes into the command with the others. -/
theorem run_wordShape (lv : Level) (outer : List Level) {s : Stage} {argv : List Bytes}
    {files : Redirections} (hs : s.Holds (.words argv) files) (hne : argv ≠ []) {xs : List Lexeme}
    (hxs : WordShape xs) :
    ∃ s', (inStage lv outer s).run (unbroken true xs) = some (inStage lv outer s') ∧
      s'.Holds (.words (argv ++ [wordOf xs])) files := by
  have hargv : argv.isEmpty = false := by simpa using hne
  cases hxs with
  | whole raw =>
    have hword : s.word true (.bare raw .word) =
        some (.reading (.words (argv ++ [unescape false raw])) files .rest) := by
      rw [hs.startItem]
      simp [startItem, hargv]
    have hvalue : wordOf [.bare raw .word] = unescape false raw := List.append_nil _
    rw [hvalue]
    refine ⟨.reading (.words (argv ++ [unescape false raw])) files .rest, ?_, _, _, _, rfl, rfl⟩
    rw [unbroken, State.run, step_inStage lv outer rfl hword]
    rfl
  | bare raw hmore =>
    have hword : s.word true (.bare raw .part) =
        some (.reading (.words argv) files (.word .argument (unescape false raw))) := by
      rw [hs.startItem]
      simp [startItem, hargv]
    refine ⟨_, ?_, Stage.Holds.argument argv files _⟩
    rw [unbroken, State.run, step_inStage lv outer rfl hword, Option.bind_some,
      run_more lv outer (.words argv) files .argument hmore]
    rfl
  | part v hmore =>
    exact ⟨_, run_word lv outer ⟨v, _, rfl, hmore⟩ fun first => hs.startItem,
      Stage.Holds.argument argv files _⟩

namespace Segment

theorem isValid_text {seg : Segment} (hseg : seg.Proper) (s : Bytes) :
    Utf8.isValid (seg.text ++ s) = Utf8.isValid s := by
  cases seg with
  | bare cs =>
    rw [text]
    clear hseg
    induction cs with
    | nil => rfl
    | cons c cs ih => rw [Utf8.encode_cons, List.append_assoc, Utf8.isValid_ofChar, ih]
  | escaped c =>
    rw [text, List.cons_append, Utf8.isValid_ascii _ (by decide), Utf8.isValid_ofChar]
  | single t =>
    rw [text, List.cons_append, Utf8.isValid_ascii _ (by decide), List.append_assoc,
      List.singleton_append, Utf8.isValid_append _ _ (by decide), hseg.1.valid, Bool.true_and,
      Utf8.isValid_ascii _ (by decide)]
  | double qs =>
    have hitems : ∀ t, Utf8.isValid (qs.flatMap QuotedChar.text ++ t) = Utf8.isValid t := by
      clear hseg
      intro t
      induction qs with
      | nil => rfl
      | cons q qs ih =>
        rw [List.flatMap_cons, List.append_assoc]
        cases q with
        | char c => rw [QuotedChar.text, Utf8.isValid_ofChar, ih]
        | escaped c =>
          rw [QuotedChar.text, List.cons_append, Utf8.isValid_ascii _ (by decide),
            Utf8.isValid_ofChar, ih]
    rw [text, List.cons_append, Utf8.isValid_ascii _ (by decide), List.append_assoc, hitems,
      List.singleton_append, Utf8.isValid_ascii _ (by decide)]

/-- What a command reads whose one argument is written in parts. -/
theorem read?_segments {segs : List Segment} (hne : segs ≠ []) (hsegs : ∀ seg ∈ segs, seg.Proper) :
    read? ("x " ++ segs.flatMap text) = (hearAll segs).map fun v => .plain ["x", v] := by
  have hvalid : Utf8.isValid ("x " ++ segs.flatMap text) = true := by
    change Utf8.isValid (120 :: 32 :: segs.flatMap text) = true
    rw [Utf8.isValid_ascii _ (by decide), Utf8.isValid_ascii _ (by decide)]
    clear hne
    induction segs with
    | nil => exact Utf8.isValid_nil
    | cons seg segs ih =>
      obtain ⟨hseg, hsegs⟩ := List.forall_mem_cons.mp hsegs
      rw [List.flatMap_cons, isValid_text hseg, ih hsegs]
  have hmarks : marks false ("x " ++ segs.flatMap text) =
      .byte 120 :: .byte 32 :: marks false (segs.flatMap text) := by
    change marks false (120 :: 32 :: segs.flatMap text) = _
    rw [marks_byte (by decide) (by simp) (by simp) (by simp),
      marks_byte (by decide) (by simp) (by simp) (by simp)]
    rfl
  obtain ⟨xs, hscan, hword, hshape⟩ := scan_segments segs hsegs true true false
  have hlex : lexemes ("x " ++ segs.flatMap text) =
      xs.map fun xs => ⟨false, .bare "x" .word⟩ :: unbroken true xs := by
    have hbare : scanBare (.byte 120 :: .byte 32 :: marks false (segs.flatMap text)) =
        ([120], .word, .byte 32 :: marks false (segs.flatMap text)) := rfl
    rw [lexemes_eq_scan, lineMarks, if_pos hvalid, hmarks, scan_bare false false (by decide)
      (by decide) (by simp) (by decide) (by decide) (by decide) (by decide) (by decide) hbare]
    change (scan true false (.byte 32 :: marks false (segs.flatMap text))).map _ = _
    rw [scan_blank true false rfl, hscan, Option.map_map]
    rfl
  rw [read?, hlex, ← hword]
  cases xs with
  | none => rfl
  | some xs =>
    have first : Stage.Holds (.reading (.words ["x"]) .none .rest) (.words ["x"]) .none :=
      ⟨_, _, _, rfl, rfl⟩
    obtain ⟨s, hrun, hs⟩ := run_wordShape {} [] first (by decide) ((hshape xs rfl).2 hne)
    change (State.run (inStage {} [] (.reading (.words ["x"]) .none .rest))
      (unbroken true xs)).bind State.tree? = _
    rw [hrun]
    exact tree?_inStage hs.tree?_words

end Segment

/-! ### Words that are read as they are written -/

/-- The byte 0x81 counts against two others, so that all that the lexer does to a text beyond quote
removal makes it lighter. -/
def weight (s : Bytes) : Int := (s.map fun b => if b = 0x81 then 2 else -1).sum

theorem weight_cons (b : UInt8) (s : Bytes) :
    weight (b :: s) = (if b = 0x81 then 2 else -1) + weight s := by
  simp [weight]

theorem weight_append (s t : Bytes) : weight (s ++ t) = weight s + weight t := by
  simp [weight]

/-- A text, or something lighter in its place. -/
def Lightens (v s : Bytes) : Prop := v = s ∨ weight v < weight s

theorem Lightens.le {v s : Bytes} (h : Lightens v s) : weight v ≤ weight s := by
  rcases h with rfl | h
  · exact Int.le_refl _
  · exact Int.le_of_lt h

theorem Lightens.prepend (t : Bytes) {v s : Bytes} (h : Lightens v s) :
    Lightens (t ++ v) (t ++ s) := by
  refine h.imp (congrArg (t ++ ·)) fun hlt => ?_
  rw [weight_append, weight_append]
  omega

theorem lightens_heard (opening : Bool) (s : Bytes) : Lightens (heard opening s) s := by
  fun_induction heard opening s with
  | case1 => exact .inl rfl
  | case2 opening s ih | case4 opening b s _ _ ih => exact ih.prepend [_]
  | case3 opening s ih =>
    have hle := ih.le
    refine .inr ?_
    cases opening <;> simp [weight_cons] <;> omega

theorem weight_joiner (s : Bytes) :
    weight ((QuotedChar.char '\u0081').value ++ s) = 1 + weight s := by
  have hpair : weight (QuotedChar.char '\u0081').value = 1 := by decide
  rw [weight_append, hpair]

theorem lightens_hear {inText : Bool} {s : List QuotedChar} {v : Bytes}
    (h : hear inText s = some v) : Lightens v (s.flatMap QuotedChar.value) := by
  induction s generalizing inText v with
  | nil =>
    cases h
    exact .inl rfl
  | cons q s ih =>
    have text {u : Bytes} (h : (hear true s).map (u ++ ·) = some v) :
        Lightens v (u ++ s.flatMap QuotedChar.value) := by
      obtain ⟨t, ht, rfl⟩ := Option.map_eq_some_iff.mp h
      exact (ih ht).prepend u
    rw [List.flatMap_cons]
    cases q with
    | escaped c => exact text h
    | char c =>
      rw [hear] at h
      split at h
      · cases h
      · split at h
        · next h81 =>
          subst h81
          obtain ⟨t, ht, rfl⟩ := Option.map_eq_some_iff.mp h
          cases inText with
          | true => exact (ih ht).prepend _
          | false =>
            have hle := (ih ht).le
            refine .inr ?_
            rw [weight_joiner]
            change weight t < _
            omega
        · exact text h

theorem hear_eq_some_iff (inText : Bool) (s : List QuotedChar) :
    hear inText s = some (s.flatMap QuotedChar.value) ↔
      .char '\u0080' ∉ s ∧ (inText = false → s.head? ≠ some (.char '\u0081')) ∧
        ¬ [.char '\u0081', .char '\u0081'] <:+: s := by
  induction s generalizing inText with
  | nil => simp [hear]
  | cons q s ih =>
    have text {u : Bytes} : (hear true s).map (u ++ ·) = some (u ++ s.flatMap QuotedChar.value) ↔
        .char '\u0080' ∉ s ∧ ¬ [.char '\u0081', .char '\u0081'] <:+: s := by
      rw [← and_congr_right_iff.mpr fun _ => and_iff_right (by simp : true = false → _), ← ih true]
      cases hear true s <;> simp
    rw [List.flatMap_cons]
    cases q with
    | escaped c =>
      rw [hear, text]
      simp [List.infix_cons_iff, List.cons_prefix_cons]
    | char c =>
      by_cases h80 : c = '\u0080'
      · simp [hear, h80]
      by_cases h81 : c = '\u0081'
      · subst h81
        cases inText with
        | true =>
          have hread : hear true (.char '\u0081' :: s) =
              (hear false s).map ((QuotedChar.char '\u0081').value ++ ·) := rfl
          have hmap : (hear false s).map ((QuotedChar.char '\u0081').value ++ ·) =
              some ((QuotedChar.char '\u0081').value ++ s.flatMap QuotedChar.value) ↔
                hear false s = some (s.flatMap QuotedChar.value) := by
            cases hear false s <;> simp
          rw [hread, hmap, ih false]
          cases s with
          | nil => simp [List.infix_cons_iff, List.cons_prefix_cons]
          | cons q s =>
            simp [List.infix_cons_iff, List.cons_prefix_cons, and_assoc, eq_comm (a := q)]
        | false =>
          refine iff_of_false (fun h => ?_) (by simp)
          obtain ⟨t, ht, he⟩ := Option.map_eq_some_iff.mp h
          have hle := (lightens_hear ht).le
          have hweight := congrArg weight he
          rw [weight_joiner] at hweight
          change weight t = _ at hweight
          omega
      · rw [hear, if_neg h80, if_neg h81, QuotedChar.value, text]
        simp [List.infix_cons_iff, List.cons_prefix_cons, Ne.symm h80, Ne.symm h81, h81]

/-- No control character in quotes is one that the lexer takes for a mark of its own: U+0080, or
U+0081 in single quotes. In double quotes U+0081 is such a mark in front and behind another. -/
def Segment.Intact : Segment → Prop
  | bare _ | escaped _ => True
  | single s => Unmarked s
  | double s => .char '\u0080' ∉ s ∧ s.head? ≠ some (.char '\u0081') ∧
      ¬ [.char '\u0081', .char '\u0081'] <:+: s

namespace Segment

theorem heard_eq_some_iff (seg : Segment) : seg.heard = some seg.value ↔ seg.Intact := by
  cases seg with
  | bare s | escaped c => exact iff_of_true rfl trivial
  | double s =>
    rw [heard, value, hear_eq_some_iff]
    simp [Intact]
  | single s =>
    rw [heard, Intact, Unmarked]
    split
    · next closer => simp [closer]
    · next closer => simp [closer, value, heard_eq_self_iff]

theorem lightens_of_heard {seg : Segment} {v : Bytes} (h : seg.heard = some v) :
    Lightens v seg.value := by
  cases seg with
  | bare s | escaped c =>
    cases h
    exact .inl rfl
  | double s => exact lightens_hear h
  | single s =>
    rw [heard] at h
    split at h
    · cases h
    · cases h
      exact lightens_heard true s

theorem weight_le_of_hearAll {segs : List Segment} {v : Bytes} (h : hearAll segs = some v) :
    weight v ≤ weight (segs.flatMap value) := by
  induction segs generalizing v with
  | nil =>
    cases h
    exact Int.le_refl _
  | cons seg segs ih =>
    obtain ⟨u, hu, h⟩ := Option.bind_eq_some_iff.mp h
    obtain ⟨t, ht, rfl⟩ := Option.map_eq_some_iff.mp h
    have hle := (lightens_of_heard hu).le
    have hrest := ih ht
    rw [List.flatMap_cons, weight_append, weight_append]
    omega

/-- Parts are read as they are written only if each of them is. -/
theorem hearAll_eq_some_iff (segs : List Segment) :
    hearAll segs = some (segs.flatMap value) ↔ ∀ seg ∈ segs, seg.Intact := by
  induction segs with
  | nil => simp [hearAll]
  | cons seg segs ih =>
    rw [List.forall_mem_cons, ← ih, ← heard_eq_some_iff]
    constructor
    · intro h
      obtain ⟨u, hu, h⟩ := Option.bind_eq_some_iff.mp h
      obtain ⟨t, ht, happend⟩ := Option.map_eq_some_iff.mp h
      have hweight := congrArg weight happend
      have hrest := weight_le_of_hearAll ht
      rw [List.flatMap_cons, weight_append, weight_append] at hweight
      rcases lightens_of_heard hu with rfl | hlt
      · rw [List.flatMap_cons, List.append_cancel_left_eq] at happend
        exact ⟨hu, happend ▸ ht⟩
      · omega
    · rintro ⟨hseg, hsegs⟩
      rw [hearAll, hseg, hsegs]
      rfl

end Segment

/-- A word is its parts with their quotes removed exactly if no part in quotes has a control
character that the lexer takes for a mark of its own. So all such spellings of one text are read
alike. -/
theorem parse_segments {segs : List Segment} (hne : segs ≠ []) (hsegs : ∀ seg ∈ segs, seg.Proper) :
    (parse ("x " ++ segs.flatMap Segment.text) = .ok (.plain ["x", segs.flatMap Segment.value]) ↔
      ∀ seg ∈ segs, seg.Intact) ∧
    ∀ others : List Segment, others ≠ [] → (∀ seg ∈ others, seg.Proper) →
      (∀ seg ∈ segs ++ others, seg.Intact) →
      others.flatMap Segment.value = segs.flatMap Segment.value →
      parse ("x " ++ others.flatMap Segment.text) = parse ("x " ++ segs.flatMap Segment.text) := by
  have exact {segs : List Segment} (hne : segs ≠ []) (hsegs : ∀ seg ∈ segs, seg.Proper) :
      parse ("x " ++ segs.flatMap Segment.text) =
        .ok (.plain ["x", segs.flatMap Segment.value]) ↔ ∀ seg ∈ segs, seg.Intact := by
    rw [parse_eq_ok_iff, Segment.read?_segments hne hsegs, ← Segment.hearAll_eq_some_iff]
    cases Segment.hearAll segs <;> simp [Tree.plain]
  refine ⟨exact hne hsegs, ?_⟩
  intro others hothers proper intact same
  obtain ⟨hfirst, hsecond⟩ := List.forall_mem_append.mp intact
  rw [(exact hothers proper).mpr hsecond, (exact hne hsegs).mpr hfirst, same]

/-- Parts of all four kinds, and the same text between double quotes alone. -/
theorem parse_segments_mixed :
    parse "x a\\ '$b'\"\\$\\n\"" = .ok (.plain ["x", "a $b$\\n"]) ∧
      parse "x \"a \\$b\\$\\\\n\"''" = parse "x a\\ '$b'\"\\$\\n\"" := by
  have dollar : Writable "$b" ∧ 39 ∉ ("$b" : Bytes) :=
    ⟨⟨by decide +kernel, by decide, by decide⟩, by decide⟩
  have empty : Writable [] ∧ 39 ∉ ([] : Bytes) :=
    ⟨⟨Utf8.isValid_nil, by decide, by decide⟩, by decide⟩
  have mixed : ∀ seg ∈ [Segment.bare ['a'], .escaped ' ', .single "$b",
      .double [.escaped '$', .escaped 'n']], seg.Proper ∧ seg.Intact := by
    have unmarked : Unmarked "$b" := ⟨by decide, by decide⟩
    have bare : IsBare 'a' := by decide
    simp [Segment.Proper, Segment.Intact, QuotedChar.Proper, Stands, hidden, dollar, unmarked, bare,
      List.infix_cons_iff]
  have double : ∀ seg ∈ [Segment.double [.char 'a', .char ' ', .escaped '$', .char 'b',
      .escaped '$', .escaped '\\', .char 'n'], .single []], seg.Proper ∧ seg.Intact := by
    have unmarked : Unmarked [] := ⟨by decide, by decide⟩
    simp [Segment.Proper, Segment.Intact, QuotedChar.Proper, Stands, hidden, empty, unmarked,
      List.infix_cons_iff]
  obtain ⟨hread, hsame⟩ := parse_segments (List.cons_ne_nil _ _) fun seg hs => (mixed seg hs).1
  refine ⟨hread.mpr fun seg hs => (mixed seg hs).2, ?_⟩
  refine hsame _ (List.cons_ne_nil _ _) (fun seg hs => (double seg hs).1) ?_ (by decide +kernel)
  exact List.forall_mem_append.mpr ⟨fun seg hs => (mixed seg hs).2, fun seg hs => (double seg hs).2⟩

end CommandShell.Line
