import CommandShell.Proofs.LexemeStep

/-! How each place of a line is quoted, found by one walk over its marks that knows nothing of
words or trees. The lexer accepts a line only if this walk meets no start of an expansion. -/
namespace CommandShell.Line

/-- Outside quotes, in a comment, in quotes, right behind a backslash, behind the end of what is
read, or behind text that is no UTF-8. `wordBefore` and `spaced` tell whether a number sign here
would continue a word. -/
inductive Quoting where
  | bare (wordBefore spaced : Bool)
  | comment (wordBefore : Bool)
  | single
  | double
  | escaped (inDouble : Bool)
  | closed
  | broken
  deriving DecidableEq, Repr

namespace Quoting

/-- A bare byte: blanks, newlines, operators and a dollar sign end a word, a number sign that
continues no word starts a comment. -/
def bareStep (wordBefore spaced : Bool) (b : UInt8) : Quoting :=
  if isBlank b then bare wordBefore true
  else if b = 35 && (spaced || !wordBefore) then comment wordBefore
  else if b = 39 then single
  else if b = 34 then double
  else if b = 92 then escaped false
  else if b = 10 || b = 36 || isOperatorStart b then bare false false
  else bare true false

/-- The quoting behind a mark. A backslash hides one mark, whichever it is. A line break ends a
comment, also an escaped one, and then the text goes on behind the word before the comment.
Elsewhere an escaped line break changes nothing, and U+0081 counts as one. -/
def step : Quoting → Mark → Quoting
  | closed, _ => closed
  | broken, _ | _, .bad => broken
  | escaped inDouble, _ => if inDouble then double else bare true false
  | _, .closer => closed
  | bare wordBefore spaced, .byte b => bareStep wordBefore spaced b
  | comment wordBefore, .byte b => if b = 10 then bare false false else comment wordBefore
  | comment wordBefore, .joint | comment wordBefore, .joiner => bare wordBefore false
  | single, .byte b => if b = 39 then bare true false else single
  | double, .byte b => if b = 34 then bare true false else if b = 92 then escaped true else double
  | q, .joint | q, .joiner => q

def run (q : Quoting) (ms : List Mark) : Quoting := ms.foldl step q

/-- Where an expansion would take place. -/
def isOpen : Quoting → Bool
  | bare _ _ | double => true
  | _ => false

/-- How a walk ends: inside the text, wherever that is, or behind one of its two ends. -/
def outcome : Quoting → Quoting
  | closed => closed
  | broken => broken
  | _ => bare false false

end Quoting

/-- A backquote, or a dollar sign with something to expand right behind it. -/
def beginsExpansion (m : Mark) (after : List Mark) : Bool :=
  m = .byte 96 || (m = .byte 36 && expands after)

/-- Whether a text exposes the start of an expansion, and how the walk over it ends. -/
def survey (q : Quoting) : List Mark → Bool × Quoting
  | [] => (false, q.outcome)
  | m :: ms =>
    ((q.isOpen && beginsExpansion m ms) || (survey (q.step m) ms).1, (survey (q.step m) ms).2)

theorem survey_snd (q : Quoting) (ms : List Mark) : (survey q ms).2 = (q.run ms).outcome := by
  induction ms generalizing q with
  | nil => rfl
  | cons m ms ih => exact ih (q.step m)

theorem survey_fst_of_split {q : Quoting} {before after : List Mark} {m : Mark}
    (ho : (q.run before).isOpen = true) (hm : beginsExpansion m after = true) :
    (survey q (before ++ m :: after)).1 = true := by
  induction before generalizing q with
  | nil =>
    have ho' : q.isOpen = true := ho
    simp [survey, ho', hm]
  | cons x before ih => simp [survey, ih (q := q.step x) ho]

/-- A mark that begins no expansion only changes the quoting. -/
theorem survey_cons {q : Quoting} {m : Mark} {ms : List Mark}
    (h : q.isOpen = true → beginsExpansion m ms = false) :
    survey q (m :: ms) = survey (q.step m) ms := by
  cases hq : q.isOpen with
  | false => simp [survey, hq]
  | true => simp [survey, hq, h hq]

theorem survey_byte {q : Quoting} {b : UInt8} {ms : List Mark} (h96 : b ≠ 96) (h36 : b ≠ 36) :
    survey q (.byte b :: ms) = survey (q.step (.byte b)) ms :=
  survey_cons fun _ => by simp [beginsExpansion, h96, h36]

@[simp] theorem survey_closed (ms : List Mark) : survey .closed ms = (false, .closed) := by
  induction ms with
  | nil => rfl
  | cons m ms ih => rw [survey_cons (by simp [Quoting.isOpen])]; exact ih

@[simp] theorem survey_broken (ms : List Mark) : survey .broken ms = (false, .broken) := by
  induction ms with
  | nil => rfl
  | cons m ms ih => rw [survey_cons (by simp [Quoting.isOpen])]; cases m <;> exact ih

@[simp] theorem survey_joint (q : Quoting) (ms : List Mark) :
    survey q (.joint :: ms) = survey (q.step .joint) ms :=
  survey_cons fun _ => rfl

@[simp] theorem survey_joiner (q : Quoting) (ms : List Mark) :
    survey q (.joiner :: ms) = survey (q.step .joiner) ms :=
  survey_cons fun _ => rfl

@[simp] theorem survey_closer (q : Quoting) (ms : List Mark) :
    survey q (.closer :: ms) = survey (q.step .closer) ms :=
  survey_cons fun _ => rfl

@[simp] theorem survey_bad (q : Quoting) (ms : List Mark) :
    survey q (.bad :: ms) = survey (q.step .bad) ms :=
  survey_cons fun _ => rfl

theorem survey_comment (w : Bool) (ms : List Mark) :
    (survey (.comment w) ms) = (survey (.bare w false) (skipComment ms)) := by
  fun_induction skipComment ms with
  | case1 rest => rw [survey_byte (by decide) (by decide), survey_byte (by decide) (by decide)]; rfl
  | case2 b rest hb ih =>
    rw [survey_cons (by simp [Quoting.isOpen])]
    simpa [Quoting.step, hb] using ih
  | case3 ms h =>
    cases ms with
    | nil => rfl
    | cons m ms =>
      cases m with
      | byte b => exact absurd rfl (h b ms)
      | joint => simp [Quoting.step]
      | joiner => simp [Quoting.step]
      | closer => simp [Quoting.step]
      | bad => simp [Quoting.step]

theorem survey_single {ms after : List Mark} {s : Bytes} (h : scanSingle ms = some (s, after)) :
    survey .single ms = survey (.bare true false) after := by
  fun_induction scanSingle ms generalizing s after with
  | case1 | case2 | case3 => cases h
  | case4 rest =>
    cases h
    exact survey_cons (by simp [Quoting.isOpen])
  | case5 b rest hb ih =>
    obtain ⟨⟨s', after'⟩, he, hp⟩ := Option.map_eq_some_iff.mp h
    cases hp
    rw [survey_cons (by simp [Quoting.isOpen]), ← ih he]
    simp [Quoting.step, hb]
  | case6 rest ih | case7 rest ih =>
    obtain ⟨⟨s', after'⟩, he, hp⟩ := Option.map_eq_some_iff.mp h
    cases hp
    simpa [Quoting.step] using ih he

theorem survey_behindQuote (ms : List Mark) :
    survey .single (behindQuote ms) = survey .single ms := by
  fun_cases behindQuote ms with
  | case1 rest => simp [Quoting.step]
  | case2 => rfl

/-- A backslash before the end of the text or before an escaped line break hides nothing. -/
theorem survey_escaped {d : Bool} {ms : List Mark} (hb : ∀ c rest, ms ≠ .byte c :: rest)
    (hc : ∀ rest, ms ≠ .closer :: rest) (hj : ∀ rest, ms ≠ .joiner :: rest) :
    survey (.escaped d) ms = survey (if d then .double else .bare true false) ms := by
  cases ms with
  | nil => cases d <;> rfl
  | cons m rest =>
    cases m with
    | byte c => exact absurd rfl (hb c rest)
    | closer => exact absurd rfl (hc rest)
    | joiner => exact absurd rfl (hj rest)
    | bad => cases d <;> simp [Quoting.step]
    | joint => cases d <;> simp [Quoting.step]

theorem survey_double {inText : Bool} {ms after : List Mark} {s : Bytes}
    (h : scanDouble inText ms = some (s, after)) :
    survey .double ms = survey (.bare true false) after := by
  fun_induction scanDouble inText ms generalizing s after with
  | case1 | case2 | case3 | case10 => cases h
  | case4 _ rest ih => exact ih h
  | case5 _ rest ih =>
    obtain ⟨⟨s', after'⟩, he, hp⟩ := Option.map_eq_some_iff.mp h
    cases hp
    exact ih he
  | case6 _ c rest ih | case7 _ rest ih | case8 _ rest ih =>
    obtain ⟨⟨s', after'⟩, he, hp⟩ := Option.map_eq_some_iff.mp h
    cases hp
    rw [survey_byte (by decide) (by decide), survey_cons (by simp [Quoting.step, Quoting.isOpen]),
      ← ih he]
    rfl
  | case9 _ rest =>
    cases h
    rw [survey_byte (by decide) (by decide)]
    rfl
  | case11 _ b rest _ _ _ h34 hexp ih =>
    obtain ⟨⟨s', after'⟩, he, hp⟩ := Option.map_eq_some_iff.mp h
    cases hp
    have hb : beginsExpansion (.byte b) rest = false := by
      simpa [beginsExpansion] using hexp
    rw [survey_cons fun _ => hb, ← ih he]
    by_cases h92 : b = 92
    · subst h92
      exact survey_escaped (by grind) (by grind) (by grind)
    · simp [Quoting.step, h34, h92]

theorem bareStep_operator (w sp : Bool) {b : UInt8} (hb : isOperatorStart b = true) :
    Quoting.bareStep w sp b = .bare false false := by
  have hne : b ≠ 32 ∧ b ≠ 9 ∧ b ≠ 13 ∧ b ≠ 35 ∧ b ≠ 39 ∧ b ≠ 34 ∧ b ≠ 92 := by
    refine ⟨?_, ?_, ?_, ?_, ?_, ?_, ?_⟩ <;> rintro rfl <;> exact absurd hb (by decide)
  simp [Quoting.bareStep, isBlank, hne, hb]

/-- An operator ends the word before it. -/
theorem survey_operator {w sp : Bool} {ms after : List Mark} {op : Operator}
    (h : scanOperator ms = some (op, after)) :
    survey (.bare w sp) ms = survey (.bare false false) after := by
  have hbyte (w sp : Bool) {b : UInt8} (rest : List Mark) (hb : isOperatorStart b = true) :
      survey (.bare w sp) (.byte b :: rest) = survey (.bare false false) rest := by
    rw [survey_byte (by rintro rfl; exact absurd hb (by decide))
      (by rintro rfl; exact absurd hb (by decide))]
    exact congrArg (survey · rest) (bareStep_operator w sp hb)
  obtain ⟨b, tail, rfl, hb, rfl | ⟨c, rfl, hc⟩⟩ := scanOperator_bytes h
  · exact hbyte w sp tail hb
  · rw [hbyte w sp _ hb, hbyte false false _ hc]

/-- Only blanks and number signs are read differently behind a word. -/
theorem bareStep_congr {b : UInt8} (hb : isBlank b = false) (hc : b ≠ 35) (w sp w' sp' : Bool) :
    Quoting.bareStep w sp b = Quoting.bareStep w' sp' b := by
  simp [Quoting.bareStep, hb, hc]

theorem survey_bare_congr {b : UInt8} (hb : isBlank b = false) (hc : b ≠ 35) (w sp w' sp' : Bool)
    (rest : List Mark) :
    survey (.bare w sp) (.byte b :: rest) = survey (.bare w' sp') (.byte b :: rest) := by
  have hs : Quoting.step (.bare w sp) (.byte b) = Quoting.step (.bare w' sp') (.byte b) :=
    bareStep_congr hb hc w sp w' sp'
  simp only [survey, hs, Quoting.isOpen]

/-- A byte that a bare text goes on with. -/
theorem survey_text {b : UInt8} {rest : List Mark} (hw : ¬ endsWord b = true)
    (hr : ¬ (decide (b = 60) || decide (b = 62)) = true)
    (hq : ¬ (decide (b = 34) || decide (b = 39) || decide (b = 36) || decide (b = 96)) = true) :
    survey (.bare true false) (.byte b :: rest) =
      survey (if b = 92 then .escaped false else .bare true false) rest := by
  have hstep : Quoting.bareStep true false b =
      if b = 92 then .escaped false else .bare true false := by
    simp only [endsWord, isOperatorStart] at hw
    simp only [Quoting.bareStep, isOperatorStart]
    grind
  rw [survey_byte (by grind) (by grind), ← hstep]
  rfl

/-- A bare text that stops at a byte behind the marks stops within them or there, unless it meets the
end of what is read, or a backslash at the end of the marks hides the byte. -/
inductive BareEnd (c : UInt8) (ms : List Mark) : Prop
  | stopped
      (walk : survey (.bare true false) ms = survey (.bare true false) (scanBare ms).2.2)
      (joined : ∀ more, scanBare (ms ++ .byte c :: more) =
        ((scanBare ms).1, (scanBare ms).2.1, (scanBare ms).2.2 ++ .byte c :: more))
  | closed (walk : survey (.bare true false) ms = (false, .closed)) (after : (scanBare ms).2.2 = [])
      (joined : ∀ more, scanBare (ms ++ .byte c :: more) = scanBare ms)
  | hides
      (walk : survey (.bare true false) ms = survey (.bare true false) (scanBare ms).2.2)
      (last : ms.getLast? = some (.byte 92)) (after : (scanBare ms).2 = (.word, []))
      (joined : (scanBare (ms ++ [.byte c])).2 = (.word, []))

/-- Marks that only add to the text do not change how it ends. -/
private theorem BareEnd.grow {c : UInt8} (front : List Mark) (text : Bytes) {rest : List Mark}
    (ih : BareEnd c rest)
    (walk : survey (.bare true false) (front ++ rest) = survey (.bare true false) rest)
    (now : scanBare (front ++ rest) = (text ++ (scanBare rest).1, (scanBare rest).2))
    (joined : ∀ more, scanBare (front ++ (rest ++ .byte c :: more)) =
      (text ++ (scanBare (rest ++ .byte c :: more)).1, (scanBare (rest ++ .byte c :: more)).2)) :
    BareEnd c (front ++ rest) := by
  cases ih with
  | stopped hw hm =>
    refine .stopped (by rw [walk, hw, now]) fun more => ?_
    rw [List.append_assoc, joined, hm, now]
  | closed hw ha hm =>
    refine .closed (by rw [walk, hw]) (by rw [now, ha]) fun more => ?_
    rw [List.append_assoc, joined, hm, now]
  | hides hw hl ha hm =>
    refine .hides (by rw [walk, hw, now]) (by simp [List.getLast?_append, hl]) (by rw [now, ha]) ?_
    rw [List.append_assoc, joined, hm]

theorem scanBare_endsWord {c : UInt8} (hc : endsWord c = true) (more : List Mark) :
    scanBare (.byte c :: more) = ([], .word, .byte c :: more) := by
  have h92 : c ≠ 92 := by
    rintro rfl
    exact absurd hc (by decide)
  simp [scanBare, hc, h92]

theorem bareEnd {c : UInt8} (ends : endsWord c = true) (ms : List Mark) : BareEnd c ms := by
  have hescaped {m : Mark} {rest : List Mark} (hm : m ≠ .bad) :
      survey (.bare true false) (.byte 92 :: m :: rest) = survey (.bare true false) rest := by
    rw [survey_byte (by decide) (by decide), survey_cons (by simp [Quoting.step, Quoting.isOpen,
      Quoting.bareStep, isBlank])]
    cases m <;> first | rfl | exact absurd rfl hm
  fun_induction scanBare ms with
  | case1 => exact .stopped rfl fun more => scanBare_endsWord ends more
  | case2 => exact .stopped rfl fun _ => rfl
  | case3 rest => exact .closed (by simp [Quoting.step]) rfl fun _ => rfl
  | case4 rest ih => exact ih.grow [.joint] [] (survey_joint ..) rfl fun _ => rfl
  | case5 rest _ _ _ _ ih =>
    exact ih.grow [.joiner] [0xC2, 0x81] (survey_joiner ..) rfl fun _ => rfl
  | case6 d rest _ _ _ _ ih =>
    exact ih.grow [.byte 92, .byte d] [92, d] (hescaped (by simp)) rfl fun _ => rfl
  | case7 rest _ _ _ _ ih =>
    exact ih.grow [.byte 92, .closer] [92, 0xC2, 0x80] (hescaped (by simp)) rfl fun _ => rfl
  | case8 rest _ _ _ _ ih =>
    exact ih.grow [.byte 92, .joiner] [92, 0xC2, 0x81] (hescaped (by simp)) rfl fun _ => rfl
  | case9 b rest _ _ _ hw =>
    have h92 : b ≠ 92 := by rintro rfl; exact absurd hw (by decide)
    refine .stopped ?_ fun _ => ?_ <;> simp [scanBare, hw, h92]
  | case10 b rest _ _ _ hw hr =>
    have h92 : b ≠ 92 := by rintro rfl; exact absurd hr (by decide)
    refine .stopped ?_ fun _ => ?_ <;> simp [scanBare, hw, hr, h92]
  | case11 b rest _ _ _ hw hr hq =>
    have h92 : b ≠ 92 := by rintro rfl; exact absurd hq (by decide)
    refine .stopped ?_ fun _ => ?_ <;> simp [scanBare, hw, hr, hq, h92]
  | case12 b rest hb hc hj hw hr hq _ _ _ _ ih =>
    have walk : survey (.bare true false) (.byte b :: rest) = survey (.bare true false) rest := by
      rw [survey_text hw hr hq]
      split
      · next h92 => exact survey_escaped (by grind) (by grind) (by grind)
      · rfl
    -- A backslash gets here only before the end or an escaped line break, and stays in the text.
    have takes (ms : List Mark) (h : b = 92 → (∀ c ms', ms ≠ .byte c :: ms') ∧
        (∀ ms', ms ≠ .closer :: ms') ∧ ∀ ms', ms ≠ .joiner :: ms') :
        scanBare (.byte b :: ms) = (b :: (scanBare ms).1, (scanBare ms).2) := by
      rw [scanBare.eq_def]
      split <;> grind
    by_cases hlast : b = 92 ∧ rest = []
    · obtain ⟨rfl, rfl⟩ := hlast
      exact .hides walk rfl rfl rfl
    · refine ih.grow [.byte b] [b] walk (takes rest (by grind)) fun more => takes _ ?_
      rintro rfl
      cases rest with
      | nil => exact absurd ⟨rfl, rfl⟩ hlast
      | cons m rest =>
        cases m with
        | byte c => exact (hb c rest rfl rfl).elim
        | closer => exact (hc rest rfl rfl).elim
        | joiner => exact (hj rest rfl rfl).elim
        | joint | bad => simp

/-- What stops a bare text that does not end its word. -/
theorem scanBare_after {ms after : List Mark} {raw : Bytes} {ending : Ending}
    (h : scanBare ms = (raw, ending, after)) (he : ending ≠ .word) :
    ∃ b rest, after = .byte b :: rest ∧ isBlank b = false ∧ b ≠ 35 := by
  fun_induction scanBare ms generalizing raw ending after with
  | case1 | case2 | case3 | case9 => cases h; exact absurd rfl he
  | case4 rest ih => exact ih h he
  | case5 rest raw' ending' after' hs ih => cases h; exact ih hs he
  | case6 c rest raw' ending' after' hs ih => cases h; exact ih hs he
  | case7 rest raw' ending' after' hs ih => cases h; exact ih hs he
  | case8 rest raw' ending' after' hs ih => cases h; exact ih hs he
  | case10 b rest _ _ _ _ hr =>
    cases h
    exact ⟨b, rest, rfl, by grind [isBlank]⟩
  | case11 b rest _ _ _ _ _ hq =>
    cases h
    exact ⟨b, rest, rfl, by grind [isBlank]⟩
  | case12 b rest _ _ _ _ _ _ raw' ending' after' hs ih => cases h; exact ih hs he

/-- Behind a bare text it does not matter whether the lexer calls it a whole word. -/
theorem survey_after_bare {ms after : List Mark} {raw : Bytes} {ending : Ending}
    (h : scanBare ms = (raw, ending, after)) :
    survey (.bare true false) after =
      survey (.bare (bareEnding raw ending == .word) false) after := by
  by_cases he : ending = .word
  · subst he
    rfl
  · obtain ⟨b, rest, rfl, hb, hc⟩ := scanBare_after h he
    exact survey_bare_congr hb hc ..

/-! One step of the lexer, seen by the walk. -/

theorem survey_blank (w sp : Bool) {b : UInt8} (rest : List Mark) (hb : isBlank b = true) :
    survey (.bare w sp) (.byte b :: rest) = survey (.bare w true) rest := by
  have hstep : Quoting.bareStep w sp b = .bare w true := by simp [Quoting.bareStep, hb]
  rw [survey_byte (by rintro rfl; exact absurd hb (by decide))
    (by rintro rfl; exact absurd hb (by decide)), Quoting.step, hstep]

theorem survey_newline (w sp : Bool) (rest : List Mark) :
    survey (.bare w sp) (.byte 10 :: rest) = survey (.bare false false) rest := rfl

theorem survey_numberSign {w sp : Bool} {b : UInt8} (rest : List Mark)
    (hc : (decide (b = 35) && (sp || !w)) = true) :
    survey (.bare w sp) (.byte b :: rest) = survey (.bare w false) (skipComment rest) := by
  obtain rfl : b = 35 := by simp_all
  have hstep : Quoting.bareStep w sp 35 = .comment w := by
    rw [Quoting.bareStep, if_neg (by decide), if_pos hc]
  rw [survey_byte (by decide) (by decide), Quoting.step, hstep, survey_comment]

theorem survey_singleQuoted (w sp : Bool) {rest after : List Mark} {s : Bytes}
    (h : scanSingle (behindQuote rest) = some (s, after)) :
    survey (.bare w sp) (.byte 39 :: rest) = survey (.bare true false) after := by
  rw [← survey_single h, survey_behindQuote, survey_byte (by decide) (by decide)]
  rfl

theorem survey_doubleQuoted (w sp : Bool) {rest after : List Mark} {s : Bytes}
    (h : scanDouble false rest = some (s, after)) :
    survey (.bare w sp) (.byte 34 :: rest) = survey (.bare true false) after := by
  rw [← survey_double h, survey_byte (by decide) (by decide)]
  rfl

theorem survey_dollar (w sp : Bool) {rest : List Mark} (h : ¬ expands rest = true) :
    survey (.bare w sp) (.byte 36 :: rest) = survey (.bare false false) rest := by
  rw [survey_cons fun _ => by simp [beginsExpansion, h]]
  rfl

/-- Where a bare text starts, it does not matter what came before it. -/
theorem survey_wordStart {w sp : Bool} {b : UInt8} {rest : List Mark} (hb : ¬ isBlank b = true)
    (hc : ¬ (decide (b = 35) && (sp || !w)) = true) :
    survey (.bare w sp) (.byte b :: rest) = survey (.bare true false) (.byte b :: rest) := by
  by_cases h35 : b = 35
  · obtain ⟨rfl, rfl⟩ : sp = false ∧ w = true := by simpa [h35] using hc
    rfl
  · exact survey_bare_congr (by simpa using hb) h35 ..

/-- A text that falls into lexemes exposes no expansion, and is UTF-8 up to the end of what is
read. -/
theorem survey_scan {w sp : Bool} {ms : List Mark} {xs : List Spaced}
    (h : scan w sp ms = some xs) :
    (survey (.bare w sp) ms).1 = false ∧ (survey (.bare w sp) ms).2 ≠ .broken := by
  fun_induction scan w sp ms generalizing xs with
  | case1 => simp [survey, Quoting.outcome]
  | case2 => simp [Quoting.step]
  | case3 => cases h
  | case4 w sp rest ih | case5 w sp rest ih => simpa [Quoting.step] using ih h
  | case6 w sp b rest hb ih =>
    rw [survey_blank w sp rest hb]
    exact ih h
  | case7 w sp rest _ ih =>
    obtain ⟨ys, hy, -⟩ := Option.map_eq_some_iff.mp h
    exact ih hy
  | case8 w sp b rest _ _ hc ih =>
    rw [survey_numberSign rest hc]
    exact ih h
  | case9 | case11 | case13 | case14 | case16 => cases h
  | case10 w sp rest text after hs _ _ _ ih =>
    obtain ⟨ys, hy, -⟩ := Option.map_eq_some_iff.mp h
    rw [survey_singleQuoted w sp hs]
    exact ih hy
  | case12 w sp rest raw after hs _ _ _ _ ih =>
    obtain ⟨ys, hy, -⟩ := Option.map_eq_some_iff.mp h
    rw [survey_doubleQuoted w sp hs]
    exact ih hy
  | case15 w sp rest he _ _ _ _ _ _ ih =>
    obtain ⟨ys, hy, -⟩ := Option.map_eq_some_iff.mp h
    rw [survey_dollar w sp he]
    exact ih hy
  | case17 w sp b rest _ _ _ _ _ _ _ _ op after hs ih =>
    obtain ⟨ys, hy, -⟩ := Option.map_eq_some_iff.mp h
    rw [survey_operator hs]
    exact ih hy
  | case18 w sp b rest hb _ hc _ _ _ _ _ raw ending after hs ih =>
    obtain ⟨ys, hy, -⟩ := Option.map_eq_some_iff.mp h
    rw [survey_wordStart hb hc]
    cases bareEnd (c := 10) (by decide) (.byte b :: rest) with
    | stopped walk | hides walk =>
      rw [walk, hs, survey_after_bare hs]
      exact ih hy
    | closed walk => simp [walk]

end CommandShell.Line
