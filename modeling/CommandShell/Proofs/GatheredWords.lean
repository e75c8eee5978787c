import Mathlib.Data.List.Chain
import CommandShell.Proofs.ExpansionFree
import CommandShell.Proofs.PrintedTree

/-! The words of a line that is one simple command, gathered by one walk over its marks, and the
proof that parsing such a line gives the same words. -/
namespace CommandShell.Line

/-- A newline, an operator or the start of a comment, where it is not quoted. -/
def Quoting.endsCommand : Quoting → Mark → Bool
  | bare wordBefore spaced, .byte b =>
    b = 10 || isOperatorStart b || (b = 35 && (spaced || !wordBefore))
  | _, _ => false

def oneCommandFrom (q : Quoting) : List Mark → Bool
  | [] => true
  | m :: ms => !q.endsCommand m && oneCommandFrom (q.step m) ms

/-- Whether a line has no comment and, outside quotes, no operator and no newline. -/
def isOneCommand (line : Bytes) : Bool := oneCommandFrom (.bare false false) (marks false line)

/-- What a mark adds to the text of the word around it. -/
def Quoting.said : Quoting → Mark → Bytes
  | bare _ _, .byte b => if b = 39 || b = 34 || b = 92 then [] else [b]
  | single, .byte b => if b = 39 then [] else [b]
  | single, .joint => [92, 10]
  | double, .byte b => if b = 34 || b = 92 then [] else [b]
  | escaped inDouble, .byte b =>
    if b = 10 then [] else if inDouble && !escapable b then [92, b] else [b]
  | _, .byte _ | _, .joint | _, .closer | _, .joiner | _, .bad => []

/-- Outside comments and before the end of what is read. -/
def Quoting.isRegular : Quoting → Bool
  | bare _ _ | single | double | escaped _ => true
  | _ => false

/-- A place from which a line can end: a backslash at the very end escapes nothing. -/
def Quoting.canEnd : Quoting → Bool
  | bare _ _ | escaped false => true
  | _ => false

/-- How the place a walk has reached is quoted, the word that has begun there, and the words
before it. -/
structure Gathering where
  quoting : Quoting
  word : Option Bytes
  words : List Bytes
  deriving DecidableEq

namespace Gathering

/-- A mark that belongs to a word. -/
def add (g : Gathering) (m : Mark) : Gathering :=
  { g with quoting := g.quoting.step m, word := some (g.word.getD [] ++ g.quoting.said m) }

/-- One mark. A blank ends the word before it and an escaped line break is as if it were not there.
Nothing is gathered behind the end of the command or of what the rules of quoting cover. -/
def step? (g : Gathering) (m : Mark) : Option Gathering :=
  match g.quoting, m with
  | .bare _ _, .byte b =>
    if g.quoting.endsCommand m then none
    else if isBlank b then some ⟨g.quoting.step m, none, g.words ++ g.word.toList⟩
    else some (g.add m)
  | .bare _ _, .joint => some g
  | .single, .byte _ | .single, .joint | .double, .byte _ | .double, .joint
  | .escaped _, .byte _ => some (g.add m)
  | _, .byte _ | _, .joint | _, .closer | _, .joiner | _, .bad => none

def run (g : Gathering) : List Mark → Option Gathering
  | [] => some g
  | m :: ms => (g.step? m).bind (·.run ms)

/-- All words once the line has ended. -/
def finish (g : Gathering) : List Bytes :=
  g.words ++
    (if g.quoting = .escaped false then some (g.word.getD [] ++ [92]) else g.word).toList

variable {q : Quoting} {w sp : Bool} {word : Option Bytes} {words : List Bytes} {b : UInt8}
  {ms rest : List Mark} {g : Gathering}

theorem run_cons (g : Gathering) (m : Mark) (ms : List Mark) :
    g.run (m :: ms) = (g.step? m).bind (·.run ms) := rfl

theorem run_closer (g : Gathering) (ms : List Mark) : g.run (.closer :: ms) = none := by
  obtain ⟨q, word, words⟩ := g
  cases q <;> rfl

theorem run_joiner (g : Gathering) (ms : List Mark) : g.run (.joiner :: ms) = none := by
  obtain ⟨q, word, words⟩ := g
  cases q <;> rfl

theorem run_bad (g : Gathering) (ms : List Mark) : g.run (.bad :: ms) = none := by
  obtain ⟨q, word, words⟩ := g
  cases q <;> rfl

theorem run_joint (w sp : Bool) (word : Option Bytes) (words : List Bytes) (ms : List Mark) :
    run ⟨.bare w sp, word, words⟩ (.joint :: ms) = run ⟨.bare w sp, word, words⟩ ms := rfl

theorem step?_bare (w sp : Bool) (word : Option Bytes) (words : List Bytes) (b : UInt8) :
    step? ⟨.bare w sp, word, words⟩ (.byte b) =
      if Quoting.endsCommand (.bare w sp) (.byte b) then none
      else if isBlank b then
        some ⟨Quoting.step (.bare w sp) (.byte b), none, words ++ word.toList⟩
      else some (add ⟨.bare w sp, word, words⟩ (.byte b)) := rfl

theorem run_ender (h : Quoting.endsCommand (.bare w sp) (.byte b) = true) :
    run ⟨.bare w sp, word, words⟩ (.byte b :: ms) = none := by
  rw [run_cons, step?_bare, if_pos h]
  rfl

theorem run_blank (h : isBlank b = true) : run ⟨.bare w sp, word, words⟩ (.byte b :: ms) =
    run ⟨.bare w true, none, words ++ word.toList⟩ ms := by
  have hends : Quoting.endsCommand (.bare w sp) (.byte b) = false := by
    simp only [isBlank, Bool.or_eq_true, beq_iff_eq] at h
    rcases h with (rfl | rfl) | rfl <;> cases w <;> cases sp <;> decide
  have hstep : Quoting.step (.bare w sp) (.byte b) = .bare w true := by
    simp [Quoting.step, Quoting.bareStep, h]
  rw [run_cons, step?_bare, if_neg (by simp [hends]), if_pos h, hstep]
  rfl

/-- A byte that belongs to a word, as it stands or as the start of what is quoted. -/
theorem run_add (hb : isBlank b = false)
    (hends : Quoting.endsCommand (.bare w sp) (.byte b) = false) :
    run ⟨.bare w sp, word, words⟩ (.byte b :: ms) =
      run (add ⟨.bare w sp, word, words⟩ (.byte b)) ms := by
  rw [run_cons, step?_bare, if_neg (by simp [hends]), if_neg (by simp [hb])]
  rfl

/-- Where a word begins or goes on, it does not matter what came before it. -/
theorem run_wordStart (hb : ¬ isBlank b = true) (hc : ¬ (decide (b = 35) && (sp || !w)) = true) :
    run ⟨.bare w sp, word, words⟩ (.byte b :: ms) =
      run ⟨.bare true false, some (word.getD []), words⟩ (.byte b :: ms) := by
  have hstep : Quoting.step (.bare w sp) (.byte b) = Quoting.step (.bare true false) (.byte b) := by
    by_cases h35 : b = 35
    · obtain ⟨rfl, rfl⟩ : sp = false ∧ w = true := by simpa [h35] using hc
      rfl
    · exact bareStep_congr (by simpa using hb) h35 ..
  have hends : Quoting.endsCommand (.bare w sp) (.byte b) =
      Quoting.endsCommand (.bare true false) (.byte b) := by
    simp only [Quoting.endsCommand, hc]
    simp
  simp only [run_cons, step?_bare, hends, hb, add, hstep]
  rfl

/-- A byte that a bare text goes on with. -/
theorem run_text {t : Bytes} (hw : ¬ endsWord b = true)
    (hr : ¬ (decide (b = 60) || decide (b = 62)) = true)
    (hq : ¬ (decide (b = 34) || decide (b = 39) || decide (b = 36) || decide (b = 96)) = true)
    (h92 : b ≠ 92) : run ⟨.bare true false, some t, words⟩ (.byte b :: ms) =
      run ⟨.bare true false, some (t ++ [b]), words⟩ ms := by
  simp only [endsWord, isOperatorStart] at hw
  have hstep : Quoting.step (.bare true false) (.byte b) = .bare true false := by
    simp only [Quoting.step, Quoting.bareStep, isOperatorStart]
    grind
  have hsaid : Quoting.said (.bare true false) (.byte b) = [b] := by
    simp only [Quoting.said]
    grind
  rw [run_add (by grind), add, hstep, hsaid]
  · rfl
  · simp only [Quoting.endsCommand, isOperatorStart]
    grind

theorem run_escape (t : Bytes) (ms : List Mark) :
    run ⟨.bare true false, some t, words⟩ (.byte 92 :: ms) =
      run ⟨.escaped false, some t, words⟩ ms := by
  rw [run_add (by decide) (by decide), add]
  simp [Quoting.said, Quoting.step, Quoting.bareStep, isBlank]

theorem run_singleQuote (w sp : Bool) (word : Option Bytes) (words : List Bytes)
    (ms : List Mark) : run ⟨.bare w sp, word, words⟩ (.byte 39 :: ms) =
      run ⟨.single, some (word.getD []), words⟩ ms := by
  rw [run_wordStart (by decide) (by simp), run_add (by decide) (by decide), add]
  simp [Quoting.said, Quoting.step, Quoting.bareStep, isBlank]

theorem run_doubleQuote (w sp : Bool) (word : Option Bytes) (words : List Bytes)
    (ms : List Mark) : run ⟨.bare w sp, word, words⟩ (.byte 34 :: ms) =
      run ⟨.double, some (word.getD []), words⟩ ms := by
  rw [run_wordStart (by decide) (by simp), run_add (by decide) (by decide), add]
  simp [Quoting.said, Quoting.step, Quoting.bareStep, isBlank]

theorem run_dollar (w sp : Bool) (word : Option Bytes) (words : List Bytes) (ms : List Mark) :
    run ⟨.bare w sp, word, words⟩ (.byte 36 :: ms) =
      run ⟨.bare false false, some (word.getD [] ++ [36]), words⟩ ms := by
  rw [run_wordStart (by decide) (by simp), run_add (by decide) (by decide), add]
  simp [Quoting.said, Quoting.step, Quoting.bareStep, isBlank]

/-! What the lexer takes in one go, mark by mark. -/

theorem run_scanSingle {after : List Mark} {s t : Bytes} (h : scanSingle ms = some (s, after))
    (hr : run ⟨.single, some t, words⟩ ms = some g) :
    run ⟨.bare true false, some (t ++ s), words⟩ after = some g := by
  fun_induction scanSingle ms generalizing s t after with
  | case1 | case2 | case3 => cases h
  | case4 rest =>
    cases h
    simpa [run_cons, step?, add, Quoting.step, Quoting.said] using hr
  | case5 b rest hb ih =>
    obtain ⟨⟨s', after'⟩, he, hp⟩ := Option.map_eq_some_iff.mp h
    cases hp
    have hrest := ih he (t := t ++ [b])
      (by simpa [run_cons, step?, add, Quoting.step, Quoting.said, hb] using hr)
    simpa using hrest
  | case6 rest ih =>
    obtain ⟨⟨s', after'⟩, he, hp⟩ := Option.map_eq_some_iff.mp h
    cases hp
    have hrest := ih he (t := t ++ [92, 10])
      (by simpa [run_cons, step?, add, Quoting.step, Quoting.said] using hr)
    simpa using hrest
  | case7 rest => simp [run_joiner] at hr

theorem run_behindQuote (hr : run g ms ≠ none) : behindQuote ms = ms := by
  fun_cases behindQuote ms with
  | case1 rest => exact absurd (run_joiner g rest) hr
  | case2 => rfl

theorem unescape_cons {b : UInt8} (quoted : Bool) (s : Bytes) (hb : b ≠ 92) :
    unescape quoted (b :: s) = b :: unescape quoted s := by
  cases s with
  | nil => rfl
  | cons c s => rw [unescape, if_neg hb]

/-- A backslash and the byte behind it. -/
theorem unescape_escape (quoted : Bool) (c : UInt8) (s : Bytes) :
    unescape quoted (92 :: c :: s) =
      Quoting.said (.escaped quoted) (.byte c) ++ unescape quoted s := by
  by_cases h10 : c = 10
  · simp [unescape, Quoting.said, h10]
  by_cases hq : (quoted && !escapable c) = true
  · obtain ⟨rfl, hc⟩ := Bool.and_eq_true_iff.mp hq
    have h92 : c ≠ 92 := by
      rintro rfl
      exact absurd hc (by decide)
    simp only [Bool.not_eq_true'] at hc
    simp [unescape, Quoting.said, h10, hc, unescape_cons true s h92]
  · have hq' : (!quoted || escapable c) = true := by
      cases quoted <;> simp_all
    simp [unescape, Quoting.said, h10, hq, hq']

theorem run_scanDouble {inText : Bool} {after : List Mark} {s t : Bytes}
    (h : scanDouble inText ms = some (s, after))
    (hr : run ⟨.double, some t, words⟩ ms = some g) :
    run ⟨.bare true false, some (t ++ unescape true s), words⟩ after = some g := by
  fun_induction scanDouble inText ms generalizing s t after with
  | case1 | case2 | case3 | case10 => cases h
  | case4 _ rest ih =>
    refine ih h ?_
    simpa [run_cons, step?, add, Quoting.step, Quoting.said] using hr
  | case5 _ rest => simp [run_joiner] at hr
  | case6 _ c rest ih =>
    obtain ⟨⟨s', after'⟩, he, hp⟩ := Option.map_eq_some_iff.mp h
    cases hp
    rw [unescape_escape, ← List.append_assoc]
    refine ih he ?_
    simpa [run_cons, step?, add, Quoting.step, Quoting.said] using hr
  | case7 _ rest | case8 _ rest =>
    simp [run_cons, step?, add, Quoting.step] at hr
  | case9 _ rest =>
    cases h
    simpa [run_cons, step?, add, Quoting.step, Quoting.said, unescape] using hr
  | case11 _ b rest hb hc hj h34 hexp ih =>
    obtain ⟨⟨s', after'⟩, he, hp⟩ := Option.map_eq_some_iff.mp h
    cases hp
    have h92 : b ≠ 92 := by
      rintro rfl
      cases rest with
      | nil => cases he
      | cons m rest =>
        cases m with
        | byte c => exact hb c rest rfl rfl
        | closer => exact hc rest rfl rfl
        | joiner => exact hj rest rfl rfl
        | joint => simp [run_cons, step?, add, Quoting.step] at hr
        | bad => cases he
    have hrest := ih he (t := t ++ [b])
      (by simpa [run_cons, step?, add, Quoting.step, Quoting.said, h34, h92] using hr)
    simpa [unescape_cons true s' h92] using hrest

/-- The walk takes what the lexer does, except that a backslash at the end of the line is found
only when the walk is over. -/
theorem run_scanBare {after : List Mark} {ending : Ending} {raw t : Bytes}
    (h : scanBare ms = (raw, ending, after))
    (hr : run ⟨.bare true false, some t, words⟩ ms = some g) :
    ∃ g', run ⟨.bare true false, some (t ++ unescape false raw), words⟩ after = some g' ∧
      g'.finish = g.finish ∧ g'.quoting.canEnd = g.quoting.canEnd := by
  fun_induction scanBare ms generalizing raw ending t after with
  | case1 | case9 | case10 | case11 =>
    cases h
    exact ⟨g, by simpa [unescape] using hr, rfl, rfl⟩
  | case2 rest => simp [run_bad] at hr
  | case3 rest => simp [run_closer] at hr
  | case4 rest ih => exact ih h (run_joint .. ▸ hr)
  | case5 rest => simp [run_joiner] at hr
  | case6 c rest raw' ending' after' hs ih =>
    cases h
    rw [unescape_escape, ← List.append_assoc]
    refine ih hs ?_
    rw [run_escape] at hr
    simpa [run_cons, step?, add, Quoting.step] using hr
  | case7 rest | case8 rest =>
    rw [run_escape] at hr
    simp [run_cons, step?] at hr
  | case12 b rest hb hc hj hw hr' hq raw' ending' after' hs ih =>
    cases h
    by_cases h92 : b = 92
    · subst h92
      rw [run_escape] at hr
      cases rest with
      | nil =>
        cases hs
        cases hr
        exact ⟨_, rfl, by simp [finish, unescape], rfl⟩
      | cons m rest =>
        cases m with
        | byte c => exact (hb c rest rfl rfl).elim
        | closer => exact (hc rest rfl rfl).elim
        | joiner => exact (hj rest rfl rfl).elim
        | joint | bad => simp [run_cons, step?] at hr
    · rw [unescape_cons false raw' h92]
      rw [run_text hw hr' hq h92] at hr
      simpa using ih hs hr

end Gathering

/-- The words that lexemes make: white space before a lexeme begins a new word. -/
def joinWords : Option Bytes → List Spaced → List Bytes
  | word, [] => word.toList
  | word, x :: xs =>
    if x.spaced then word.toList ++ joinWords (some x.lexeme.value) xs
    else joinWords (some (word.getD [] ++ x.lexeme.value)) xs

/-- A bare or quoted text, none that numbers a redirection. -/
def Lexeme.isText : Lexeme → Bool
  | .bare _ ending => ending ≠ .number
  | .part _ => true
  | _ => false

theorem Lexeme.isWord_of_isText {x : Lexeme} (h : x.isText = true) : State.isWord x = true := by
  cases x with
  | newline | operator => cases h
  | bare | part => rfl

def Lexeme.isWhole : Lexeme → Bool
  | .bare _ .word => true
  | _ => false

/-- White space follows a bare text that is a whole word. -/
def Apart (x y : Spaced) : Prop := x.lexeme.isWhole = true → y.spaced = true

theorem joinWords_spaced (word : Option Bytes) {xs : List Spaced}
    (h : ∀ x ∈ xs.head?, x.spaced = true) :
    joinWords word xs = word.toList ++ joinWords none xs := by
  cases xs with
  | nil => simp [joinWords]
  | cons x xs => simp [joinWords, h x rfl]

/-- The lexemes of a walk that goes on from a word, behind white space or not, and ends. -/
structure Gathered (spaced : Bool) (word : Option Bytes) (words : List Bytes) (xs : List Spaced)
    (last : Gathering) : Prop where
  finish : last.finish = words ++ joinWords word xs
  ends : last.quoting.canEnd = true
  first : spaced = true → ∀ x ∈ xs.head?, x.spaced = true
  texts : ∀ x ∈ xs, x.lexeme.isText = true
  apart : xs.IsChain Apart

section Gathered
variable {sp : Bool} {word : Option Bytes} {words : List Bytes} {xs : List Spaced}
  {last : Gathering}

theorem Gathered.cons {x : Lexeme} (hw : sp = true → word = none)
    (text : x.isText = true) (whole : x.isWhole = true → ∀ y ∈ xs.head?, y.spaced = true)
    (h : Gathered false (some (word.getD [] ++ x.value)) words xs last) :
    Gathered sp word words (⟨sp, x⟩ :: xs) last where
  finish := by
    rw [h.finish, joinWords]
    cases sp with
    | false => rfl
    | true => simp [hw rfl]
  ends := h.ends
  first hsp := by simpa using hsp
  texts y hy := by
    rcases List.mem_cons.mp hy with rfl | hy
    · exact text
    · exact h.texts y hy
  apart := by
    cases xs with
    | nil => exact .singleton _
    | cons y xs => exact .cons_cons (fun hx => whole hx y rfl) h.apart

theorem Gathered.part {value : Bytes} (hw : sp = true → word = none) {blank : Bool}
    (h : Gathered blank (some (word.getD [] ++ value)) words xs last) :
    Gathered sp word words (⟨sp, .part value⟩ :: xs) last :=
  .cons hw rfl (by simp [Lexeme.isWhole]) { h with first := by simp }

theorem Gathered.blank (h : Gathered true none (words ++ word.toList) xs last) :
    Gathered true word words xs last where
  finish := by rw [h.finish, joinWords_spaced word (h.first rfl), List.append_assoc]
  ends := h.ends
  first := h.first
  texts := h.texts
  apart := h.apart

theorem Gathered.weaken {sp' : Bool} (h : Gathered sp word words xs last)
    (hsp : sp' = true → sp = true) : Gathered sp' word words xs last :=
  { h with first := fun hs => h.first (hsp hs) }

end Gathered

/-- What is next where a bare text has stopped. -/
theorem scanBare_stop {ms after : List Mark} {raw : Bytes} {ending : Ending}
    (h : scanBare ms = (raw, ending, after)) (hbad : ∀ rest, after ≠ .bad :: rest) :
    (ending = .word → after = [] ∨ ∃ b rest, after = .byte b :: rest ∧ endsWord b = true) ∧
      (ending = .number → ∃ b rest, after = .byte b :: rest ∧ (b = 60 ∨ b = 62)) := by
  fun_induction scanBare ms generalizing raw ending after with
  | case1 | case3 => cases h; simp
  | case2 rest => cases h; exact absurd rfl (hbad rest)
  | case4 rest ih => exact ih h hbad
  | case5 rest raw' ending' after' hs ih => cases h; exact ih hs hbad
  | case6 c rest raw' ending' after' hs ih => cases h; exact ih hs hbad
  | case7 rest raw' ending' after' hs ih => cases h; exact ih hs hbad
  | case8 rest raw' ending' after' hs ih => cases h; exact ih hs hbad
  | case9 b rest _ _ _ hw => cases h; simpa using hw
  | case10 b rest _ _ _ _ hr => cases h; simpa using hr
  | case11 b rest => cases h; simp
  | case12 b rest _ _ _ _ _ _ raw' ending' after' hs ih => cases h; exact ih hs hbad

def startsBlank : List Mark → Bool
  | .byte b :: _ => isBlank b
  | _ => false

/-- One bare text: the rest is walked from its end, and white space follows a whole word. -/
theorem Gathered.bare {sp : Bool} {word : Option Bytes} {words : List Bytes} {xs : List Spaced}
    {last : Gathering} {ms after : List Mark} {raw : Bytes} {ending : Ending}
    (hs : scanBare ms = (raw, ending, after)) (hw : sp = true → word = none)
    (hr : Gathering.run ⟨.bare true false, some (word.getD []), words⟩ ms = some last)
    (hscan : scan (bareEnding raw ending == .word) false after = some xs)
    (ih : ∀ {word words last},
      Gathering.run ⟨.bare (bareEnding raw ending == .word) false, word, words⟩ after =
        some last → Gathered (startsBlank after) word words xs last) :
    Gathered sp word words (⟨sp, .bare raw (bareEnding raw ending)⟩ :: xs) last := by
  obtain ⟨last', hrun, hfinish, hends⟩ := Gathering.run_scanBare hs hr
  have hbad (rest : List Mark) : after ≠ .bad :: rest := by
    rintro rfl
    simp [Gathering.run_bad] at hrun
  obtain ⟨hword, hnumber⟩ := scanBare_stop hs hbad
  have hnumber : ending ≠ .number := by
    intro he
    obtain ⟨b, rest, rfl, rfl | rfl⟩ := hnumber he
    all_goals
      rw [Gathering.run_ender (by decide)] at hrun
      cases hrun
  have hending : bareEnding raw ending = ending := by cases ending <;> simp_all [bareEnding]
  rw [hending] at ih hscan ⊢
  have hafter : Gathering.run ⟨.bare (ending == .word) false,
      some (word.getD [] ++ unescape false raw), words⟩ after = some last' := by
    by_cases he : ending = .word
    · subst he
      exact hrun
    · obtain ⟨b, rest, rfl, hb, h35⟩ := scanBare_after hs he
      rw [Gathering.run_wordStart (by simp [hb]) (by simp [h35])]
      exact hrun
  have h := ih hafter
  refine .cons hw (by simp [Lexeme.isText, hnumber]) (fun hwhole => ?_)
    { h.weaken (by simp) with finish := hfinish ▸ h.finish, ends := hends ▸ h.ends }
  have he : ending = .word := by cases ending <;> simp_all [Lexeme.isWhole]
  rcases hword he with rfl | ⟨b, rest, rfl, hb⟩
  · cases Option.some.inj (hscan.symm.trans (by rw [scan]))
    simp
  · refine h.first ?_
    by_contra hblank
    rw [Gathering.run_ender] at hrun
    · cases hrun
    · simp only [startsBlank] at hblank
      simp only [endsWord, isOperatorStart] at hb
      simp only [Quoting.endsCommand, isOperatorStart]
      grind

/-- The lexer finds the words of the walk. -/
theorem run_scan {w sp : Bool} {ms : List Mark} {xs : List Spaced} (h : scan w sp ms = some xs)
    {word : Option Bytes} {words : List Bytes} {last : Gathering} (hw : sp = true → word = none)
    (hr : Gathering.run ⟨.bare w sp, word, words⟩ ms = some last) :
    Gathered (sp || startsBlank ms) word words xs last := by
  fun_induction scan w sp ms generalizing xs word words last with
  | case1 w sp =>
    cases h
    cases hr
    exact ⟨rfl, rfl, by simp, by simp, .nil⟩
  | case2 => simp [Gathering.run_closer] at hr
  | case3 | case9 | case11 | case13 | case14 | case16 => cases h
  | case4 w sp rest ih =>
    exact (ih h hw (Gathering.run_joint .. ▸ hr)).weaken (by simp_all [startsBlank])
  | case5 => simp [Gathering.run_joiner] at hr
  | case6 w sp b rest hb ih =>
    rw [Gathering.run_blank hb] at hr
    refine (Gathered.blank (ih h (fun _ => rfl) hr)).weaken (by simp)
  | case7 w sp rest =>
    rw [Gathering.run_ender (by simp [Quoting.endsCommand])] at hr
    cases hr
  | case8 w sp b rest _ _ hc ih =>
    rw [Gathering.run_ender (by simp [Quoting.endsCommand, hc])] at hr
    cases hr
  | case10 w sp rest text after hs _ _ _ ih =>
    obtain ⟨ys, hy, rfl⟩ := Option.map_eq_some_iff.mp h
    rw [Gathering.run_singleQuote] at hr
    rw [Gathering.run_behindQuote (by rw [hr]; simp)] at hs
    have hpart := (ih hy (by simp) (Gathering.run_scanSingle hs hr)).part hw
    simpa [startsBlank, isBlank] using hpart
  | case12 w sp rest raw after hs _ _ _ _ ih =>
    obtain ⟨ys, hy, rfl⟩ := Option.map_eq_some_iff.mp h
    rw [Gathering.run_doubleQuote] at hr
    have hpart := (ih hy (by simp) (Gathering.run_scanDouble hs hr)).part hw
    simpa [startsBlank, isBlank] using hpart
  | case15 w sp rest he _ _ _ _ _ _ ih =>
    obtain ⟨ys, hy, rfl⟩ := Option.map_eq_some_iff.mp h
    rw [Gathering.run_dollar] at hr
    have hpart := (ih hy (by simp) hr).part hw
    simpa [startsBlank, isBlank] using hpart
  | case17 w sp b rest _ _ _ _ _ _ _ ho op after hs ih =>
    rw [Gathering.run_ender (by simp [Quoting.endsCommand, ho])] at hr
    cases hr
  | case18 w sp b rest hb _ hc _ _ _ _ _ raw ending after hs ih =>
    obtain ⟨ys, hy, rfl⟩ := Option.map_eq_some_iff.mp h
    rw [Gathering.run_wordStart hb hc] at hr
    have hbare := Gathered.bare hs hw hr hy fun hr => by simpa using ih hy (by simp) hr
    simpa [startsBlank, hb] using hbare

/-! The reading state over the lexemes of one command. -/

/-- The words that a stage holds, the last of them still growing or behind them all. -/
inductive HasWords : Stage → List Bytes → Option Bytes → Prop
  | idle : HasWords .idle [] none
  | whole (done : List Bytes) (text : Bytes) :
    HasWords (.reading (.words (done ++ [text])) .none .rest) done (some text)
  | growing (done : List Bytes) (text : Bytes) :
    HasWords (.reading (.words done) .none (.word .argument text)) done (some text)

/-- No more of a word can follow. -/
def Stage.isWhole : Stage → Bool
  | .reading _ _ .rest => true
  | _ => false

theorem startItem_hasWords {argv : List Bytes} {x : Lexeme} {s : Stage} (text : x.isText = true)
    (h : startItem (.words argv) .none x = some s) :
    HasWords s argv (some x.value) ∧ (s.isWhole = true → x.isWhole = true) := by
  cases x with
  | newline | operator => cases text
  | part value =>
    cases h
    exact ⟨.growing .., by simp [Stage.isWhole]⟩
  | bare raw ending =>
    cases ending with
    | number => cases text
    | word =>
      simp only [startItem] at h
      split at h
      · cases h
      · cases h
        exact ⟨.whole .., by simp [Lexeme.isWhole]⟩
    | part =>
      simp only [startItem] at h
      split at h
      · cases h
      · cases h
        exact ⟨.growing .., by simp [Stage.isWhole]⟩

theorem HasWords.word {s s' : Stage} {done : List Bytes} {word : Option Bytes} {sp : Bool} {x : Lexeme}
    (hs : HasWords s done word) (text : x.isText = true) (hsp : s.isWhole = true → sp = true)
    (h : s.word sp x = some s') :
    HasWords s' (if sp then done ++ word.toList else done)
        (some (if sp then x.value else word.getD [] ++ x.value)) ∧
      (s'.isWhole = true → x.isWhole = true) := by
  cases hs with
  | idle =>
    have hstart : startItem (.words []) .none x = some s' := by
      simp only [Stage.word] at h
      split at h
      · split at h
        · cases h
        · exact h
      · exact h
    simpa using startItem_hasWords text hstart
  | whole done t =>
    obtain rfl := hsp rfl
    simpa using startItem_hasWords text h
  | growing done t =>
    cases sp with
    | true =>
      simp only [Stage.word, settle] at h
      simpa using startItem_hasWords text h
    | false =>
      cases h
      exact ⟨.growing .., by simp [Stage.isWhole]⟩

/-- Reading lexemes that make words leaves a stage with these words. -/
theorem HasWords.run {xs : List Spaced} {s : Stage} {done : List Bytes} {word : Option Bytes}
    {last : State} (hs : HasWords s done word) (texts : ∀ x ∈ xs, x.lexeme.isText = true)
    (apart : xs.IsChain Apart) (first : s.isWhole = true → ∀ x ∈ xs.head?, x.spaced = true)
    (h : State.run { level := { stage := s } } xs = some last) :
    ∃ s' done' word', last = { level := { stage := s' } } ∧ HasWords s' done' word' ∧
      done' ++ word'.toList = done ++ joinWords word xs := by
  induction xs generalizing s done word with
  | nil =>
    cases h
    exact ⟨s, done, word, rfl, hs, rfl⟩
  | cons x xs ih =>
    obtain ⟨sp, x⟩ := x
    have htext : x.isText = true := texts ⟨sp, x⟩ (by simp)
    rw [State.run, State.step_word _ sp (Lexeme.isWord_of_isText htext)] at h
    obtain ⟨st, hst, hrun⟩ := Option.bind_eq_some_iff.mp h
    obtain ⟨s', hs', rfl⟩ := Option.map_eq_some_iff.mp hst
    obtain ⟨hnext, hwhole⟩ := hs.word htext (fun hw => first hw ⟨sp, x⟩ rfl) hs'
    obtain ⟨s'', done', word', rfl, hlast, heq⟩ := ih hnext
      (fun y hy => texts y (List.mem_cons_of_mem _ hy)) apart.tail
      (fun hw y hy => apart.rel_head? hy (hwhole hw)) hrun
    refine ⟨s'', done', word', rfl, hlast, heq.trans ?_⟩
    cases sp <;> simp [joinWords]

/-- The tree of a line that is one simple command holds the words of its stage. -/
theorem HasWords.tree? {s : Stage} {done argv : List Bytes} {word : Option Bytes}
    {files : Redirections} (hs : HasWords s done word)
    (h : State.tree? { level := { stage := s } } = some (.plain argv files)) :
    argv = done ++ word.toList ∧ argv ≠ [] := by
  have plain (w : Bytes) (ws : List Bytes) : joinDone .absent (joinChain none
      (joinStages none (.plain (w :: ws) .none))) = .plain (w :: ws) .none := rfl
  cases hs with
  | idle => cases h
  | whole done t | growing done t =>
    have hne : done ++ [t] ≠ [] := by simp
    obtain ⟨w, ws, he⟩ := List.exists_cons_of_ne_nil hne
    simp only [State.tree?, Level.tree?, Level.endStatement, Stage.tree?, settle, he,
      List.isEmpty_nil, if_true, Option.map_some, plain, Option.some.injEq] at h
    cases h
    exact ⟨by simpa using he.symm, by simp⟩

/-! The walk over a line that is accepted. -/

theorem joiner_mem_marks {ab : Bool} {s : Bytes} (h : .joiner ∈ marks ab s) :
    [0xC2, 0x81] <:+: s := by
  fun_induction marks ab s with
  | case9 ab s ih => exact (List.prefix_append [0xC2, 0x81] s).isInfix
  | _ => grind [List.infix_cons]

/-- A line break is no joint right behind a backslash that is read on its own. -/
theorem marks_isChain (ab : Bool) (s : Bytes) :
    (marks ab s).IsChain (fun m n => m = .byte 92 → n ≠ .joint) ∧
      (ab = true → (marks ab s).head? ≠ some .joint) := by
  have cons {m : Mark} {ms : List Mark}
      (h : ms.IsChain (fun m n => m = .byte 92 → n ≠ .joint))
      (hm : m = .byte 92 → ms.head? ≠ some .joint) :
      (m :: ms).IsChain (fun m n => m = .byte 92 → n ≠ .joint) := by
    cases ms with
    | nil => exact .singleton _
    | cons n ms => exact .cons_cons (fun he hn => hm he (by simp [hn])) h
  fun_induction marks ab s with
  | case1 => simp
  | case2 ab s ih | case3 ab s ih => exact ih
  | case4 s ih | case6 s ih => exact ⟨cons ih.1 fun _ => ih.2 rfl, by simp⟩
  | case5 ab s hab ih | case7 ab s hab ih => exact ⟨cons ih.1 (by simp), by simp [hab]⟩
  | case8 ab s ih | case9 ab s ih => exact ⟨cons ih.1 (by simp), by simp⟩
  | case10 ab b s _ _ _ _ _ _ ih => exact ⟨cons ih.1 (by simpa using ih.2), by simp⟩

/-- Marks that the walk follows. -/
structure Walkable (q : Quoting) (ms : List Mark) : Prop where
  regular : q.isRegular = true
  command : oneCommandFrom q ms = true
  marks : ∀ m ∈ ms, m = .joint ∨ ∃ b, m = .byte b
  chain : ms.IsChain (fun m n => m = .byte 92 → n ≠ .joint)
  head : ∀ d, q = .escaped d → ms.head? ≠ some .joint

/-- A place right behind a backslash that is read on its own. -/
theorem Quoting.eq_of_step_escaped {q : Quoting} {m : Mark} {d : Bool} (h : q.step m = .escaped d)
    (hm : m = .joint ∨ ∃ b, m = .byte b) (hj : q.isRegular = true)
    (head : ∀ d, q = .escaped d → m ≠ .joint) : m = .byte 92 := by
  rcases hm with rfl | ⟨b, rfl⟩
  · cases q with
    | escaped d' => exact absurd rfl (head d' rfl)
    | _ => cases h
  · cases q with
    | bare w sp =>
      simp only [Quoting.step, Quoting.bareStep] at h
      grind
    | double =>
      simp only [Quoting.step] at h
      grind
    | single => simp only [Quoting.step] at h; split at h <;> cases h
    | escaped d' => cases d' <;> cases h
    | comment | closed | broken => cases hj

theorem Walkable.step {q : Quoting} {m : Mark} {ms : List Mark} (h : Walkable q (m :: ms))
    (word : Option Bytes) (words : List Bytes) :
    Walkable (q.step m) ms ∧ ∃ next, Gathering.step? ⟨q, word, words⟩ m = some next ∧
      next.quoting = q.step m := by
  obtain ⟨hends, hcommand⟩ := Bool.and_eq_true_iff.mp h.command
  have hends : q.endsCommand m = false := by simpa using hends
  have hm := h.marks m (by simp)
  have head (d : Bool) (hq : q = .escaped d) : m ≠ .joint := fun he => h.head d hq (by simp [he])
  suffices hstep : (q.step m).isRegular = true ∧
      ∃ next, Gathering.step? ⟨q, word, words⟩ m = some next ∧ next.quoting = q.step m by
    refine ⟨⟨hstep.1, hcommand, fun n hn => h.marks n (List.mem_cons_of_mem _ hn), h.chain.tail,
      fun d hd hj => ?_⟩, hstep.2⟩
    exact h.chain.rel_head? hj (Quoting.eq_of_step_escaped hd hm h.regular head) rfl
  cases q with
  | comment | closed | broken => cases h.regular
  | escaped d =>
    obtain ⟨b, rfl⟩ := hm.resolve_left (head d rfl)
    cases d <;> exact ⟨rfl, _, rfl, rfl⟩
  | single | double =>
    rcases hm with rfl | ⟨b, rfl⟩
    · exact ⟨rfl, _, rfl, rfl⟩
    · refine ⟨?_, _, rfl, rfl⟩
      simp only [Quoting.step]
      grind [Quoting.isRegular]
  | bare w sp =>
    rcases hm with rfl | ⟨b, rfl⟩
    · exact ⟨rfl, _, rfl, rfl⟩
    · constructor
      · simp only [Quoting.endsCommand] at hends
        simp only [Quoting.step, Quoting.bareStep]
        grind [Quoting.isRegular]
      · rw [Gathering.step?_bare, if_neg (by simp [hends])]
        split <;> exact ⟨_, rfl, rfl⟩

theorem Walkable.exists_run {q : Quoting} {ms : List Mark} (h : Walkable q ms)
    (word : Option Bytes) (words : List Bytes) :
    ∃ last, Gathering.run ⟨q, word, words⟩ ms = some last := by
  induction ms generalizing q word words with
  | nil => exact ⟨_, rfl⟩
  | cons m ms ih =>
    obtain ⟨hrest, ⟨_, word', words'⟩, hstep, rfl⟩ := h.step word words
    obtain ⟨last, hlast⟩ := ih hrest word' words'
    exact ⟨last, by rw [Gathering.run_cons, hstep]; exact hlast⟩

/-- Parsing a line that is one simple command gives the words of the walk over it. -/
theorem words_of_parse {line : Bytes} {argv : List Bytes} {files : Redirections}
    (command : isOneCommand line = true) (unmarked : Unmarked line)
    (parsed : parse line = .ok (.plain argv files)) :
    Utf8.isValid line = true ∧ argv ≠ [] ∧ ∃ last : Gathering,
      Gathering.run ⟨.bare false false, none, []⟩ (marks false line) = some last ∧
      last.quoting.canEnd = true ∧ last.finish = argv := by
  obtain ⟨xs, st, hx, hst, htree⟩ := read?_eq_some_iff.mp (parse_eq_ok_iff.mp parsed)
  have valid : Utf8.isValid line = true := by
    by_contra hbad
    exact unmarked.1 (closer_of_closes (closes_of_bad hx (by simpa using hbad)))
  have hwalk : Walkable (.bare false false) (marks false line) := by
    refine ⟨rfl, command, fun m hm => ?_, (marks_isChain false line).1, by simp⟩
    cases m with
    | byte b => exact .inr ⟨b, rfl⟩
    | joint => exact .inl rfl
    | closer => exact absurd (closer_mem_marks hm) unmarked.1
    | joiner => exact absurd (joiner_mem_marks hm) unmarked.2
    | bad => exact absurd hm (bad_not_mem_marks false line)
  obtain ⟨last, hlast⟩ := hwalk.exists_run none []
  rw [lexemes_eq_scan, lineMarks, if_pos valid] at hx
  have h := run_scan hx (fun _ => rfl) hlast
  obtain ⟨s, done, word, rfl, hwords, he⟩ :=
    HasWords.idle.run h.texts h.apart (by simp [Stage.isWhole]) hst
  obtain ⟨hargv, hne⟩ := hwords.tree? htree
  refine ⟨valid, hne, last, hlast, h.ends, ?_⟩
  rw [h.finish, hargv, he]

end CommandShell.Line
