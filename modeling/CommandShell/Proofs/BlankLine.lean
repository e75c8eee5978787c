import CommandShell.CommandLine
import CommandShell.Proofs.CleanPath
import CommandShell.Proofs.SegmentLexing
import CommandShell.Proofs.SessionRun
import CommandShell.Sandbox
import Mathlib

/-! Lines of white space. A session passes over a line of nothing but white space in the sense of
Unicode. For the lexer only blanks and newlines are white space, and any other character of such a line
is part of a word, so that a line that is passed over may still have commands. -/
namespace CommandShell

namespace Line

/-- White space of the lexer. -/
def isGap (b : UInt8) : Bool := isBlank b || b == 10

theorem isGap_of_ne {b : UInt8} (h : b ≠ 10) : isGap b = isBlank b := by simp [isGap, h]

/-- A byte of white space that the lexer does not know: the vertical tab, the form feed and whatever is
beyond ASCII. -/
def Foreign (b : UInt8) : Prop := b = 11 ∨ b = 12 ∨ 0x80 ≤ b

instance : DecidablePred Foreign := fun _ => inferInstanceAs (Decidable (_ ∨ _ ∨ _))

/-- The words between the blanks of a text in which nothing is quoted. -/
def wordsOf (s : Bytes) : List Bytes := (s.splitOnP isBlank).filter (!·.isEmpty)

/-- The words of each line that has words. -/
def commandsOf (s : Bytes) : List (List Bytes) :=
  ((Bytes.splitOn 10 s).map wordsOf).filter (!·.isEmpty)

/-- Commands one after the other, behind what is done already. -/
def sequenceOf (done : Tree) (commands : List (List Bytes)) : Tree :=
  commands.foldl (fun done argv => joinDone done (.plain argv)) done

/-! ### Pieces of a text -/

/-- A text is a piece without separators, or it has such a piece in front of its first separator. -/
@[elab_as_elim]
theorem pieces_induction {p : UInt8 → Bool} {motive : Bytes → Prop}
    (last : ∀ piece, (∀ b ∈ piece, p b = false) → motive piece)
    (cut : ∀ piece b rest, (∀ c ∈ piece, p c = false) → p b = true → motive rest →
      motive (piece ++ b :: rest)) (s : Bytes) : motive s := by
  -- what has been passed since the last separator is part of the next piece
  suffices h : ∀ piece, (∀ b ∈ piece, p b = false) → motive (piece ++ s) from h [] (by simp)
  induction s with
  | nil =>
    intro piece hpiece
    rw [List.append_nil]
    exact last piece hpiece
  | cons b s ih =>
    intro piece hpiece
    cases hb : p b with
    | true => exact cut piece b s hpiece hb (ih [] (by simp))
    | false =>
      have hlonger : ∀ c ∈ piece ++ [b], p c = false :=
        List.forall_mem_append.mpr ⟨hpiece, by simpa using hb⟩
      simpa using ih (piece ++ [b]) hlonger

theorem wordsOf_piece {piece : Bytes} (h : ∀ b ∈ piece, isBlank b = false) :
    wordsOf piece = if piece.isEmpty then [] else [piece] := by
  rw [wordsOf, List.splitOnP_eq_singleton h]
  cases piece <;> rfl

theorem wordsOf_append (s : Bytes) {b : UInt8} (hb : isBlank b = true) (t : Bytes) :
    wordsOf (s ++ b :: t) = wordsOf s ++ wordsOf t := by
  rw [wordsOf, List.splitOnP_append_cons s t hb, List.filter_append, wordsOf, wordsOf]

theorem wordsOf_eq_nil_iff (s : Bytes) : wordsOf s = [] ↔ ∀ b ∈ s, isBlank b = true := by
  induction s using pieces_induction (p := isBlank) with
  | last piece hpiece =>
    rw [wordsOf_piece hpiece]
    cases piece with
    | nil => simp
    | cons b piece => simp [hpiece b List.mem_cons_self]
  | cut piece b rest hpiece hb ih =>
    rw [wordsOf_append piece hb, List.append_eq_nil_iff, ih, wordsOf_piece hpiece]
    cases piece with
    | nil => simp [hb]
    | cons c piece => simp [hpiece c List.mem_cons_self]

theorem commandsOf_line {line : Bytes} (h : 10 ∉ line) :
    commandsOf line = [wordsOf line].filter (!·.isEmpty) := by
  rw [commandsOf, Bytes.splitOn_of_not_mem h, List.map_singleton]

theorem commandsOf_append (s t : Bytes) :
    commandsOf (s ++ 10 :: t) = commandsOf s ++ commandsOf t := by
  rw [commandsOf, Bytes.splitOn_append, List.map_append, List.filter_append, commandsOf, commandsOf]

/-- The lines of a text, each but the last with its newline. -/
@[elab_as_elim]
theorem lines_induction {motive : Bytes → Prop} (last : ∀ line, 10 ∉ line → motive line)
    (cut : ∀ line rest, 10 ∉ line → motive rest → motive (line ++ 10 :: rest)) (s : Bytes) :
    motive s := by
  have not_mem {line : Bytes} (h : ∀ b ∈ line, (b == 10) = false) : 10 ∉ line :=
    fun hm => absurd (h 10 hm) (by decide)
  induction s using pieces_induction (p := (· == 10)) with
  | last line hline => exact last line (not_mem hline)
  | cut line b rest hline hb ih =>
    obtain rfl : b = 10 := by simpa using hb
    exact cut line rest (not_mem hline) ih

theorem commandsOf_eq_nil_iff (s : Bytes) : commandsOf s = [] ↔ ∀ b ∈ s, isGap b = true := by
  have hline {line : Bytes} (h : 10 ∉ line) :
      commandsOf line = [] ↔ ∀ b ∈ line, isGap b = true := by
    have hgap : ∀ b ∈ line, (isGap b = true ↔ isBlank b = true) := by
      intro b hb
      rw [isGap_of_ne fun he => h (he ▸ hb)]
    rw [commandsOf_line h, forall₂_congr hgap, ← wordsOf_eq_nil_iff]
    cases wordsOf line <;> simp
  induction s using lines_induction with
  | last line h => exact hline h
  | cut line rest h ih =>
    have hrest : commandsOf rest = [] ↔ ∀ b ∈ rest, isGap b = true := ih
    have hgap : isGap 10 = true := rfl
    rw [commandsOf_append, List.append_eq_nil_iff, hline h, hrest, List.forall_mem_append,
      List.forall_mem_cons, and_iff_right hgap]

/-- A blank that ends a text adds nothing to it. -/
theorem commandsOf_blank (s : Bytes) {b : UInt8} (hb : isBlank b = true) :
    commandsOf (s ++ [b]) = commandsOf s := by
  induction s using lines_induction with
  | last line h =>
    have hne : (10 : UInt8) ≠ b := by
      rintro rfl
      exact absurd hb (by decide)
    have hnot : 10 ∉ line ++ [b] := by simp [h, hne]
    have hnil : wordsOf [] = [] := rfl
    rw [commandsOf_line hnot, commandsOf_line h, wordsOf_append line hb, hnil, List.append_nil]
  | cut line rest h ih =>
    rw [List.append_assoc, List.cons_append, commandsOf_append, ih, commandsOf_append]

theorem sequenceOf_append (done : Tree) (front back : List (List Bytes)) :
    sequenceOf done (front ++ back) = sequenceOf (sequenceOf done front) back := List.foldl_append

theorem joinDone_ne_absent (done : Tree) (argv : List Bytes) :
    joinDone done (.plain argv) ≠ .absent := by
  unfold joinDone
  split <;> simp [Tree.plain, Tree.sequence, Tree.binary]

theorem sequenceOf_eq_absent_iff (commands : List (List Bytes)) :
    sequenceOf .absent commands = .absent ↔ commands = [] := by
  induction commands using List.reverseRecOn with
  | nil => simp [sequenceOf]
  | append_singleton front argv _ =>
    rw [sequenceOf_append]
    exact iff_of_false (joinDone_ne_absent _ argv) (by simp)

/-! ### Reading a text of gaps and foreign bytes -/

theorem Foreign.not_mem_breaking {b : UInt8} (h : Foreign b) : b ∉ 35 :: breaking := by
  rcases h with rfl | rfl | h
  · decide
  · decide
  · exact not_mem_breaking_of_wide h

/-- The words read of a command whose words are all complete. -/
def stageOf (argv : List Bytes) : Stage :=
  if argv.isEmpty then .idle else .reading (.words argv) .none .rest

/-- The reading state behind commands that are done and some complete words. -/
def stateOf (done : Tree) (argv : List Bytes) : State := { level := { done, stage := stageOf argv } }

theorem isReserved_of_foreign {word : Bytes} (hword : ∀ b ∈ word, Foreign b) :
    isReserved word = false := by
  rw [← Bool.not_eq_true]
  intro h
  have hascii : word.any (fun b => !decide (Foreign b)) = true :=
    List.all_eq_true (p := fun w => List.any w fun b => !decide (Foreign b)).mp (by decide +kernel)
      word (List.contains_iff_mem.mp h)
  obtain ⟨b, hb, hnot⟩ := List.any_eq_true.mp hascii
  simp [hword b hb] at hnot

/-- A word of foreign bytes is an ordinary word also at the start of a command. -/
theorem step_foreign {word : Bytes} (hword : ∀ b ∈ word, Foreign b) (sp : Bool) (done : Tree)
    (argv : List Bytes) :
    (stateOf done argv).step ⟨sp, .bare word .word⟩ = some (stateOf done (argv ++ [word])) := by
  have hassignment : isAssignment word = false := by
    have hequals : 61 ∉ word := fun hm => absurd (hword 61 hm) (by decide)
    rw [isAssignment, List.contains_eq_mem, decide_eq_false hequals, Bool.false_and]
  have hvalue : unescape false word = word := by
    have hback : ∀ b ∈ word, b ≠ 92 := by
      rintro b hb rfl
      exact absurd (hword 92 hb) (by decide)
    simpa [unescape] using unescape_texts hback false []
  rw [State.step_word _ _ rfl]
  cases argv with
  | nil =>
    simp [stateOf, stageOf, Stage.word, startItem, isReserved_of_foreign hword, hassignment, hvalue]
  | cons w argv => simp [stateOf, stageOf, Stage.word, startItem, hvalue]

theorem step_lineEnd (sp : Bool) (done : Tree) (argv : List Bytes) :
    (stateOf done argv).step ⟨sp, .newline⟩ =
      some (stateOf (sequenceOf done ([argv].filter (!·.isEmpty))) []) := by
  cases argv <;> rfl

theorem tree?_stateOf (done : Tree) (argv : List Bytes) :
    (stateOf done argv).tree? = some (sequenceOf done ([argv].filter (!·.isEmpty))) := by
  cases argv <;> rfl

/-- Where a word ends. -/
def AtGap (ms : List Mark) : Prop := ∀ m ∈ ms.head?, ∃ b, m = .byte b ∧ isGap b = true

theorem scanBare_atGap {ms : List Mark} (h : AtGap ms) : scanBare ms = ([], .word, ms) := by
  cases ms with
  | nil => rfl
  | cons m ms =>
    obtain ⟨b, rfl, hb⟩ := h m rfl
    have hne : b ≠ 92 := by
      rintro rfl
      exact absurd hb (by decide)
    have hends : endsWord b = true := by
      rw [endsWord, ← isGap, hb, Bool.true_or]
    rw [scanBare.eq_def]
    simp [hends, hne]

theorem scan_foreign {word : Bytes} (hne : word ≠ []) (hword : ∀ b ∈ word, Foreign b)
    {ms : List Mark} (hms : AtGap ms) (w sp : Bool) :
    scan w sp (word.map .byte ++ ms) = (scan true false ms).map (⟨sp, .bare word .word⟩ :: ·) := by
  have hbreak : ∀ b ∈ word, b ∉ breaking :=
    fun b hb hm => (hword b hb).not_mem_breaking (List.mem_cons_of_mem _ hm)
  have hbare := scanBare_texts hbreak ms
  rw [scanBare_atGap hms, List.append_nil] at hbare
  obtain ⟨b, word, rfl⟩ := List.exists_cons_of_ne_nil hne
  have hb := (hword b List.mem_cons_self).not_mem_breaking
  simp only [breaking, List.mem_cons, List.not_mem_nil, or_false, not_or] at hb
  exact scan_bare w sp (by simp [isBlank, hb]) (by simp [hb]) (by simp [hb]) (by simp [hb])
    (by simp [hb]) (by simp [hb]) (by simp [hb]) (by simp [isOperatorStart, hb]) hbare

/-- In front of a gap, the part of a line adds these words to a command. -/
def ReadAs (s : Bytes) (words : List Bytes) : Prop :=
  ∀ ms, AtGap ms → ∀ w sp, ∃ xs w' sp',
    scan w sp (s.map .byte ++ ms) = (scan w' sp' ms).map (xs ++ ·) ∧
      ∀ done argv, (stateOf done argv).run xs = some (stateOf done (argv ++ words))

theorem readAs_nil : ReadAs [] [] :=
  fun _ _ w sp => ⟨[], w, sp, by simp, by simp [State.run]⟩

theorem readAs_foreign {word : Bytes} (hne : word ≠ []) (hword : ∀ b ∈ word, Foreign b) :
    ReadAs word [word] := by
  intro ms hms w sp
  refine ⟨[⟨sp, .bare word .word⟩], true, false, scan_foreign hne hword hms w sp, ?_⟩
  intro done argv
  rw [State.run, step_foreign hword]
  rfl

theorem ReadAs.append {s t : Bytes} {front back : List Bytes} (hs : ReadAs s front) {b : UInt8}
    (hb : isBlank b = true) (ht : ReadAs t back) : ReadAs (s ++ b :: t) (front ++ back) := by
  intro ms hms w sp
  have hgap : AtGap (.byte b :: (t.map .byte ++ ms)) := by
    rintro m ⟨⟩
    exact ⟨b, rfl, by rw [isGap, hb, Bool.true_or]⟩
  obtain ⟨xs, w₁, sp₁, hscan, hrun⟩ := hs _ hgap w sp
  obtain ⟨ys, w₂, sp₂, hscan', hrun'⟩ := ht ms hms w₁ true
  refine ⟨xs ++ ys, w₂, sp₂, ?_, fun done argv => ?_⟩
  · rw [List.map_append, List.append_assoc, List.map_cons, List.cons_append, hscan,
      scan_blank _ _ hb, hscan', Option.map_map]
    simp [Function.comp_def]
  · rw [State.run_append, hrun, Option.bind_some, hrun', List.append_assoc]

/-- A part of a line is read as its words. -/
theorem readAs_wordsOf {s : Bytes} (hs : ∀ b ∈ s, isBlank b = true ∨ Foreign b) :
    ReadAs s (wordsOf s) := by
  have one {piece : Bytes} (hpiece : ∀ b ∈ piece, isBlank b = false)
      (hs : ∀ b ∈ piece, isBlank b = true ∨ Foreign b) : ReadAs piece (wordsOf piece) := by
    rw [wordsOf_piece hpiece]
    cases piece with
    | nil => exact readAs_nil
    | cons b piece =>
      exact readAs_foreign (by simp) fun c hc => (hs c hc).resolve_left (by simp [hpiece c hc])
  induction s using pieces_induction (p := isBlank) with
  | last piece hpiece => exact one hpiece hs
  | cut piece b rest hpiece hb ih =>
    obtain ⟨hfront, hback⟩ := List.forall_mem_append.mp hs
    rw [wordsOf_append piece hb]
    exact (one hpiece hfront).append hb (ih (List.forall_mem_cons.mp hback).2)

/-- A text is read as its commands. -/
theorem scan_lines {s : Bytes} (hs : ∀ b ∈ s, isGap b = true ∨ Foreign b) (w sp : Bool)
    (done : Tree) :
    ∃ xs st, scan w sp (s.map .byte) = some xs ∧ (stateOf done []).run xs = some st ∧
      st.tree? = some (sequenceOf done (commandsOf s)) := by
  have inLine {line : Bytes} (h : 10 ∉ line) (hs : ∀ b ∈ line, isGap b = true ∨ Foreign b) :
      ∀ b ∈ line, isBlank b = true ∨ Foreign b := by
    intro b hb
    rw [← isGap_of_ne fun he => h (he ▸ hb)]
    exact hs b hb
  induction s using lines_induction generalizing w sp done with
  | last line h =>
    obtain ⟨xs, w', sp', hscan, hrun⟩ := readAs_wordsOf (inLine h hs) [] (by simp [AtGap]) w sp
    refine ⟨xs, _, ?_, hrun done [], ?_⟩
    · rw [← List.append_nil (line.map Mark.byte), hscan, scan.eq_1]
      simp
    · rw [tree?_stateOf, commandsOf_line h, List.nil_append]
  | cut line rest h ih =>
    obtain ⟨hfront, hback⟩ := List.forall_mem_append.mp hs
    have hgap : AtGap (.byte 10 :: rest.map .byte) := by
      rintro m ⟨⟩
      exact ⟨10, rfl, rfl⟩
    obtain ⟨xs, w', sp', hscan, hrun⟩ := readAs_wordsOf (inLine h hfront) _ hgap w sp
    obtain ⟨ys, st, hscan', hrun', htree⟩ := ih (List.forall_mem_cons.mp hback).2 false false
      (sequenceOf done (commandsOf line))
    refine ⟨xs ++ ⟨sp', .newline⟩ :: ys, st, ?_, ?_, ?_⟩
    · rw [List.map_append, List.map_cons, hscan, scan_newline, hscan']
      rfl
    · rw [State.run_append, hrun, Option.bind_some, State.run, step_lineEnd, Option.bind_some,
        List.nil_append, ← commandsOf_line h, hrun']
    · rw [htree, commandsOf_append, sequenceOf_append]

/-! ### Blank lines -/

theorem gap_or_foreign {c : Char} (h : Unicode.isBlank c = true) :
    ∀ b ∈ Bytes.ofChar c, isGap b = true ∨ Foreign b := by
  intro b hb
  rcases Json.mem_ofChar hb with hascii | hwide
  · by_cases hwide : 128 ≤ c.toNat
    · exact .inr (.inr (.inr (UInt8.le_iff_toNat_le.mpr (hascii ▸ hwide))))
    · have hcode : c.toNat ∈ [9, 10, 11, 12, 13, 32] := by
        simp only [Unicode.isBlank, Bool.or_eq_true, Bool.and_eq_true, decide_eq_true_eq,
          beq_iff_eq] at h
        simp only [List.mem_cons, List.not_mem_nil, or_false]
        omega
      have hknown : ∀ n ∈ [9, 10, 11, 12, 13, 32],
          isGap (UInt8.ofNat n) = true ∨ Foreign (UInt8.ofNat n) := by decide
      rw [← UInt8.ofNat_toNat (x := b), hascii]
      exact hknown _ hcode
  · exact .inr (.inr (.inr (UInt8.le_iff_toNat_le.mpr hwide)))

/-- The bytes that the lexer reads of a blank line. A carriage return before a newline is none of
them, and the commands are the same without it. -/
theorem exists_marks (ab : Bool) (cs : List Char) (hcs : ∀ c ∈ cs, Unicode.isBlank c = true) :
    ∃ bs : Bytes, (signs ab cs).flatMap Sign.marks = bs.map .byte ∧
      (∀ b ∈ bs, isGap b = true ∨ Foreign b) ∧
      ∀ front, commandsOf (front ++ Utf8.encode cs) = commandsOf (front ++ bs) := by
  have drop {cs : List Char} {c : Char} (h : ∀ d ∈ c :: cs, Unicode.isBlank d = true) :
      ∀ d ∈ cs, Unicode.isBlank d = true := (List.forall_mem_cons.mp h).2
  have back {cs : List Char} (h : ∀ d ∈ '\\' :: cs, Unicode.isBlank d = true) : False :=
    absurd (h _ List.mem_cons_self) (by decide)
  fun_induction signs ab cs with
  | case1 => exact ⟨[], rfl, by simp, fun _ => rfl⟩
  | case2 ab cs ih =>
    -- without its carriage return the line ends in front of the same newline
    obtain ⟨bs, hmarks, hbs, hcommands⟩ := ih (drop hcs)
    refine ⟨bs, hmarks, hbs, fun front => ?_⟩
    have hfront : front ++ Utf8.encode ('\r' :: '\n' :: cs) =
        (front ++ [13]) ++ 10 :: Utf8.encode cs := by
      rw [List.append_assoc]
      rfl
    rw [hfront, commandsOf_append, commandsOf_blank front (by decide), ← commandsOf_append]
    exact hcommands front
  | case3 | case4 | case5 | case6 => exact (back hcs).elim
  | case7 ab c cs cr nl crnl ih =>
    obtain ⟨hc, hcs⟩ := List.forall_mem_cons.mp hcs
    obtain ⟨bs, hmarks, hbs, hcommands⟩ := ih hcs
    refine ⟨Bytes.ofChar c ++ bs, ?_, List.forall_mem_append.mpr ⟨gap_or_foreign hc, hbs⟩, ?_⟩
    · rw [List.flatMap_cons, hmarks, List.map_append]
      rfl
    · intro front
      rw [Utf8.encode_cons, ← List.append_assoc, hcommands, List.append_assoc]

theorem chars_of_isBlank {line : Bytes} (blank : line.isBlank = true) :
    Utf8.isValid line = true ∧ ∀ c ∈ Utf8.chars line, Unicode.isBlank c = true := by
  have hrune := List.all_eq_true.mp blank
  refine ⟨List.all_eq_true.mpr fun r hr => ?_, fun c hc => ?_⟩
  · have h := hrune r hr
    cases r with
    | char c => rfl
    | bad b => cases h
  · obtain ⟨r, hr, rfl⟩ := List.mem_map.mp hc
    have h := hrune r hr
    cases r with
    | char c => exact h
    | bad b => cases h

/-- A blank line can always be read. Its commands are of foreign bytes. -/
theorem parse_blank {line : Bytes} (blank : line.isBlank = true) :
    parse line = .ok (sequenceOf .absent (commandsOf line)) := by
  obtain ⟨valid, hblank⟩ := chars_of_isBlank blank
  have hordinary : ∀ c ∈ Utf8.chars line, Ordinary c := by
    intro c hc
    refine ⟨?_, ?_, ?_⟩ <;> rintro rfl <;> exact absurd (hblank _ hc) (by decide)
  obtain ⟨bs, hmarks, hbs, hcommands⟩ := exists_marks false (Utf8.chars line) hblank
  rw [← marks_encode _ hordinary, Utf8.encode_chars valid] at hmarks
  have hsame : commandsOf line = commandsOf bs := by
    simpa [Utf8.encode_chars valid] using hcommands []
  obtain ⟨xs, st, hscan, hrun, htree⟩ := scan_lines hbs false false .absent
  have hlexemes : lexemes line = some xs := by
    rw [lexemes_eq_scan, lineMarks, if_pos valid, hmarks, hscan]
  rw [parse_eq_ok_iff, read?_eq_some_iff, hsame]
  exact ⟨xs, st, hlexemes, hrun, htree⟩

theorem parse_blank_eq_absent_iff {line : Bytes} (blank : line.isBlank = true) :
    parse line = .ok .absent ↔ ∀ b ∈ line, isGap b = true := by
  rw [parse_blank blank, Except.ok.injEq, sequenceOf_eq_absent_iff, commandsOf_eq_nil_iff]

end Line

namespace Session

/-! ### Sessions that pass over no line -/

/-- What a reading leads to if blank lines are run like any others. -/
def handleAll (s : Session) : Reading → State → Option Status × State
  | .line text, st => (none, s.runLine text st)
  | reading, st => s.handle reading st

/-- Goes through readings, given what each of them leads to. -/
def followBy (s : Session) (handle : Reading → State → Option Status × State) :
    List Reading → State → Ended
  | [], st =>
    let prompt := s.prompt st.running.here
    { status := st.last, state := (handle .ended st).2, prompts := [prompt], unread := 0 }
  | reading :: rest, st =>
    let prompt := s.prompt st.running.here
    match handle reading st with
    | (some status, st) => { status, state := st, prompts := [prompt], unread := rest.length }
    | (none, st) =>
      let ended := s.followBy handle rest st
      { ended with prompts := prompt :: ended.prompts }

section
variable {s : Session} {line : Bytes} {readings : List Reading}

theorem followBy_handle (readings : List Reading) (st : State) :
    s.followBy s.handle readings st = s.follow readings st := by
  induction readings generalizing st with
  | nil => rfl
  | cons reading rest ih =>
    rw [followBy, follow]
    rcases s.handle reading st with ⟨_ | status, next⟩
    · simp only [ih]
    · rfl

theorem followBy_congr {f g : Reading → State → Option Status × State}
    (ended : ∀ st, f .ended st = g .ended st)
    (h : ∀ reading ∈ readings, ∀ st, f reading st = g reading st) (st : State) : s.followBy f readings st = s.followBy g readings st := by
  induction readings generalizing st with
  | nil => rw [followBy, followBy, ended]
  | cons reading rest ih =>
    obtain ⟨hreading, hrest⟩ := List.forall_mem_cons.mp h
    rw [followBy, followBy, hreading]
    split
    · rfl
    · rw [ih hrest]

theorem runLine_of_gaps (blank : line.isBlank = true) (h : ∀ b ∈ line, Line.isGap b = true)
    (st : State) : s.runLine line st = st :=
  runLine_of_absent ((Line.parse_blank_eq_absent_iff blank).mpr h)

theorem handleAll_eq_handle {reading : Reading}
    (h : ∀ text, reading = .line text → text.isBlank = true → ∀ b ∈ text, Line.isGap b = true)
    (st : State) : s.handleAll reading st = s.handle reading st := by
  cases reading with
  | line text =>
    rw [handleAll, handle]
    split
    · next blank => rw [runLine_of_gaps blank (h text rfl blank)]
    · rfl
  | interrupted | ended | failed => rfl

/-- A line that has commands is recorded, so that it does not leave everything as it was. -/
theorem parse_eq_absent_of_runLine_eq_self (hrec : s.executor.recorder = .memory)
    {tree : Tree} (hp : Line.parse line = .ok tree) {st : State} (h : s.runLine line st = st) :
    tree = .absent := by
  by_contra hne
  obtain ⟨events, he, hi⟩ := events_runLine hrec line st
  rw [h, List.self_eq_append_right] at he
  subst he
  rw [inputOf?, hp] at hi
  cases tree with
  | absent => exact hne rfl
  | node => cases hi

end

/-- A line of white space can always be read. Its words are made of the characters that are white space
for Unicode alone, and it has no commands exactly if it is all blanks and newlines. Such a line changes
nothing, in a session or as the one line of a call, and any other is recorded when it is run. A session
that runs its blank lines does what one does that passes over them, if all of them are such lines. -/
theorem blank_lines_change_nothing_iff (s : Session) :
    (∀ line : Bytes, line.isBlank = true →
      Line.parse line = .ok (Line.sequenceOf .absent (Line.commandsOf line)) ∧
      (Line.parse line = .ok .absent ↔ ∀ b ∈ line, Line.isGap b = true) ∧
      ((∀ b ∈ line, Line.isGap b = true) →
        (∀ st : State, s.runLine line st = st) ∧
        ∀ (host : CommandLine.Host) (o : CommandLine.Options) (w : World),
          o.command = some line → host.runSession o s w = (Status.success, w)) ∧
      ∀ st : State, s.executor.recorder = .memory →
        (s.runLine line st = st ↔ ∀ b ∈ line, Line.isGap b = true)) ∧
    ∀ (readings : List Reading) (st : State),
      (∀ text, .line text ∈ readings → text.isBlank = true → ∀ b ∈ text, Line.isGap b = true) →
      s.followBy s.handleAll readings (s.welcome st) = s.run readings st := by
  refine ⟨fun line blank => ?_, fun readings st hgaps => ?_⟩
  · have habsent := Line.parse_blank_eq_absent_iff blank
    have hparse := Line.parse_blank blank
    refine ⟨hparse, habsent, fun hgaps => ⟨runLine_of_gaps blank hgaps, ?_⟩,
      fun st hrec => ⟨fun hsame => ?_, fun hgaps => runLine_of_gaps blank hgaps st⟩⟩
    · intro host o w ho
      simp only [CommandLine.Host.runSession, ho, runLine_of_gaps blank hgaps]
      rfl
    · rw [← habsent, hparse, parse_eq_absent_of_runLine_eq_self hrec hparse hsame]
  · have hagree : ∀ reading ∈ readings, ∀ st, s.handleAll reading st = s.handle reading st := by
      intro reading hm
      refine handleAll_eq_handle fun text he => ?_
      subst he
      exact hgaps text hm
    have hended : ∀ st, s.handleAll .ended st = s.handle .ended st := fun _ => rfl
    rw [followBy_congr hended hagree, followBy_handle, run]

/-- A session without programs, in a world without files. -/
private def lone : Session where
  config := {}
  aliases := ⟨[]⟩
  executor := { name := [], programs := fun _ => .exit 0 }
  streams := Sandbox.streams

private def loneStart : State where
  running := { here := { dir := "/", env := .empty }, world := Sandbox.start {} [] }
  last := 7

/-- Blanks and line ends, which are no commands, and a form feed, which is the name of one. -/
theorem blank_lines_change_nothing_iff_form_feed :
    let gaps : Bytes := [32, 9, 13, 10]
    let feed : Bytes := [12]
    let readings : List Reading := [.line gaps, .line "cd /", .interrupted]
    gaps.isBlank = true ∧ Line.parse gaps = .ok .absent ∧ lone.runLine gaps loneStart = loneStart ∧
      lone.followBy lone.handleAll readings (lone.welcome loneStart) = lone.run readings loneStart ∧
      feed.isBlank = true ∧ Line.parse feed = .ok (.plain [[12]]) ∧
      lone.runLine feed loneStart ≠ loneStart := by
  intro gaps feed readings
  obtain ⟨hlines, hruns⟩ := blank_lines_change_nothing_iff lone
  have hgaps : ∀ b ∈ gaps, Line.isGap b = true := List.all_eq_true.mp (by decide)
  have blank : gaps.isBlank = true := by cbv
  have blank' : feed.isBlank = true := by cbv
  obtain ⟨-, habsent, hnothing, -⟩ := hlines gaps blank
  obtain ⟨hparse, -, -, hrecorded⟩ := hlines feed blank'
  refine ⟨blank, habsent.mpr hgaps, (hnothing hgaps).1 loneStart, hruns readings loneStart ?_,
    blank', hparse, fun hsame => ?_⟩
  · intro text hm htext
    have htexts : text = gaps ∨ text = "cd /" := by simpa [readings] using hm
    rcases htexts with rfl | rfl
    · exact hgaps
    · have hnot : Bytes.isBlank "cd /" = false := by cbv
      rw [hnot] at htext
      cases htext
  · have hfeed := (hrecorded loneStart rfl).mp hsame 12 (by decide)
    exact absurd hfeed (by decide)

end Session

end CommandShell
