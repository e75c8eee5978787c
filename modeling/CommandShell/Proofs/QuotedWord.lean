import CommandShell.Proofs.LexemeStep
import CommandShell.Proofs.Printing

/-! Lexing a word that is written in single quotes, with escaped characters between quoted parts
where quotes cannot hold them. -/
namespace CommandShell.Line

/-- What is read of a text in single quotes. U+0081 brings an escaped line break with it, and right
behind an opening quote only that is read. -/
def heard (opening : Bool) : Bytes → Bytes
  | [] => []
  | 39 :: s => 39 :: heard true s
  | 0xC2 :: 0x81 :: s => (if opening then [92, 10] else [0xC2, 0x81, 92, 10]) ++ heard false s
  | b :: s => b :: heard false s

theorem heard_byte {opening : Bool} {b : UInt8} {s : Bytes} (h39 : b ≠ 39)
    (h81 : b = 0xC2 → ∀ s', s ≠ 0x81 :: s') : heard opening (b :: s) = b :: heard false s := by
  rw [heard] <;> grind

theorem heard_append (opening : Bool) (r s : Bytes) :
    heard opening (r ++ 39 :: s) = heard opening r ++ 39 :: heard true s := by
  fun_induction heard opening r with
  | case1 opening => rfl
  | case2 opening r ih => simp [heard, ih]
  | case3 opening r ih => simp [heard, ih]
  | case4 opening b r h39 h81 ih =>
    rw [List.cons_append, heard_byte h39, ih, List.cons_append]
    rintro rfl s' he
    cases r with
    | nil => cases he
    | cons c r =>
      cases he
      exact h81 r rfl rfl

theorem length_le_heard (opening : Bool) (s : Bytes) : s.length ≤ (heard opening s).length := by
  fun_induction heard opening s with
  | case1 => simp
  | case2 opening s ih => simpa using ih
  | case3 opening s ih =>
    simp only [List.length_cons, List.length_append]
    split <;> simp <;> omega
  | case4 opening b s _ _ ih => simpa using ih

theorem heard_ne_nil (opening : Bool) {s : Bytes} (h : s ≠ []) : heard opening s ≠ [] := by
  intro he
  have hlen := length_le_heard opening s
  rw [he] at hlen
  exact h (List.eq_nil_of_length_eq_zero (Nat.le_zero.mp hlen))

/-- A text in single quotes is read as it is exactly when it has no U+0081. -/
theorem heard_eq_self_iff (opening : Bool) (s : Bytes) :
    heard opening s = s ↔ ¬ [0xC2, 0x81] <:+: s := by
  fun_induction heard opening s with
  | case1 => simp
  | case2 opening s ih => simp [List.infix_cons_iff, List.cons_prefix_cons, ih]
  | case3 opening s ih =>
    have hin : [0xC2, 0x81] <:+: 0xC2 :: 0x81 :: s := (List.prefix_append [0xC2, 0x81] s).isInfix
    refine iff_of_false (fun he => ?_) (fun hn => hn hin)
    cases opening with
    | true => simp at he
    | false =>
      have hlen := congrArg List.length he
      have hle := length_le_heard false s
      simp only [Bool.false_eq_true, if_false, List.length_append, List.length_cons,
        List.length_nil] at hlen
      omega
  | case4 opening b s h39 h81 ih =>
    have hfirst : ¬ [0xC2, 0x81] <+: b :: s := by
      rintro ⟨s', he⟩
      cases he
      exact h81 s' rfl rfl
    simp [List.infix_cons_iff, hfirst, ih]

/-- The bytes a mark adds to a text in single quotes. -/
def Mark.heard : Mark → Bytes
  | .byte b => [b]
  | .joint => [92, 10]
  | .joiner => [0xC2, 0x81, 92, 10]
  | .closer => [0xC2, 0x80]
  | .bad => []

theorem marks_heard {ab : Bool} {r : Bytes} (quote : 39 ∉ r) (nul : 0 ∉ r) (cr : 13 ∉ r) :
    (marks ab r).flatMap Mark.heard = heard false r := by
  fun_induction marks ab r with
  | case1 => rfl
  | case2 => simp at nul
  | case3 | case6 | case7 => simp at cr
  | case4 s ih =>
    rw [List.flatMap_cons, ih (by simpa using quote) (by simpa using nul) (by simpa using cr)]
    simp [Mark.heard, heard]
  | case5 ab s hab ih =>
    have h := ih (by simpa using quote) (by simpa using nul) (by simpa using cr)
    simp [Mark.heard, heard, h]
  | case8 ab s ih | case9 ab s ih =>
    have h := ih (by simpa using quote) (by simpa using nul) (by simpa using cr)
    simp [Mark.heard, heard, h]
  | case10 ab b s _ _ _ _ _ h81 ih =>
    rw [List.flatMap_cons, ih (by grind) (by grind) (by grind), heard_byte (by grind) (by grind)]
    rfl

private theorem marks_joiner {ab : Bool} {r : Bytes} {ms : List Mark} (nul : 0 ∉ r) (cr : 13 ∉ r)
    (h : marks ab r = .joiner :: ms) : ∃ s, r = 0xC2 :: 0x81 :: s := by
  revert h
  fun_cases marks ab r <;> simp_all

theorem behindQuote_heard {r : Bytes} (quote : 39 ∉ r) (nul : 0 ∉ r) (cr : 13 ∉ r) :
    (behindQuote (marks false r)).flatMap Mark.heard = heard true r := by
  have h := @marks_heard false r quote nul cr
  fun_cases heard true r with
  | case1 => rfl
  | case2 s => simp at quote
  | case3 s =>
    have hs := @marks_heard false s (by simpa using quote) (by simpa using nul) (by simpa using cr)
    simp [marks, behindQuote, Mark.heard, hs]
  | case4 b s h39 h81 =>
    have hsame : behindQuote (marks false (b :: s)) = marks false (b :: s) := by
      unfold behindQuote
      split
      · next he =>
        obtain ⟨s', hs⟩ := marks_joiner nul cr he
        cases hs
        exact absurd rfl (h81 s' rfl)
      · rfl
    rw [hsame, h, heard_byte h39 (by grind)]

/-! One pair of single quotes. -/

theorem scanSingle_run {ms : List Mark} (rest : List Mark) (quote : .byte 39 ∉ ms)
    (closer : .closer ∉ ms) (bad : .bad ∉ ms) :
    scanSingle (ms ++ .byte 39 :: rest) = some (ms.flatMap Mark.heard, rest) := by
  induction ms with
  | nil => rfl
  | cons m ms ih =>
    simp only [List.mem_cons, not_or] at quote closer bad
    have h := ih quote.2 closer.2 bad.2
    cases m with
    | byte b =>
      have hb : b ≠ 39 := fun he => quote.1 (he ▸ rfl)
      simp [scanSingle, hb, h, Mark.heard]
    | joint | joiner => simp [scanSingle, h, Mark.heard]
    | closer => exact absurd rfl closer.1
    | bad => exact absurd rfl bad.1

theorem scanSingle_closer {ms : List Mark} (rest : List Mark) (quote : .byte 39 ∉ ms)
    (closer : .closer ∈ ms) : scanSingle (ms ++ rest) = none := by
  induction ms with
  | nil => simp at closer
  | cons m ms ih =>
    simp only [List.mem_cons, not_or] at quote closer
    cases m with
    | byte b =>
      have hb : b ≠ 39 := fun he => quote.1 (he ▸ rfl)
      simp [scanSingle, hb, ih quote.2 (by simpa using closer)]
    | joint | joiner => simp [scanSingle, ih quote.2 (by simpa using closer)]
    | closer | bad => rfl

theorem mem_behindQuote {m : Mark} {ms : List Mark} (hm : m ≠ .joint) (h : m ∈ behindQuote ms) :
    m ∈ ms := by
  fun_cases behindQuote ms <;> grind [behindQuote]

theorem closer_mem_behindQuote {ms : List Mark} (h : .closer ∈ ms) : .closer ∈ behindQuote ms := by
  fun_cases behindQuote ms <;> grind

/-- A text that a pair of single quotes can hold, up to U+0081. -/
structure Quotable (r : Bytes) : Prop where
  quote : 39 ∉ r
  nul : 0 ∉ r
  cr : 13 ∉ r
  closer : ¬ [0xC2, 0x80] <:+: r

theorem scan_quotable (w sp : Bool) {r : Bytes} (h : Quotable r) (tail : Bytes) :
    scan w sp (.byte 39 :: marks false (r ++ 39 :: tail)) =
      (scan true false (marks false tail)).map (⟨sp, .part (heard true r)⟩ :: ·) := by
  refine scan_singleQuoted w sp ?_
  rw [marks_append tail (by decide) (by simp), behindQuote_append,
    scanSingle_run, behindQuote_heard h.quote h.nul h.cr]
  · exact fun hm => h.quote (byte_mem_marks (mem_behindQuote (by simp) hm))
  · exact fun hm => h.closer (closer_mem_marks (mem_behindQuote (by simp) hm))
  · exact fun hm => bad_not_mem_marks false r (mem_behindQuote (by simp) hm)

/-- The characters that are written behind a backslash between two quoted parts. -/
def escapes : List Bytes := [[39], [0xC2, 0x80], [0xC2, 0x81]]

/-- What stands between the outer quotes of a word, and the lexemes of the word. -/
inductive Spelled : Bytes → List Lexeme → Prop
  | run {r : Bytes} (h : Quotable r) (valid : Utf8.isValid r = true) :
      Spelled r [.part (heard true r)]
  | escape {r e s : Bytes} {xs : List Lexeme} (h : Quotable r) (valid : Utf8.isValid r = true)
      (he : e ∈ escapes) (hs : Spelled s xs) :
      Spelled (r ++ 39 :: 92 :: (e ++ 39 :: s))
        (.part (heard true r) :: .bare (92 :: e) .part :: xs)

/-- Lexemes without white space between them. -/
def unbroken (sp : Bool) : List Lexeme → List Spaced
  | [] => []
  | x :: xs => ⟨sp, x⟩ :: unbroken false xs

/-- An escaped character between two quoted parts. -/
theorem scan_escape (w sp : Bool) {e : Bytes} (he : e ∈ escapes) (tail : Bytes) :
    scan w sp (marks false (92 :: (e ++ 39 :: tail))) =
      (scan false false (.byte 39 :: marks false tail)).map (⟨sp, .bare (92 :: e) .part⟩ :: ·) := by
  have bare {m : Mark} (hscan : scanBare (.byte 92 :: m :: .byte 39 :: marks false tail) =
      (92 :: e, .part, .byte 39 :: marks false tail)) :
      scan w sp (.byte 92 :: m :: .byte 39 :: marks false tail) =
        (scan false false (.byte 39 :: marks false tail)).map
          (⟨sp, .bare (92 :: e) .part⟩ :: ·) := by
    refine scan_bare w sp (by decide) (by decide) (by simp) (by decide) (by decide) (by decide)
      (by decide) (by decide) hscan
  simp only [escapes, List.mem_cons, List.not_mem_nil, or_false] at he
  rcases he with rfl | rfl | rfl
  · exact bare rfl
  · exact bare rfl
  · exact bare rfl

theorem Spelled.scan {s : Bytes} {xs : List Lexeme} (h : Spelled s xs) (w sp : Bool)
    (tail : Bytes) : Line.scan w sp (.byte 39 :: marks false (s ++ 39 :: tail)) =
      (Line.scan true false (marks false tail)).map (unbroken sp xs ++ ·) := by
  induction h generalizing w sp with
  | run h _ => exact scan_quotable w sp h tail
  | @escape r e s xs h _ he hs ih =>
    rw [List.append_assoc, List.cons_append, scan_quotable w sp h]
    rw [List.cons_append, List.append_assoc, List.cons_append, scan_escape _ _ he, ih]
    simp [Option.map_map, Function.comp_def, unbroken]

theorem Spelled.isValid {s : Bytes} {xs : List Lexeme} (h : Spelled s xs) :
    Utf8.isValid s = true := by
  induction h with
  | run _ valid => exact valid
  | @escape r e s xs _ valid he _ ih =>
    have hquote : Utf8.startsRune 39 = true := by decide
    have hvalid : Utf8.isValid e = true := by
      simp only [escapes, List.mem_cons, List.not_mem_nil, or_false] at he
      rcases he with rfl | rfl | rfl <;> decide +kernel
    rw [Utf8.isValid_append _ _ hquote, Utf8.isValid_ascii _ (by decide),
      Utf8.isValid_ascii _ (by decide), Utf8.isValid_append _ _ hquote,
      Utf8.isValid_ascii _ (by decide), valid, hvalid, ih]
    rfl

/-- The lexemes of a word: a quoted part, and more parts behind it. -/
def WordParts (xs : List Lexeme) : Prop :=
  ∃ first more, xs = .part first :: more ∧ ∀ x ∈ more, State.isWord x = true

theorem Spelled.parts {s : Bytes} {xs : List Lexeme} (h : Spelled s xs) : WordParts xs := by
  induction h with
  | run => exact ⟨_, [], rfl, by simp⟩
  | escape _ _ _ _ ih =>
    obtain ⟨first, more, rfl, hmore⟩ := ih
    refine ⟨_, _, rfl, ?_⟩
    intro x hx
    simp only [List.mem_cons] at hx
    rcases hx with rfl | rfl | hx
    · rfl
    · rfl
    · exact hmore x hx

/-- The word that lexemes without white space make. -/
def wordOf (xs : List Lexeme) : Bytes := xs.flatMap Lexeme.value

theorem value_escape {e : Bytes} (he : e ∈ escapes) : (Lexeme.bare (92 :: e) .part).value = e := by
  simp only [escapes, List.mem_cons, List.not_mem_nil, or_false] at he
  rcases he with rfl | rfl | rfl <;> rfl

/-- A text that can stand in a line. -/
structure Writable (s : Bytes) : Prop where
  valid : Utf8.isValid s = true
  nul : 0 ∉ s
  cr : 13 ∉ s

theorem Writable.split {r s : Bytes} {c : UInt8} (hc : Utf8.startsRune c = true)
    (h : Writable (r ++ c :: s)) : Writable r ∧ Writable (c :: s) := by
  have hv := h.valid
  rw [Utf8.isValid_append r s hc, Bool.and_eq_true] at hv
  have hn := h.nul
  have hcr := h.cr
  simp only [List.mem_append, not_or] at hn hcr
  exact ⟨⟨hv.1, hn.1, hcr.1⟩, ⟨hv.2, hn.2, hcr.2⟩⟩

theorem Writable.tail {s : Bytes} {c : UInt8} (hc : c < 0x80) (h : Writable (c :: s)) :
    Writable s := by
  have hv := h.valid
  rw [Utf8.isValid_ascii s hc] at hv
  exact ⟨hv, fun hm => h.nul (List.mem_cons_of_mem _ hm),
    fun hm => h.cr (List.mem_cons_of_mem _ hm)⟩

/-- A text falls into runs without single quotes. -/
@[elab_as_elim]
theorem quote_induction {motive : Bytes → Prop} (s : Bytes) (run : ∀ r, 39 ∉ r → motive r)
    (split : ∀ r s, 39 ∉ r → motive s → motive (r ++ 39 :: s)) : motive s := by
  by_cases hq : 39 ∈ s
  · obtain ⟨r, s', he, hr⟩ := List.eq_append_cons_of_mem hq
    rw [he]
    exact split r s' hr (quote_induction s' run split)
  · exact run s hq
termination_by s.length
decreasing_by rw [he]; simp; omega

/-- What stands between the outer quotes of a quoted text. -/
def quotedBody (s : Bytes) : Bytes := s.flatMap fun b => if b = 39 then "'\\''" else [b]

theorem quoted_eq (s : Bytes) : quoted s = 39 :: quotedBody s ++ [39] := rfl

theorem quotedBody_of_not_mem {r : Bytes} (hr : 39 ∉ r) : quotedBody r = r := by
  induction r with
  | nil => rfl
  | cons b r ih =>
    simp only [List.mem_cons, not_or] at hr
    rw [quotedBody, List.flatMap_cons, if_neg (Ne.symm hr.1)]
    exact congrArg (b :: ·) (ih hr.2)

theorem quotedBody_split {r : Bytes} (hr : 39 ∉ r) (s : Bytes) :
    quotedBody (r ++ 39 :: s) = r ++ 39 :: 92 :: ([39] ++ 39 :: quotedBody s) := by
  rw [quotedBody, List.flatMap_append, ← quotedBody, quotedBody_of_not_mem hr]
  rfl

theorem isValid_quotedBody (s : Bytes) : Utf8.isValid (quotedBody s) = Utf8.isValid s := by
  have hquote : Utf8.startsRune 39 = true := by decide
  induction s using quote_induction with
  | run r hr => rw [quotedBody_of_not_mem hr]
  | split r s hr ih =>
    rw [quotedBody_split hr, Utf8.isValid_append _ _ hquote, Utf8.isValid_append _ _ hquote,
      List.singleton_append]
    simp only [Utf8.isValid_ascii _ (by decide : (39 : UInt8) < 0x80),
      Utf8.isValid_ascii _ (by decide : (92 : UInt8) < 0x80), ih]

/-- Quoting spells what is heard of a text. -/
theorem spelled_quoted {s : Bytes} (h : Writable s) (closer : ¬ [0xC2, 0x80] <:+: s) :
    ∃ xs, Spelled (quotedBody s) xs ∧ wordOf xs = heard true s := by
  induction s using quote_induction with
  | run r hr =>
    rw [quotedBody_of_not_mem hr]
    refine ⟨_, .run ⟨hr, h.nul, h.cr, closer⟩ h.valid, ?_⟩
    simp [wordOf, Lexeme.value]
  | split r s hr ih =>
    obtain ⟨hpr, hps⟩ := h.split (by decide)
    have hcr : ¬ [0xC2, 0x80] <:+: r := fun hin =>
      closer (hin.trans (List.prefix_append ..).isInfix)
    have hcs : ¬ [0xC2, 0x80] <:+: s := fun hin =>
      closer (hin.trans ((List.suffix_cons ..).trans (List.suffix_append ..)).isInfix)
    obtain ⟨xs, hx, hv⟩ := ih (hps.tail (by decide)) hcs
    rw [quotedBody_split hr]
    refine ⟨_, .escape ⟨hr, hpr.nul, hpr.cr, hcr⟩ hpr.valid (by decide) hx, ?_⟩
    rw [heard_append, ← hv]
    rfl

theorem closer_mem_of_holds {ab : Bool} {s : Bytes} (h : [0xC2, 0x80] <:+: s) :
    .closer ∈ marks ab s := by
  fun_induction marks ab s with
  | case10 ab b s _ _ _ _ h80 _ ih =>
    rcases List.infix_cons_iff.mp h with ⟨s', he⟩ | hin
    · cases he
      exact absurd rfl (h80 s' rfl)
    · exact List.mem_cons_of_mem _ (ih hin)
  | _ => simp_all [List.infix_cons_iff, List.cons_prefix_cons]

/-- Two bytes in a row that are not the byte of a cut lie on one side of it. -/
theorem infix_of_infix_append {x y c : UInt8} {r s : Bytes} (hx : x ≠ c) (hy : y ≠ c)
    (h : [x, y] <:+: r ++ c :: s) : [x, y] <:+: r ∨ [x, y] <:+: s := by
  induction r with
  | nil =>
    rcases List.infix_cons_iff.mp h with hp | hi
    · exact absurd (List.cons_prefix_cons.mp hp).1 hx
    · exact .inr hi
  | cons b r ih =>
    rcases List.infix_cons_iff.mp h with hp | hi
    · obtain ⟨rfl, hsecond⟩ := List.cons_prefix_cons.mp hp
      cases r with
      | nil => exact absurd (List.cons_prefix_cons.mp hsecond).1 hy
      | cons d r =>
        obtain ⟨rfl, -⟩ := List.cons_prefix_cons.mp hsecond
        exact .inl (List.prefix_append [x, y] r).isInfix
    · exact (ih hi).imp_left fun hr => hr.trans (List.suffix_cons ..).isInfix

/-- A text with U+0080 does not get to its closing quote. -/
theorem scan_unquotable (w sp : Bool) {r : Bytes} (quote : 39 ∉ r) (closer : [0xC2, 0x80] <:+: r)
    (tail : Bytes) : scan w sp (.byte 39 :: marks false (r ++ 39 :: tail)) = none := by
  refine scan_singleQuoted_none w sp ?_
  rw [marks_append tail (by decide) (by simp), behindQuote_append]
  refine scanSingle_closer _ ?_ (closer_mem_behindQuote (closer_mem_of_holds closer))
  exact fun hm => quote (byte_mem_marks (mem_behindQuote (by simp) hm))

theorem scan_quoted_of_closer {s : Bytes} (h : Writable s) (closer : [0xC2, 0x80] <:+: s)
    (w sp : Bool) (tail : Bytes) :
    scan w sp (.byte 39 :: marks false (quotedBody s ++ 39 :: tail)) = none := by
  induction s using quote_induction generalizing w sp with
  | run r hr =>
    rw [quotedBody_of_not_mem hr]
    exact scan_unquotable w sp hr closer tail
  | split r s hr ih =>
    obtain ⟨hpr, hps⟩ := h.split (by decide)
    rw [quotedBody_split hr, List.append_assoc, List.cons_append]
    by_cases hcr : [0xC2, 0x80] <:+: r
    · exact scan_unquotable w sp hr hcr _
    · have hcs := (infix_of_infix_append (by decide) (by decide) closer).resolve_left hcr
      have hesc := scan_escape true false (e := [39]) (by decide) (quotedBody s ++ 39 :: tail)
      rw [ih (hps.tail (by decide)) hcs] at hesc
      rw [scan_quotable w sp ⟨hr, hpr.nul, hpr.cr, hcr⟩]
      exact congrArg (Option.map _) hesc

theorem Writable.split_escape {r e s : Bytes} (he : e ∈ escapes) (h : Writable (r ++ (e ++ s))) :
    Writable r ∧ Writable s := by
  have pair {b : UInt8} (hb : 0x80 ≤ b ∧ b ≤ 0xBF) (h : Writable (0xC2 :: b :: s)) :
      Writable s := by
    have hv := h.valid
    rw [Utf8.isValid_pair s (by decide) hb] at hv
    exact ⟨hv, fun hm => h.nul (by simp [hm]), fun hm => h.cr (by simp [hm])⟩
  simp only [escapes, List.mem_cons, List.not_mem_nil, or_false] at he
  rcases he with rfl | rfl | rfl
  · obtain ⟨hr, hs⟩ := Writable.split (by decide) h
    exact ⟨hr, hs.tail (by decide)⟩
  · obtain ⟨hr, hs⟩ := Writable.split (by decide) h
    exact ⟨hr, pair (by decide) hs⟩
  · obtain ⟨hr, hs⟩ := Writable.split (by decide) h
    exact ⟨hr, pair (by decide) hs⟩

/-- A text is free of the characters that must be escaped, or it has a first one. -/
theorem first_escape (s : Bytes) : (∀ e ∈ escapes, ¬ e <:+: s) ∨
    ∃ r e s', s = r ++ (e ++ s') ∧ e ∈ escapes ∧ ∀ e ∈ escapes, ¬ e <:+: r := by
  induction s with
  | nil => exact .inl (by decide)
  | cons b s ih =>
    by_cases hfirst : ∃ e ∈ escapes, e <+: b :: s
    · obtain ⟨e, he, s', hs⟩ := hfirst
      exact .inr ⟨[], e, s', hs.symm, he, by decide⟩
    · have hfirst : ∀ e ∈ escapes, ¬ e <+: b :: s := fun e he hp => hfirst ⟨e, he, hp⟩
      rcases ih with hfree | ⟨r, e, s', rfl, he, hr⟩
      · refine .inl fun e he hin => ?_
        exact (List.infix_cons_iff.mp hin).elim (hfirst e he) (hfree e he)
      · refine .inr ⟨b :: r, e, s', rfl, he, fun e' he' hin => ?_⟩
        refine (List.infix_cons_iff.mp hin).elim (fun hp => ?_) (hr e' he')
        exact hfirst e' he' (hp.trans (List.prefix_append (b :: r) (e ++ s')))

/-- Every text can be spelled. -/
theorem exists_spelled {s : Bytes} (h : Writable s) :
    ∃ body xs, Spelled body xs ∧ wordOf xs = s := by
  have quotable {r : Bytes} (hp : Writable r) (hr : ∀ e ∈ escapes, ¬ e <:+: r) :
      Quotable r ∧ heard true r = r := by
    have hquote : 39 ∉ r := by
      intro hm
      obtain ⟨u, v, rfl⟩ := List.append_of_mem hm
      exact hr [39] (by decide) ⟨u, v, by simp⟩
    exact ⟨⟨hquote, hp.nul, hp.cr, hr _ (by decide)⟩,
      (heard_eq_self_iff true r).mpr (hr _ (by decide))⟩
  rcases first_escape s with hfree | ⟨r, e, s', rfl, he, hr⟩
  · obtain ⟨hq, hheard⟩ := quotable h hfree
    refine ⟨s, _, .run hq h.valid, ?_⟩
    simp [wordOf, Lexeme.value, hheard]
  · have hsplit := h.split_escape he
    obtain ⟨hq, hheard⟩ := quotable hsplit.1 hr
    obtain ⟨body, xs, hs, hv⟩ := exists_spelled hsplit.2
    refine ⟨_, _, .escape hq hsplit.1.valid he hs, ?_⟩
    simp only [wordOf, List.flatMap_cons, value_escape he] at hv ⊢
    rw [hv, Lexeme.value, hheard]
termination_by s.length
decreasing_by
  have hlen : 0 < e.length := by
    simp only [escapes, List.mem_cons, List.not_mem_nil, or_false] at he
    rcases he with rfl | rfl | rfl <;> decide
  subst_vars
  simp only [List.length_append]
  omega

end CommandShell.Line
