import CommandShell.Proofs.ReadingStep
import CommandShell.Proofs.Utf8

/-! What the lexer makes of the front of a text, one equation for each kind of front. -/
namespace CommandShell.Line

/-- The marks of a whole line; text that is no UTF-8 ends in a bad mark. -/
def lineMarks (line : Bytes) : List Mark :=
  if Utf8.isValid line then marks false line else marks false (Utf8.validPart line) ++ [.bad]

theorem lexemes_eq_scan (line : Bytes) : lexemes line = scan false false (lineMarks line) := rfl

/-- A byte that stands for itself whatever comes before it. -/
theorem marks_byte {ab : Bool} {c : UInt8} {s : Bytes} (h0 : c ≠ 0)
    (h13 : c = 13 → s.head? ≠ some 10)
    (h92 : c = 92 → s.head? ≠ some 10 ∧ ∀ t, s ≠ 13 :: 10 :: t)
    (h194 : c = 0xC2 → s.head? ≠ some 0x80 ∧ s.head? ≠ some 0x81) :
    marks ab (c :: s) = .byte c :: marks (c == 92) s := by
  rw [marks] <;> grind

/-- A text may be cut before a byte that joins with nothing before it. -/
theorem marks_append {ab : Bool} {a : Bytes} (b : Bytes) {c : UInt8}
    (hc : c ∉ [0, 13, 92, 0xC2, 0x80, 0x81])
    (last : c = 10 → a.getLast? ≠ some 92 ∧ a.getLast? ≠ some 13) :
    marks ab (a ++ c :: b) = marks ab a ++ .byte c :: marks false b := by
  have tail {d : UInt8} {s : Bytes}
      (h : c = 10 → (d :: s).getLast? ≠ some 92 ∧ (d :: s).getLast? ≠ some 13) (h10 : c = 10) :
      s.getLast? ≠ some 92 ∧ s.getLast? ≠ some 13 := by
    cases s with
    | nil => simp
    | cons e s => simpa using h h10
  simp only [List.mem_cons, List.not_mem_nil, or_false, not_or] at hc
  obtain ⟨hc0, hc13, hc92, hc194, hc128, hc129⟩ := hc
  fun_induction marks ab a with
  | case1 ab =>
    rw [List.nil_append, marks_byte hc0 (absurd · hc13) (absurd · hc92) (absurd · hc194),
      beq_false_of_ne hc92]
    rfl
  | case2 ab s ih => simpa [marks] using ih (tail last)
  | case3 ab s ih => simpa [marks] using ih (tail last)
  | case4 s ih | case6 s ih =>
    have h := ih (tail last)
    simp only [List.cons_append, marks, if_true] at h ⊢
    rw [h]
  | case5 ab s hab ih =>
    have h := ih (tail (tail last))
    simp [marks, hab, h]
  | case7 ab s hab ih =>
    have h := ih (tail (tail (tail last)))
    simp [marks, hab, h]
  | case8 ab s ih | case9 ab s ih =>
    have h := ih (tail (tail last))
    simp [marks, h]
  | case10 ab d s h0 h13 h10 h1310 h80 h81 ih =>
    have h := ih (tail last)
    rw [List.cons_append, marks_byte h0, h, List.cons_append]
    · rintro rfl
      cases s with
      | nil => exact fun he => (last (by simpa using he)).2 rfl
      | cons e s =>
        rintro ⟨⟩
        exact h13 s rfl rfl
    · rintro rfl
      match s with
      | [] => exact ⟨fun he => (last (by simpa using he)).1 rfl, by simp [hc13]⟩
      | [e] =>
        constructor
        · rintro ⟨⟩
          exact h10 [] rfl rfl
        · rintro t ⟨⟩
          exact (last rfl).2 rfl
      | e :: f :: s =>
        constructor
        · rintro ⟨⟩
          exact h10 (f :: s) rfl rfl
        · rintro t ⟨⟩
          exact h1310 s rfl rfl
    · rintro rfl
      cases s with
      | nil => simpa using ⟨hc128, hc129⟩
      | cons e s =>
        constructor
        · rintro ⟨⟩
          exact h80 s rfl rfl
        · rintro ⟨⟩
          exact h81 s rfl rfl

/-- The marks of a line that is cut before a byte which stands for itself. -/
theorem lineMarks_append {a : Bytes} (b : Bytes) {c : UInt8} (valid : Utf8.isValid a = true)
    (hc : c ∉ [0, 13, 92, 0xC2, 0x80, 0x81]) (ascii : c < 0x80)
    (last : c = 10 → a.getLast? ≠ some 92 ∧ a.getLast? ≠ some 13) :
    lineMarks (a ++ c :: b) = marks false a ++ .byte c :: lineMarks b := by
  have hstart : Utf8.startsRune c = true := by simp [Utf8.startsRune, ascii]
  simp only [lineMarks, Utf8.isValid_append a b hstart, Utf8.validPart_append a b hstart,
    Utf8.isValid_ascii b ascii, Utf8.validPart_ascii b ascii, valid, Bool.true_and, if_true]
  split
  · exact marks_append b hc last
  · rw [marks_append _ hc last, List.append_assoc, List.cons_append]

theorem lineMarks_of_bad {a : Bytes} (b : Bytes) {c : UInt8} (bad : Utf8.isValid a = false)
    (ascii : c < 0x80) : lineMarks (a ++ c :: b) = lineMarks a := by
  have hstart : Utf8.startsRune c = true := by simp [Utf8.startsRune, ascii]
  simp only [lineMarks, Utf8.isValid_append a b hstart, Utf8.validPart_append a b hstart, bad,
    Bool.false_and, Bool.false_eq_true, if_false]

theorem byte_mem_marks {ab : Bool} {s : Bytes} {b : UInt8} (h : .byte b ∈ marks ab s) : b ∈ s := by
  fun_induction marks ab s <;> grind

theorem closer_mem_marks {ab : Bool} {s : Bytes} (h : .closer ∈ marks ab s) :
    [0xC2, 0x80] <:+: s := by
  fun_induction marks ab s with
  | case8 ab s ih => exact (List.prefix_append [0xC2, 0x80] s).isInfix
  | _ => grind [List.infix_cons]

theorem bad_not_mem_marks (ab : Bool) (s : Bytes) : .bad ∉ marks ab s := by
  fun_induction marks ab s <;> simp_all

theorem behindQuote_append (ms : List Mark) (b : UInt8) (rest : List Mark) :
    behindQuote (ms ++ .byte b :: rest) = behindQuote ms ++ .byte b :: rest := by
  cases ms with
  | nil => rfl
  | cons m ms => cases m <;> rfl

/-- An operator consists of one or two operator bytes. -/
theorem scanOperator_bytes {ms after : List Mark} {op : Operator}
    (h : scanOperator ms = some (op, after)) :
    ∃ b tail, ms = .byte b :: tail ∧ isOperatorStart b = true ∧
      (tail = after ∨ ∃ c, tail = .byte c :: after ∧ isOperatorStart c = true) := by
  unfold scanOperator at h
  split at h
  case h_1 | h_13 => cases h
  case h_3 | h_4 | h_10 =>
    cases h
    exact ⟨_, _, rfl, by decide, .inr ⟨_, rfl, by decide⟩⟩
  case h_8 | h_11 =>
    split at h
    · cases h
    · cases h
      exact ⟨_, _, rfl, by decide, .inl rfl⟩
  all_goals
    cases h
    exact ⟨_, _, rfl, by decide, .inl rfl⟩

variable (w sp : Bool) {b : UInt8} {rest after : List Mark}

theorem scan_joint : scan w sp (.joint :: rest) = scan w sp rest := by rw [scan]

theorem scan_joiner : scan w sp (.joiner :: rest) = scan w sp rest := by rw [scan]

theorem scan_closer : scan w sp (.closer :: rest) = some [] := by rw [scan]

theorem scan_blank (hb : isBlank b = true) : scan w sp (.byte b :: rest) = scan w true rest := by
  rw [scan, if_pos hb]

theorem scan_newline : scan w sp (.byte 10 :: rest) =
    (scan false false rest).map (⟨sp, .newline⟩ :: ·) := by
  rw [scan, if_neg (by decide), if_pos rfl]

theorem scan_numberSign (hc : (decide (b = 35) && (sp || !w)) = true) :
    scan w sp (.byte b :: rest) = scan w false (skipComment rest) := by
  obtain rfl : b = 35 := by simp_all
  rw [scan, if_neg (by decide), if_neg (by decide), if_pos hc]

theorem scan_singleQuoted {s : Bytes} (h : scanSingle (behindQuote rest) = some (s, after)) :
    scan w sp (.byte 39 :: rest) = (scan true false after).map (⟨sp, .part s⟩ :: ·) := by
  rw [scan, if_neg (by decide), if_neg (by decide), if_neg (by simp), if_pos rfl]
  split <;> simp_all

theorem scan_singleQuoted_none (h : scanSingle (behindQuote rest) = none) :
    scan w sp (.byte 39 :: rest) = none := by
  rw [scan, if_neg (by decide), if_neg (by decide), if_neg (by simp), if_pos rfl]
  split <;> simp_all

theorem scan_doubleQuoted {raw : Bytes} (h : scanDouble false rest = some (raw, after)) :
    scan w sp (.byte 34 :: rest) =
      (scan true false after).map (⟨sp, .part (unescape true raw)⟩ :: ·) := by
  rw [scan, if_neg (by decide), if_neg (by decide), if_neg (by simp), if_neg (by decide),
    if_pos rfl]
  split <;> simp_all

theorem scan_doubleQuoted_none (h : scanDouble false rest = none) :
    scan w sp (.byte 34 :: rest) = none := by
  rw [scan, if_neg (by decide), if_neg (by decide), if_neg (by simp), if_neg (by decide),
    if_pos rfl]
  split <;> simp_all

theorem scan_dollar (h : ¬ expands rest = true) :
    scan w sp (.byte 36 :: rest) = (scan false false rest).map (⟨sp, .part [36]⟩ :: ·) := by
  rw [scan, if_neg (by decide), if_neg (by decide), if_neg (by simp), if_neg (by decide),
    if_neg (by decide), if_neg (by decide), if_pos rfl, if_neg h]

theorem scan_operator {ms : List Mark} {op : Operator} (h : scanOperator ms = some (op, after)) :
    scan w sp ms = (scan false false after).map (⟨sp, .operator op⟩ :: ·) := by
  obtain ⟨b, tail, rfl, hb, -⟩ := scanOperator_bytes h
  have hne : ¬ isBlank b = true ∧ b ≠ 10 ∧ b ≠ 35 ∧ b ≠ 39 ∧ b ≠ 34 ∧ b ≠ 96 ∧ b ≠ 36 := by
    refine ⟨fun hblank => ?_, ?_, ?_, ?_, ?_, ?_, ?_⟩
    · simp only [isBlank, Bool.or_eq_true, beq_iff_eq] at hblank
      rcases hblank with (rfl | rfl) | rfl <;> exact absurd hb (by decide)
    all_goals
      rintro rfl
      exact absurd hb (by decide)
  obtain ⟨hblank, h10, h35, h39, h34, h96, h36⟩ := hne
  rw [scan, if_neg hblank, if_neg h10, if_neg (by simp [h35]), if_neg h39, if_neg h34, if_neg h96,
    if_neg h36, if_pos hb]
  split <;> simp_all

theorem scan_bare {raw : Bytes} {ending : Ending} (hb : ¬ isBlank b = true) (hn : ¬ b = 10)
    (hc : ¬ (decide (b = 35) && (sp || !w)) = true) (h39 : ¬ b = 39) (h34 : ¬ b = 34)
    (h96 : ¬ b = 96) (h36 : ¬ b = 36) (ho : ¬ isOperatorStart b = true)
    (h : scanBare (.byte b :: rest) = (raw, ending, after)) :
    scan w sp (.byte b :: rest) = (scan (bareEnding raw ending == .word) false after).map
      (⟨sp, .bare raw (bareEnding raw ending)⟩ :: ·) := by
  rw [scan, if_neg hb, if_neg hn, if_neg hc, if_neg h39, if_neg h34, if_neg h96, if_neg h36,
    if_neg ho]
  split
  simp_all

end CommandShell.Line
