import CommandShell.Proofs.QuotedWord

/-! Lexing a sequence of tokens with blanks between them, one token at a time. -/
namespace CommandShell.Line

/-- A word written in quotes, and its lexemes. -/
def Spells (text : Bytes) (xs : List Lexeme) : Prop :=
  ∃ body, text = 39 :: body ++ [39] ∧ Spelled body xs

/-- The lexemes of a token, given those of words. -/
def tokenLexemes (parts : Bytes → List Lexeme) (sp : Bool) : Token → List Spaced
  | .word s => unbroken sp (parts s)
  | .operator op => [⟨sp, .operator op⟩]
  | .errors => [⟨sp, .bare "2" .number⟩, ⟨false, .operator .great⟩]

/-- The end of a text, or a blank. -/
def BreaksWord (rest : Bytes) : Prop := rest = [] ∨ ∃ s, rest = 32 :: s

theorem breaksWord_blankText (spell : Bytes → Bytes) (tokens : List Token) :
    BreaksWord (blankText spell tokens) := by
  cases tokens with
  | nil => exact .inl rfl
  | cons token tokens => exact .inr ⟨_, rfl⟩

theorem scanOperator_text (op : Operator) {rest : Bytes} (h : BreaksWord rest) :
    scanOperator (marks false (operatorText op ++ rest)) = some (op, marks false rest) := by
  rcases h with rfl | ⟨s, rfl⟩ <;> cases op <;> rfl

/-- A digit right in front of a redirection operator is a lexeme of its own. -/
theorem scan_digit (w sp : Bool) {d b : UInt8} {rest after : List Mark} {op : Operator}
    (hd : d = 48 ∨ d = 49 ∨ d = 50) (hb : b = 60 ∨ b = 62)
    (hop : scanOperator (.byte b :: rest) = some (op, after)) :
    scan w sp (.byte d :: .byte b :: rest) =
      (scan false false after).map
        ([⟨sp, .bare [d] .number⟩, ⟨false, .operator op⟩] ++ ·) := by
  have hbare : scanBare (.byte d :: .byte b :: rest) = ([d], .number, .byte b :: rest) := by
    rcases hd with rfl | rfl | rfl <;> rcases hb with rfl | rfl <;> rfl
  have hending : bareEnding [d] .number = .number := by rcases hd with rfl | rfl | rfl <;> rfl
  have hstart : isBlank d = false ∧ d ≠ 10 ∧ d ≠ 35 ∧ d ≠ 39 ∧ d ≠ 34 ∧ d ≠ 96 ∧ d ≠ 36 ∧
      isOperatorStart d = false := by
    rcases hd with rfl | rfl | rfl <;> decide
  obtain ⟨hblank, h10, h35, h39, h34, h96, h36, hstart⟩ := hstart
  rw [scan_bare w sp (by simp [hblank]) h10 (by simp [h35]) h39 h34 h96 h36 (by simp [hstart]) hbare,
    hending]
  change (scan false false (.byte b :: rest)).map _ = _
  rw [scan_operator false false hop, Option.map_map]
  rfl

/-- A token is read on its own. `o` is what is read of the rest, if anything is. -/
theorem scan_token {spell : Bytes → Bytes} {parts : Bytes → List Lexeme} {rest : Bytes}
    {o : Option (List Spaced)} (hrest : ∀ w, scan w false (marks false rest) = o)
    (hbreak : BreaksWord rest) {token : Token}
    (hword : ∀ s, token = .word s → Spells (spell s) (parts s)) (w sp : Bool) :
    scan w sp (marks false (token.text spell ++ rest)) =
      o.map (tokenLexemes parts sp token ++ ·) := by
  cases token with
  | word s =>
    obtain ⟨body, htext, hs⟩ := hword s rfl
    have hmarks : marks false (Token.text spell (.word s) ++ rest) =
        .byte 39 :: marks false (body ++ 39 :: rest) := by
      simp [Token.text, htext, marks]
    rw [hmarks, hs.scan, hrest]
    rfl
  | operator op =>
    rw [Token.text, scan_operator w sp (scanOperator_text op hbreak), hrest]
    rfl
  | errors =>
    have hmarks : marks false (Token.text spell .errors ++ rest) =
        .byte 50 :: .byte 62 :: marks false rest := rfl
    have hgreat : scanOperator (.byte 62 :: marks false rest) = some (.great, marks false rest) :=
      scanOperator_text .great hbreak
    rw [hmarks, scan_digit w sp (.inr (.inr rfl)) (.inr rfl) hgreat, hrest]
    rfl

theorem scan_blankText_cons (spell : Bytes → Bytes) (token : Token) (tokens : List Token)
    (w sp : Bool) : scan w sp (marks false (blankText spell (token :: tokens))) =
      scan w true (marks false (token.text spell ++ blankText spell tokens)) := by
  rw [blankText_cons, marks_byte (by decide) (by simp) (by simp) (by simp)]
  exact scan_blank w sp rfl

/-- The lexemes of tokens that all can be read. -/
theorem scan_blankText {spell : Bytes → Bytes} {parts : Bytes → List Lexeme} {tokens : List Token}
    (hwords : ∀ s, .word s ∈ tokens → Spells (spell s) (parts s)) (w sp : Bool) :
    scan w sp (marks false (blankText spell tokens)) =
      some (tokens.flatMap (tokenLexemes parts true)) := by
  induction tokens generalizing w sp with
  | nil => exact scan.eq_1 w sp
  | cons token tokens ih =>
    have hrest (w : Bool) := ih (fun s hs => hwords s (List.mem_cons_of_mem _ hs)) w false
    rw [scan_blankText_cons, scan_token hrest (breaksWord_blankText spell tokens)
      (fun s hs => hwords s (hs ▸ List.mem_cons_self))]
    rfl

/-- One word with U+0080 spoils the text. -/
theorem scan_tokensText_of_closer {tokens : List Token}
    (hwords : ∀ s, .word s ∈ tokens → Writable s) {s : Bytes} (hs : .word s ∈ tokens)
    (closer : [0xC2, 0x80] <:+: s) (w sp : Bool) :
    scan w sp (marks false (tokensText quoted tokens)) = none := by
  induction tokens generalizing w sp with
  | nil => simp at hs
  | cons token tokens ih =>
    by_cases hbad : ∃ s, token = .word s ∧ [0xC2, 0x80] <:+: s
    · obtain ⟨s, rfl, hcloser⟩ := hbad
      have hplain := hwords s List.mem_cons_self
      have htext : marks false (tokensText quoted (.word s :: tokens)) =
          .byte 39 :: marks false (quotedBody s ++ 39 :: blankText quoted tokens) := by
        simp [tokensText, Token.text, quoted_eq, marks]
      rw [htext]
      exact scan_quoted_of_closer hplain hcloser w sp _
    · have hrest (w : Bool) : scan w false (marks false (blankText quoted tokens)) = none := by
        rcases List.mem_cons.mp hs with rfl | hs
        · exact absurd ⟨s, rfl, closer⟩ hbad
        · cases tokens with
          | nil => simp at hs
          | cons token' tokens =>
            rw [scan_blankText_cons]
            exact ih (fun s hs => hwords s (List.mem_cons_of_mem _ hs)) hs w true
      obtain ⟨xs, hx⟩ : ∃ xs, ∀ s, token = .word s → Spells (quoted s) xs := by
        cases token with
        | word s =>
          obtain ⟨xs, hx, -⟩ := spelled_quoted (hwords s List.mem_cons_self)
            (fun hc => hbad ⟨s, rfl, hc⟩)
          refine ⟨xs, ?_⟩
          rintro _ ⟨⟩
          exact ⟨_, quoted_eq s, hx⟩
        | operator | errors => exact ⟨[], by simp⟩
      exact scan_token hrest (breaksWord_blankText quoted tokens) hx w sp

theorem isValid_append_break {s rest : Bytes} (h : BreaksWord rest) :
    Utf8.isValid (s ++ rest) = (Utf8.isValid s && Utf8.isValid rest) := by
  rcases h with rfl | ⟨rest, rfl⟩
  · rw [List.append_nil, Utf8.isValid_nil, Bool.and_true]
  · exact Utf8.isValid_append s rest (by decide)

theorem isValid_tokensText {spell : Bytes → Bytes} {tokens : List Token}
    (hwords : ∀ s, .word s ∈ tokens → Utf8.isValid (spell s) = true) :
    Utf8.isValid (tokensText spell tokens) = true := by
  induction tokens with
  | nil => exact Utf8.isValid_nil
  | cons token tokens ih =>
    have htoken : Utf8.isValid (token.text spell) = true := by
      cases token with
      | word s => exact hwords s List.mem_cons_self
      | operator op =>
        change Utf8.isValid (operatorText op) = true
        cases op <;> decide +kernel
      | errors =>
        change Utf8.isValid "2>" = true
        decide +kernel
    have hrest : Utf8.isValid (blankText spell tokens) = true := by
      have htail := ih fun s hs => hwords s (List.mem_cons_of_mem _ hs)
      cases tokens with
      | nil => exact Utf8.isValid_nil
      | cons token' tokens =>
        rw [blankText_cons, Utf8.isValid_ascii _ (by decide)]
        exact htail
    rw [tokensText, isValid_append_break (breaksWord_blankText spell tokens), htoken, hrest]
    rfl

end CommandShell.Line
