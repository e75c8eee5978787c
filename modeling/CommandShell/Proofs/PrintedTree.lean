import CommandShell.Proofs.Respelling
import CommandShell.Proofs.TokenRun

/-! Reading back what was written. A canonical tree is read back from its text unless a word holds
one of the two control characters that the lexer takes for marks of its own; another spelling of the
words reaches those trees too, and no two canonical trees have one text. -/
namespace CommandShell

theorem Redirections.word_mem_tokens {files : Redirections} {s : Bytes} :
    .word s ∈ files.tokens ↔ s ∈ files.texts ∧ s ≠ [] := by
  have target {op : Token} {x : Bytes} (hop : op ≠ .word s) :
      .word s ∈ targetTokens op x ↔ s = x ∧ s ≠ [] := by
    cases x with
    | nil => simp [targetTokens]
    | cons b x =>
      have hop' : ¬ Token.word s = op := fun he => hop he.symm
      simp only [targetTokens, List.isEmpty_cons, Bool.false_eq_true, if_false, List.mem_cons,
        List.not_mem_nil, or_false, hop', false_or, Token.word.injEq]
      exact ⟨fun he => ⟨he, by simp [he]⟩, And.left⟩
  simp only [tokens, List.mem_append, target (by simp : Token.operator _ ≠ .word s),
    target (by simp : Token.errors ≠ .word s), texts, List.mem_cons, List.not_mem_nil, or_false,
    ← or_and_right, or_assoc]

namespace Tree

theorem mem_texts_of_mem_tokens {t : Tree} {s : Bytes} (h : .word s ∈ t.tokens) : s ∈ t.texts := by
  induction t with
  | absent => simp [tokens] at h
  | node kind argv files l r ihl ihr =>
    simp only [texts, List.mem_append]
    cases kind with
    | plain =>
      rcases List.mem_append.mp h with h | h
      · simp only [List.mem_map, Token.word.injEq, exists_eq_right] at h
        exact .inl (.inl (.inl h))
      · exact .inl (.inl (.inr (Redirections.word_mem_tokens.mp h).1))
    | subshell =>
      simp only [tokens, List.cons_append, List.mem_cons, List.mem_append, reduceCtorEq, false_or]
        at h
      rcases h with h | h
      · exact .inl (.inr (ihl h))
      · exact .inl (.inl (.inr (Redirections.word_mem_tokens.mp h).1))
    | sequence | and | or | pipe | unknown =>
      simp only [tokens, List.mem_append, List.mem_cons, reduceCtorEq, false_or] at h
      rcases h with h | h
      · exact .inl (.inr (ihl h))
      · exact .inr (ihr h)

theorem Fits.mem_tokens {rank : Rank} {t : Tree} (h : Fits rank t) {s : Bytes} (hs : s ∈ t.texts)
    (hne : s ≠ []) : .word s ∈ t.tokens := by
  have between {kind : Kind} {l r : Tree} (hs : s ∈ (binary kind l r).texts) :
      s ∈ l.texts ∨ s ∈ r.texts := by
    simpa [binary, texts, Redirections.texts, Redirections.none, hne] using hs
  induction h with
  | plain w ws files =>
    simp only [Tree.plain, texts, List.append_nil, List.mem_append] at hs
    refine List.mem_append.mpr (hs.imp (fun h => ?_) fun h => ?_)
    · exact List.mem_map.mpr ⟨s, h, rfl⟩
    · exact Redirections.word_mem_tokens.mpr ⟨h, hne⟩
  | group files _ ih =>
    simp only [Tree.subshell, texts, List.append_nil, List.nil_append, List.mem_append] at hs
    simp only [Tree.subshell, tokens, List.cons_append, List.mem_cons, List.mem_append,
      reduceCtorEq, false_or]
    exact hs.symm.imp ih fun h => Redirections.word_mem_tokens.mpr ⟨h, hne⟩
  | stage _ ih | pipeline _ ih | chain _ ih => exact ih hs
  | pipe _ _ ihl ihr | sequence _ _ ihl ihr =>
    exact List.mem_append.mpr ((between hs).imp ihl fun h => List.mem_cons_of_mem _ (ihr h))
  | connect hk _ _ ihl ihr =>
    have hmem := (between hs).imp ihl ihr
    rcases hk with rfl | rfl
    · exact List.mem_append.mpr (hmem.imp_right (List.mem_cons_of_mem _))
    · exact List.mem_append.mpr (hmem.imp_right (List.mem_cons_of_mem _))

theorem mapTexts_id (t : Tree) : t.mapTexts id = t := by
  induction t with
  | absent => rfl
  | node kind argv files l r ihl ihr => simp [mapTexts, Redirections.mapTexts, ihl, ihr]

theorem mapTexts_eq_iff {f g : Bytes → Bytes} {t : Tree} :
    t.mapTexts f = t.mapTexts g ↔ ∀ s ∈ t.texts, f s = g s := by
  induction t with
  | absent => simp [mapTexts, texts]
  | node kind argv files l r ihl ihr =>
    simp [mapTexts, texts, Redirections.mapTexts, Redirections.texts, ihl, ihr, or_imp,
      forall_and, and_assoc]

theorem texts_mapTexts (f : Bytes → Bytes) (t : Tree) : (t.mapTexts f).texts = t.texts.map f := by
  induction t with
  | absent => rfl
  | node kind argv files l r ihl ihr =>
    simp [mapTexts, texts, Redirections.mapTexts, Redirections.texts, ihl, ihr]

theorem mapTexts_injective {f : Bytes → Bytes} (hf : ∀ s s', f s = f s' → s = s') {t u : Tree}
    (h : t.mapTexts f = u.mapTexts f) : t = u := by
  induction t generalizing u with
  | absent =>
    cases u with
    | absent => rfl
    | node => cases h
  | node kind argv files l r ihl ihr =>
    cases u with
    | absent => cases h
    | node kind' argv' files' l' r' =>
      obtain ⟨input, output, append, error⟩ := files
      obtain ⟨input', output', append', error'⟩ := files'
      simp only [mapTexts, Redirections.mapTexts, node.injEq, Redirections.mk.injEq] at h
      obtain ⟨rfl, hargv, ⟨hi, ho, ha, he⟩, hl, hr⟩ := h
      rw [(List.map_inj_right hf).mp hargv, hf _ _ hi, hf _ _ ho, hf _ _ ha, hf _ _ he, ihl hl,
        ihr hr]

end Tree

namespace Line
open CommandShell.Tree (Fits Rank Canonical canonical_iff_fits)

theorem lexemes_tokensText {spell : Bytes → Bytes} {parts : Bytes → List Lexeme} {token : Token}
    {tokens : List Token} (hwords : ∀ s, .word s ∈ token :: tokens → Spells (spell s) (parts s)) :
    lexemes (tokensText spell (token :: tokens)) =
      some (tokenLexemes parts false token ++ runLexemes parts tokens) := by
  have hvalid : Utf8.isValid (tokensText spell (token :: tokens)) = true := by
    refine isValid_tokensText fun s hs => ?_
    obtain ⟨body, htext, hspelled⟩ := hwords s hs
    rw [htext, Utf8.isValid_append _ _ (by decide), Utf8.isValid_ascii _ (by decide),
      Utf8.isValid_ascii _ (by decide), hspelled.isValid, Utf8.isValid_nil]
    rfl
  have hrest (w : Bool) : scan w false (marks false (blankText spell tokens)) =
      some (runLexemes parts tokens) :=
    scan_blankText (fun s hs => hwords s (List.mem_cons_of_mem _ hs)) w false
  rw [lexemes_eq_scan, lineMarks, if_pos hvalid]
  exact scan_token hrest (breaksWord_blankText spell tokens)
    (fun s hs => hwords s (hs ▸ List.mem_cons_self)) false false

/-- White space before the first token makes no difference. -/
theorem run_first {parts : Bytes → List Lexeme} {token : Token}
    (hword : ∀ s, token = .word s → WordParts (parts s)) (sp : Bool) (xs : List Spaced) :
    State.run {} (tokenLexemes parts sp token ++ xs) =
      State.run {} (tokenLexemes parts true token ++ xs) := by
  cases token with
  | word s =>
    obtain ⟨first, more, he, -⟩ := hword s rfl
    simp only [tokenLexemes, he]
    rfl
  | operator op => cases op <;> rfl
  | errors => rfl

private theorem exists_choice {α : Type} [Inhabited α] {texts : List Bytes} {p : Bytes → α → Prop}
    (h : ∀ s ∈ texts, ∃ x, p s x) : ∃ f : Bytes → α, ∀ s ∈ texts, p s (f s) := by
  refine Classical.axiomOfChoice (r := fun s x => s ∈ texts → p s x) fun s => ?_
  by_cases hs : s ∈ texts
  · obtain ⟨x, hx⟩ := h s hs
    exact ⟨x, fun _ => hx⟩
  · exact ⟨default, fun h => absurd h hs⟩

/-- A list whose texts are spelled so that they read as `v` tells is read as the list of those
texts. -/
theorem read?_tokensText {t : Tree} {spell v : Bytes → Bytes} (h : Fits .list t)
    (hempty : v [] = []) (hnonempty : ∀ s, s ≠ [] → v s ≠ [])
    (hspell : ∀ s ∈ t.texts, ∃ xs, Spells (spell s) xs ∧ wordOf xs = v s) :
    read? (tokensText spell t.tokens) = some (t.mapTexts v) := by
  obtain ⟨parts, hparts⟩ : ∃ parts : Bytes → List Lexeme, ∀ s ∈ t.texts,
      Spells (spell s) (parts s) ∧ wordOf (parts s) = v s := exists_choice hspell
  have hreads : ∀ s ∈ t.texts, Reads parts v s := by
    intro s hs
    obtain ⟨⟨body, -, hspelled⟩, hvalue⟩ := hparts s hs
    exact ⟨hspelled.parts, hvalue, hnonempty s⟩
  have hstart : ({} : Level).Fresh .list := rfl
  obtain ⟨lv, hrun, hend⟩ := run_tree h hempty hreads hstart []
  obtain ⟨token, tokens, ht, -⟩ := h.print_eq_tokensText
  have hwords (s : Bytes) (hs : .word s ∈ token :: tokens) : s ∈ t.texts :=
    Tree.mem_texts_of_mem_tokens (ht ▸ hs)
  have hlex := lexemes_tokensText fun s hs => (hparts s (hwords s hs)).1
  have hfirst (s : Bytes) (hs : token = .word s) : WordParts (parts s) :=
    (hreads s (hwords s (hs ▸ List.mem_cons_self))).shape
  rw [ht] at hrun ⊢
  refine read?_eq_some_iff.mpr ⟨_, ⟨lv, []⟩, hlex, ?_, Level.tree?_of_endStatement hend⟩
  rw [run_first hfirst false]
  exact hrun

/-- What is read of the text of a tree. -/
theorem read?_print {t : Tree} (h : Fits .list t) (texts : ∀ s ∈ t.texts, Writable s)
    (closer : ∀ s ∈ t.texts, ¬ [0xC2, 0x80] <:+: s) :
    read? t.print = some (t.mapTexts (heard true)) := by
  obtain ⟨token, tokens, ht, hprint⟩ := h.print_eq_tokensText
  rw [hprint, ← ht]
  refine read?_tokensText h rfl (fun s hs => heard_ne_nil true hs) fun s hs => ?_
  obtain ⟨xs, hspelled, hvalue⟩ := spelled_quoted (texts s hs) (closer s hs)
  exact ⟨xs, ⟨_, quoted_eq s, hspelled⟩, hvalue⟩

theorem read?_print_of_closer {t : Tree} (h : Fits .list t) (texts : ∀ s ∈ t.texts, Writable s)
    {s : Bytes} (hs : s ∈ t.texts) (closer : [0xC2, 0x80] <:+: s) : read? t.print = none := by
  obtain ⟨token, tokens, ht, hprint⟩ := h.print_eq_tokensText
  rw [← ht] at hprint
  have hne : s ≠ [] := by
    rintro rfl
    simp at closer
  have hwords (s : Bytes) (hs : .word s ∈ t.tokens) : Writable s :=
    texts s (Tree.mem_texts_of_mem_tokens hs)
  have hvalid : Utf8.isValid t.print = true := by
    rw [hprint]
    refine isValid_tokensText fun s hs => ?_
    rw [quoted_eq, Utf8.isValid_append _ _ (by decide), Utf8.isValid_ascii _ (by decide),
      Utf8.isValid_ascii _ (by decide), isValid_quotedBody, (hwords s hs).valid, Utf8.isValid_nil]
    rfl
  have hlex : lexemes t.print = none := by
    rw [lexemes_eq_scan, lineMarks, if_pos hvalid, hprint]
    exact scan_tokensText_of_closer hwords (h.mem_tokens hs hne) closer false false
  rw [read?, hlex]
  rfl

/-- Some line gives each canonical tree. -/
theorem exists_line {t : Tree} (h : Fits .list t) (texts : ∀ s ∈ t.texts, Writable s) :
    ∃ line, read? line = some t := by
  have htext : ∀ s ∈ t.texts, ∃ text : Bytes, ∃ xs, Spells text xs ∧ wordOf xs = s := by
    intro s hs
    obtain ⟨body, xs, hspelled, hvalue⟩ := exists_spelled (texts s hs)
    exact ⟨_, xs, ⟨body, rfl, hspelled⟩, hvalue⟩
  obtain ⟨spell, hspell⟩ := exists_choice htext
  refine ⟨tokensText spell t.tokens, ?_⟩
  rw [read?_tokensText (v := id) h rfl (fun _ hs => hs) hspell, Tree.mapTexts_id]

/-- Texts that the lexer takes as they are. -/
def Unmarked (s : Bytes) : Prop := ¬ [0xC2, 0x80] <:+: s ∧ ¬ [0xC2, 0x81] <:+: s

theorem read?_print_of_unmarked {t : Tree} (h : Fits .list t) (texts : ∀ s ∈ t.texts, Writable s)
    (unmarked : ∀ s ∈ t.texts, Unmarked s) : read? t.print = some t := by
  have hsame : t.mapTexts (heard true) = t.mapTexts id :=
    Tree.mapTexts_eq_iff.mpr fun s hs => (heard_eq_self_iff true s).mpr (unmarked s hs).2
  rw [read?_print h texts fun s hs => (unmarked s hs).1, hsame, Tree.mapTexts_id]

/-- No two trees have one text. -/
theorem print_injective {t u : Tree} (ht : Fits .list t) (hu : Fits .list u)
    (textst : ∀ s ∈ t.texts, 0 ∉ s ∧ 13 ∉ s) (textsu : ∀ s ∈ u.texts, 0 ∉ s ∧ 13 ∉ s)
    (h : u.print = t.print) : u = t := by
  -- Both trees are read back once their words are respelled.
  have respelled {t : Tree} (ht : Fits .list t) (texts : ∀ s ∈ t.texts, 0 ∉ s ∧ 13 ∉ s) :
      read? (t.print.flatMap respell) = some (t.mapTexts (·.flatMap respell)) := by
    rw [t.print_respell]
    refine read?_print_of_unmarked (ht.mapTexts rfl) ?_ ?_
    · intro s hs
      rw [Tree.texts_mapTexts] at hs
      obtain ⟨s, hmem, rfl⟩ := List.mem_map.mp hs
      refine ⟨isValid_flatMap_respell s, fun hm => ?_, fun hm => ?_⟩
      · rcases mem_flatMap_respell hm with ⟨hm, -⟩ | ⟨hlo, -⟩
        · exact (texts s hmem).1 hm
        · exact absurd hlo (by decide)
      · rcases mem_flatMap_respell hm with ⟨hm, -⟩ | ⟨hlo, -⟩
        · exact (texts s hmem).2 hm
        · exact absurd hlo (by decide)
    · intro s hs
      rw [Tree.texts_mapTexts] at hs
      obtain ⟨s, -, rfl⟩ := List.mem_map.mp hs
      have hlead : 0xC2 ∉ s.flatMap respell := by
        intro hm
        rcases mem_flatMap_respell hm with ⟨-, hlt⟩ | ⟨-, hne⟩
        · exact absurd hlt (by decide)
        · exact hne rfl
      exact ⟨fun hin => hlead (hin.mem (by simp)), fun hin => hlead (hin.mem (by simp))⟩
  have hread := respelled hu textsu
  rw [h, respelled ht textst, Option.some.injEq] at hread
  exact Tree.mapTexts_injective (fun _ _ => flatMap_respell_injective) hread.symm

/-- Parsing undoes printing for a canonical tree exactly if no word or target holds U+0080 or
U+0081. In any case some line gives the tree, and no other canonical tree has its text. -/
theorem parse_print {t : Tree} (h : Canonical t) (texts : ∀ s ∈ t.texts, Writable s) :
    (parse t.print = .ok t ↔ ∀ s ∈ t.texts, Unmarked s) ∧
    (∃ line, parse line = .ok t) ∧
    ∀ u, Canonical u → (∀ s ∈ u.texts, Writable s) → u.print = t.print → u = t := by
  have hfits := canonical_iff_fits.mp h
  refine ⟨?_, ?_, ?_⟩
  · rw [parse_eq_ok_iff]
    constructor
    · intro hread
      have closer : ∀ s ∈ t.texts, ¬ [0xC2, 0x80] <:+: s := by
        intro s hs hin
        rw [read?_print_of_closer hfits texts hs hin] at hread
        cases hread
      rw [read?_print hfits texts closer, Option.some.injEq] at hread
      have hsame : t.mapTexts (heard true) = t.mapTexts id := by rw [hread, Tree.mapTexts_id]
      intro s hs
      exact ⟨closer s hs, (heard_eq_self_iff true s).mp (Tree.mapTexts_eq_iff.mp hsame s hs)⟩
    · exact read?_print_of_unmarked hfits texts
  · obtain ⟨line, hline⟩ := exists_line hfits texts
    exact ⟨line, parse_eq_ok_iff.mpr hline⟩
  · intro u hu textsu hprint
    exact print_injective hfits (canonical_iff_fits.mp hu)
      (fun s hs => ⟨(texts s hs).nul, (texts s hs).cr⟩)
      (fun s hs => ⟨(textsu s hs).nul, (textsu s hs).cr⟩) hprint

example : read? "'a\u0081'" = some (.plain ["a\u0081\\\n"]) := by decide +kernel

theorem parse_print_quote :
    parse "'it'\\''s' 'a b' > 'out' && ( '' ; 'x' 2> '#' )" =
      .ok (.and (.plain ["it's", "a b"] { output := "out" })
        (.subshell (.sequence (.plain [""]) (.plain ["x"] { error := "#" })))) := by
  have h : Fits .list (.and (.plain ["it's", "a b"] { output := "out" })
      (.subshell (.sequence (.plain [""]) (.plain ["x"] { error := "#" })))) :=
    .chain (.connect (.inl rfl) (.pipeline (.stage (.plain ..))) (.stage (.group _
      (.sequence (.chain (.pipeline (.stage (.plain ..))))  (.pipeline (.stage (.plain ..)))))))
  refine (parse_print (canonical_iff_fits.mpr h) ?_).1.mpr ?_
  · intro s hs
    refine ⟨?_, ?_, ?_⟩ <;> revert s
    · exact List.all_eq_true.mp (by decide +kernel)
    · decide
    · decide
  · intro s hs
    refine ⟨?_, ?_⟩ <;> revert s <;> decide

end Line

end CommandShell
