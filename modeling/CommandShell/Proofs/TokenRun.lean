import CommandShell.Proofs.ReadingStep
import CommandShell.Proofs.TokenLexing

/-! The reading machine on the tokens of a tree: each subtree is built up in its own place of the
state and leaves the rest alone. -/
namespace CommandShell.Line
open CommandShell.Tree (Fits Rank)

/-- The stage would end as these words or this group with these redirections. -/
def Stage.Holds (s : Stage) (base : Base) (files : Redirections) : Prop :=
  ∃ base' files' focus, s = .reading base' files' focus ∧
    settle base' files' focus = some (base, files)

namespace Stage.Holds
variable {s : Stage} {base : Base} {files : Redirections}

/-- The item in progress ends where a spaced item starts. -/
theorem startItem {x : Lexeme} (h : s.Holds base files) :
    s.word true x = Line.startItem base files x := by
  obtain ⟨base', files', focus, rfl, hs⟩ := h
  cases focus with
  | rest =>
    cases hs
    rfl
  | number | target => cases hs
  | word slot text => simp [Stage.word, hs]

theorem redirect {op : Operator} {slot : Slot} (h : s.Holds base files)
    (hop : redirectionSlot op none = some slot) :
    s.redirect op = some (.reading base files (.target slot)) := by
  obtain ⟨base', files', focus, rfl, hs⟩ := h
  cases focus with
  | number | target => cases hs
  | rest | word => simp [Stage.redirect, hs, hop]

theorem tree?_words {w : Bytes} {ws : List Bytes} (h : s.Holds (.words (w :: ws)) files) :
    s.tree? = some (.plain (w :: ws) files) := by
  obtain ⟨base', files', focus, rfl, hs⟩ := h
  simp [Stage.tree?, hs]

theorem tree?_group {inner : Tree} (h : s.Holds (.group inner) files) :
    s.tree? = some (.subshell inner files) := by
  obtain ⟨base', files', focus, rfl, hs⟩ := h
  simp [Stage.tree?, hs]

theorem argument (argv : List Bytes) (files : Redirections) (text : Bytes) :
    Holds (.reading (.words argv) files (.word .argument text)) (.words (argv ++ [text])) files :=
  ⟨_, _, _, rfl, rfl⟩

theorem target {slot : Slot} {text : Bytes} (base : Base) (files : Redirections)
    (hslot : slot ≠ .argument) (htext : text ≠ []) :
    Holds (.reading base files (.word slot text)) base (setTarget files slot text) := by
  refine ⟨_, _, _, rfl, ?_⟩
  cases slot with
  | argument => exact absurd rfl hslot
  | input | output | append | error => simp [settle, htext]

end Stage.Holds

/-- The state with another stage at its level. -/
def inStage (lv : Level) (outer : List Level) (s : Stage) : State :=
  ⟨{ lv with stage := s }, outer⟩

theorem step_inStage (lv : Level) (outer : List Level) {s s' : Stage} {sp : Bool} {x : Lexeme}
    (hx : State.isWord x = true) (h : s.word sp x = some s') :
    (inStage lv outer s).step ⟨sp, x⟩ = some (inStage lv outer s') := by
  rw [State.step_word _ _ hx, inStage, h]
  rfl

theorem step_inStage_redirect (lv : Level) (outer : List Level) {s s' : Stage} (sp : Bool)
    {op : Operator} (hop : op ∈ [Operator.less, .great, .dgreat]) (h : s.redirect op = some s') :
    (inStage lv outer s).step ⟨sp, .operator op⟩ = some (inStage lv outer s') := by
  rw [State.step_redirect _ _ hop, inStage, h]
  rfl

section Words
variable (lv : Level) (outer : List Level)

/-- The parts of a word grow one text. -/
theorem run_more (base : Base) (files : Redirections) (slot : Slot) {xs : List Lexeme}
    (hx : ∀ x ∈ xs, State.isWord x = true) (text : Bytes) :
    (inStage lv outer (.reading base files (.word slot text))).run (unbroken false xs) =
      some (inStage lv outer (.reading base files (.word slot (text ++ wordOf xs)))) := by
  induction xs generalizing text with
  | nil => simp [unbroken, State.run, wordOf]
  | cons x xs ih =>
    have hword : Stage.word false x (.reading base files (.word slot text)) =
        some (.reading base files (.word slot (text ++ x.value))) := rfl
    rw [unbroken, State.run, step_inStage lv outer (hx x List.mem_cons_self) hword,
      Option.bind_some, ih (fun y hy => hx y (List.mem_cons_of_mem _ hy)), List.append_assoc]
    rfl

theorem run_word {s : Stage} {base : Base} {files : Redirections} {slot : Slot} {sp : Bool}
    {xs : List Lexeme} (hx : WordParts xs)
    (hstart : ∀ first, s.word sp (.part first) = some (.reading base files (.word slot first))) :
    (inStage lv outer s).run (unbroken sp xs) =
      some (inStage lv outer (.reading base files (.word slot (wordOf xs)))) := by
  obtain ⟨first, more, rfl, hmore⟩ := hx
  rw [unbroken, State.run, step_inStage lv outer rfl (hstart first), Option.bind_some,
    run_more lv outer base files slot hmore]
  rfl

variable {parts : Bytes → List Lexeme} {v : Bytes → Bytes}

/-- The lexemes of a text of the tree read as another text. -/
structure Reads (parts : Bytes → List Lexeme) (v : Bytes → Bytes) (s : Bytes) : Prop where
  shape : WordParts (parts s)
  value : wordOf (parts s) = v s
  nonempty : s ≠ [] → v s ≠ []

/-- Lexemes of tokens behind a blank each. -/
def runLexemes (parts : Bytes → List Lexeme) (tokens : List Token) : List Spaced :=
  tokens.flatMap (tokenLexemes parts true)

theorem runLexemes_append (xs ys : List Token) :
    runLexemes parts (xs ++ ys) = runLexemes parts xs ++ runLexemes parts ys :=
  List.flatMap_append

theorem run_words {s : Stage} {files : Redirections} {argv ws : List Bytes}
    (hs : s.Holds (.words argv) files) (hws : ∀ w ∈ ws, Reads parts v w) :
    ∃ s', (inStage lv outer s).run (runLexemes parts (ws.map .word)) = some (inStage lv outer s') ∧
      s'.Holds (.words (argv ++ ws.map v)) files := by
  induction ws generalizing s argv with
  | nil => exact ⟨s, rfl, by simpa using hs⟩
  | cons w ws ih =>
    have hw := hws w List.mem_cons_self
    have hstart (first : Bytes) : s.word true (.part first) =
        some (.reading (.words argv) files (.word .argument first)) := hs.startItem
    have hrun := run_word lv outer hw.shape hstart
    obtain ⟨s', hrest, hs'⟩ := ih (Stage.Holds.argument argv files (v w))
      fun w' h => hws w' (List.mem_cons_of_mem _ h)
    refine ⟨s', ?_, by simpa using hs'⟩
    rw [hw.value] at hrun
    change State.run _ (unbroken true (parts w) ++ runLexemes parts (ws.map .word)) = _
    rw [State.run_append, hrun]
    exact hrest

/-- The slot that the word behind a token fills. -/
def tokenSlot : Token → Option Slot
  | .operator op => redirectionSlot op none
  | .errors => some .error
  | .word _ => none

theorem run_redirect {s : Stage} {base : Base} {files : Redirections} {token : Token}
    {slot : Slot} (hs : s.Holds base files) (htoken : tokenSlot token = some slot) :
    (inStage lv outer s).run (tokenLexemes parts true token) =
      some (inStage lv outer (.reading base files (.target slot))) := by
  cases token with
  | word => cases htoken
  | operator op =>
    have hop : op ∈ [Operator.less, .great, .dgreat] := by
      cases op <;> first | decide | cases htoken
    rw [tokenLexemes, State.run, step_inStage_redirect lv outer true hop (hs.redirect htoken)]
    rfl
  | errors =>
    cases htoken
    have hnumber : s.word true (.bare "2" .number) = some (.reading base files (.number "2")) :=
      hs.startItem
    have hgreat : Stage.redirect .great (.reading base files (.number "2")) =
        some (.reading base files (.target .error)) := rfl
    rw [tokenLexemes, State.run, step_inStage lv outer rfl hnumber, Option.bind_some, State.run,
      step_inStage_redirect lv outer false (by decide) hgreat]
    rfl

theorem run_target {s : Stage} {base : Base} {files : Redirections} {token : Token} {slot : Slot}
    {text : Bytes} (hs : s.Holds base files) (htoken : tokenSlot token = some slot)
    (htext : Reads parts v text) :
    ∃ s', (inStage lv outer s).run (runLexemes parts (targetTokens token text)) =
        some (inStage lv outer s') ∧
      s'.Holds base (if text.isEmpty then files else setTarget files slot (v text)) := by
  have hslot : slot ≠ .argument := by
    rintro rfl
    cases token with
    | word | errors => cases htoken
    | operator op => cases op <;> cases htoken
  by_cases he : text.isEmpty = true
  · rw [targetTokens, if_pos he, if_pos he]
    exact ⟨s, rfl, hs⟩
  · rw [targetTokens, if_neg he, if_neg he]
    refine ⟨.reading base files (.word slot (v text)), ?_,
      .target base files hslot (htext.nonempty (by simpa using he))⟩
    have hstart (first : Bytes) :
        Stage.word true (.part first) (.reading base files (.target slot)) =
          some (.reading base files (.word slot first)) := rfl
    have hword := run_word lv outer htext.shape hstart
    rw [htext.value] at hword
    change State.run _ (tokenLexemes parts true token ++ (unbroken true (parts text) ++ [])) = _
    rw [State.run_append, run_redirect lv outer hs htoken, List.append_nil]
    exact hword

/-- All redirections behind a command or group. -/
theorem run_files {s : Stage} {base : Base} {files : Redirections} (hs : s.Holds base .none)
    (hempty : v [] = []) (hfiles : ∀ text ∈ files.texts, Reads parts v text) :
    ∃ s', (inStage lv outer s).run (runLexemes parts files.tokens) = some (inStage lv outer s') ∧
      s'.Holds base (files.mapTexts v) := by
  have less : tokenSlot (.operator .less) = some .input := rfl
  have great : tokenSlot (.operator .great) = some .output := rfl
  have dgreat : tokenSlot (.operator .dgreat) = some .append := rfl
  have errors : tokenSlot .errors = some .error := rfl
  obtain ⟨input, output, append, error⟩ := files
  obtain ⟨s₁, h₁, hs₁⟩ := run_target lv outer hs less (hfiles input (by simp [Redirections.texts]))
  obtain ⟨s₂, h₂, hs₂⟩ := run_target lv outer hs₁ great
    (hfiles output (by simp [Redirections.texts]))
  obtain ⟨s₃, h₃, hs₃⟩ := run_target lv outer hs₂ dgreat
    (hfiles append (by simp [Redirections.texts]))
  obtain ⟨s₄, h₄, hs₄⟩ := run_target lv outer hs₃ errors
    (hfiles error (by simp [Redirections.texts]))
  refine ⟨s₄, ?_, ?_⟩
  · simp only [Redirections.tokens, runLexemes_append, State.run_append, h₁, h₂, h₃,
      Option.bind_some]
    exact h₄
  · cases input <;> cases output <;> cases append <;> cases error <;>
      simpa [setTarget, Redirections.mapTexts, Redirections.none, hempty] using hs₄

end Words

namespace Level

/-- A level where a tree of a rank can start. -/
def Fresh (lv : Level) : Rank → Prop
  | .stage => lv.stage = .idle
  | .pipeline => lv.stage = .idle ∧ lv.stages = none
  | .chain => lv.stage = .idle ∧ lv.stages = none ∧ lv.chain = none
  | .list => lv = {}

/-- A level that was `lv` and has read a tree of a rank since. -/
def Has (lv lv' : Level) (t : Tree) : Rank → Prop
  | .stage => lv' = { lv with stage := lv'.stage } ∧ lv'.stage.tree? = some t
  | .pipeline => lv'.done = lv.done ∧ lv'.chain = lv.chain ∧
      ∃ r, lv'.stage.tree? = some r ∧ joinStages lv'.stages r = t
  | .chain => lv'.done = lv.done ∧
      ∃ r, lv'.stage.tree? = some r ∧ joinChain lv'.chain (joinStages lv'.stages r) = t
  | .list => lv'.endStatement = some { done := t }

theorem Has.endStatement {lv lv' : Level} {t : Tree} (h : Has lv lv' t .chain) :
    lv'.endStatement = some { done := joinDone lv.done t } := by
  obtain ⟨hd, r, hr, rfl⟩ := h
  simp [Level.endStatement, hr, hd]

theorem tree?_of_endStatement {lv : Level} {t : Tree} (h : lv.endStatement = some { done := t }) :
    lv.tree? = some t := by
  unfold Level.tree?
  split
  · next hidle => simp [Level.endStatement, hidle, Stage.tree?] at h
  · rw [h]
    rfl

end Level

/-- A line of one command. -/
theorem tree?_inStage {s : Stage} {t : Tree} (h : s.tree? = some t) :
    (inStage {} [] s).tree? = some t := by
  have hend : Level.endStatement { stage := s } = some { done := t } := by
    simp [Level.endStatement, h, joinStages, joinChain, joinDone, Tree.isAbsent]
  exact Level.tree?_of_endStatement hend

section Trees
variable {parts : Bytes → List Lexeme} {v : Bytes → Bytes}

/-- A simple command: its words, then its redirections. -/
theorem run_plain {lv : Level} (outer : List Level) (w : Bytes) (ws : List Bytes)
    (files : Redirections) (hempty : v [] = []) (hfresh : lv.stage = .idle)
    (hreads : ∀ s ∈ (Tree.plain (w :: ws) files).texts, Reads parts v s) :
    ∃ s, State.run ⟨lv, outer⟩ (runLexemes parts (Tree.plain (w :: ws) files).tokens) =
        some (inStage lv outer s) ∧
      s.tree? = some ((Tree.plain (w :: ws) files).mapTexts v) := by
  simp only [Tree.plain, Tree.texts, List.append_nil, List.mem_append] at hreads
  have hw := hreads w (.inl List.mem_cons_self)
  have hstart (first : Bytes) : Stage.word true (.part first) .idle =
      some (.reading (.words []) .none (.word .argument first)) := rfl
  have hfirst := run_word lv outer hw.shape hstart
  rw [hw.value] at hfirst
  obtain ⟨s₁, h₁, hs₁⟩ := run_words lv outer (Stage.Holds.argument [] .none (v w))
    fun w' h => hreads w' (.inl (List.mem_cons_of_mem _ h))
  obtain ⟨s₂, h₂, hs₂⟩ := run_files lv outer hs₁ hempty fun text h => hreads text (.inr h)
  refine ⟨s₂, ?_, hs₂.tree?_words⟩
  have hidle : (⟨lv, outer⟩ : State) = inStage lv outer .idle := by rw [inStage, ← hfresh]
  change State.run _
    (unbroken true (parts w) ++ runLexemes parts (ws.map .word ++ files.tokens)) = _
  rw [hidle, State.run_append, hfirst, Option.bind_some, runLexemes_append, State.run_append, h₁]
  exact h₂

theorem run_group {lv lv' : Level} (outer : List Level) {inner : Tree} (files : Redirections)
    (hempty : v [] = []) (hfresh : lv.stage = .idle) (hfits : Fits .list inner)
    (hreads : ∀ s ∈ files.texts, Reads parts v s)
    (hrun : State.run ⟨{}, lv :: outer⟩ (runLexemes parts inner.tokens) = some ⟨lv', lv :: outer⟩)
    (hinner : lv'.endStatement = some { done := inner.mapTexts v }) :
    ∃ s, State.run ⟨lv, outer⟩ (runLexemes parts (Tree.subshell inner files).tokens) =
        some (inStage lv outer s) ∧
      s.tree? = some ((Tree.subshell inner files).mapTexts v) := by
  have hopen : State.step ⟨lv, outer⟩ ⟨true, .operator .open⟩ = some ⟨{}, lv :: outer⟩ := by
    rw [State.step_open, if_pos hfresh]
  have hclose : State.step ⟨lv', lv :: outer⟩ ⟨true, .operator .close⟩ =
      some (inStage lv outer (.reading (.group (inner.mapTexts v)) .none .rest)) := by
    have hpresent : ¬ (inner.mapTexts v).isAbsent = true := by
      simp [(hfits.mapTexts hempty).isAbsent_eq_false]
    simp only [State.step_close, Level.tree?_of_endStatement hinner, if_neg hpresent]
    rfl
  have hgroup : Stage.Holds (.reading (.group (inner.mapTexts v)) .none .rest)
      (.group (inner.mapTexts v)) .none := ⟨_, _, _, rfl, rfl⟩
  obtain ⟨s, hs, hholds⟩ := run_files lv outer hgroup hempty hreads
  refine ⟨s, ?_, hholds.tree?_group⟩
  change State.run _ (⟨true, .operator .open⟩ :: runLexemes parts
    (inner.tokens ++ .operator .close :: files.tokens)) = _
  rw [State.run, hopen, Option.bind_some, runLexemes_append, State.run_append, hrun,
    Option.bind_some]
  change State.run _ (⟨true, .operator .close⟩ :: runLexemes parts files.tokens) = _
  rw [State.run, hclose]
  exact hs

/-- Two operands with an operator between them. -/
theorem run_between {t l r : Tree} {op : Operator} {st mid next last : State}
    (ht : t.tokens = l.tokens ++ .operator op :: r.tokens)
    (hl : st.run (runLexemes parts l.tokens) = some mid)
    (hop : mid.step ⟨true, .operator op⟩ = some next)
    (hr : next.run (runLexemes parts r.tokens) = some last) :
    st.run (runLexemes parts t.tokens) = some last := by
  rw [ht, runLexemes_append, State.run_append, hl]
  change mid.run (⟨true, .operator op⟩ :: runLexemes parts r.tokens) = _
  rw [State.run, hop]
  exact hr

theorem texts_binary {kind : Kind} {l r : Tree} {p : Bytes → Prop}
    (h : ∀ s ∈ (Tree.binary kind l r).texts, p s) :
    (∀ s ∈ l.texts, p s) ∧ ∀ s ∈ r.texts, p s :=
  ⟨fun s hs => h s (by simp [Tree.binary, Tree.texts, hs]),
    fun s hs => h s (by simp [Tree.binary, Tree.texts, hs])⟩

/-- The tokens of a tree build that tree, in the words as they are read. -/
theorem run_tree {rank : Rank} {t : Tree} (h : Fits rank t) (hempty : v [] = [])
    (hreads : ∀ s ∈ t.texts, Reads parts v s) {lv : Level} (hfresh : lv.Fresh rank)
    (outer : List Level) :
    ∃ lv', State.run ⟨lv, outer⟩ (runLexemes parts t.tokens) = some ⟨lv', outer⟩ ∧
      lv.Has lv' (t.mapTexts v) rank := by
  induction h generalizing lv outer with
  | plain w ws files =>
    obtain ⟨s, hrun, hs⟩ := run_plain outer w ws files hempty hfresh hreads
    exact ⟨_, hrun, rfl, hs⟩
  | @group inner files hinner ih =>
    simp only [Tree.subshell, Tree.texts, List.append_nil, List.nil_append,
      List.mem_append] at hreads
    obtain ⟨lv', hrun, hlist⟩ := ih (fun s hs => hreads s (.inr hs)) rfl (lv :: outer)
    obtain ⟨s, hrun, hs⟩ := run_group outer files hempty hfresh hinner
      (fun s hs => hreads s (.inl hs)) hrun hlist
    exact ⟨_, hrun, rfl, hs⟩
  | stage _ ih =>
    obtain ⟨lv', hrun, hsame, hs⟩ := ih hreads hfresh.1 outer
    refine ⟨lv', hrun, by rw [hsame], by rw [hsame], _, hs, ?_⟩
    rw [hsame, hfresh.2]
    rfl
  | pipeline _ ih =>
    obtain ⟨lv', hrun, hdone, hchain, r, hr, hjoin⟩ := ih hreads ⟨hfresh.1, hfresh.2.1⟩ outer
    refine ⟨lv', hrun, hdone, r, hr, ?_⟩
    rw [hchain, hfresh.2.2, hjoin]
    rfl
  | chain _ ih =>
    obtain rfl : lv = {} := hfresh
    have hstart : ({} : Level).Fresh .chain := ⟨rfl, rfl, rfl⟩
    obtain ⟨lv', hrun, hchain⟩ := ih hreads hstart outer
    exact ⟨lv', hrun, hchain.endStatement⟩
  | @pipe l r hl hr ihl ihr =>
    obtain ⟨hreadsl, hreadsr⟩ := texts_binary hreads
    obtain ⟨mid, hrunl, hdone, hchain, u, hu, hjoin⟩ := ihl hreadsl hfresh outer
    have hstart : Level.Fresh { mid with stages := some (l.mapTexts v), stage := .idle } .stage :=
      rfl
    obtain ⟨lv', hrunr, hsame, hs⟩ := ihr hreadsr hstart outer
    have hop : State.step ⟨mid, outer⟩ ⟨true, .operator .pipe⟩ =
        some ⟨{ mid with stages := some (l.mapTexts v), stage := .idle }, outer⟩ := by
      rw [State.step_pipe, hu, ← hjoin]
      rfl
    refine ⟨lv', run_between rfl hrunl hop hrunr, by rw [hsame, hdone], by rw [hsame, hchain],
      _, hs, ?_⟩
    rw [hsame, Tree.pipe, Tree.mapTexts_binary hempty]
    rfl
  | @connect kind l r hk hl hr ihl ihr =>
    obtain ⟨hreadsl, hreadsr⟩ := texts_binary hreads
    obtain ⟨mid, hrunl, hdone, u, hu, hjoin⟩ := ihl hreadsl hfresh outer
    have hstart : Level.Fresh { done := mid.done, chain := some (kind, l.mapTexts v) } .pipeline :=
      ⟨rfl, rfl⟩
    obtain ⟨lv', hrunr, hdone', hchain, u', hu', hjoin'⟩ := ihr hreadsr hstart outer
    obtain ⟨op, hop, htokens⟩ : ∃ op, State.connectiveKind op = some kind ∧
        (Tree.binary kind l r).tokens = l.tokens ++ .operator op :: r.tokens := by
      rcases hk with rfl | rfl
      · exact ⟨.andIf, rfl, rfl⟩
      · exact ⟨.orIf, rfl, rfl⟩
    have hstep : State.step ⟨mid, outer⟩ ⟨true, .operator op⟩ =
        some ⟨{ done := mid.done, chain := some (kind, l.mapTexts v) }, outer⟩ := by
      rw [State.step_connective _ _ hop, hu, ← hjoin]
      rfl
    refine ⟨lv', run_between htokens hrunl hstep hrunr, hdone'.trans hdone, u', hu', ?_⟩
    rw [hchain, hjoin', Tree.mapTexts_binary hempty]
    rfl
  | @sequence l r hl hr ihl ihr =>
    obtain ⟨hreadsl, hreadsr⟩ := texts_binary hreads
    obtain ⟨mid, hrunl, hend⟩ := ihl hreadsl hfresh outer
    have hstart : Level.Fresh { done := l.mapTexts v } .chain := ⟨rfl, rfl, rfl⟩
    obtain ⟨lv', hrunr, hchain⟩ := ihr hreadsr hstart outer
    have hstep : State.step ⟨mid, outer⟩ ⟨true, .operator .semicolon⟩ =
        some ⟨{ done := l.mapTexts v }, outer⟩ := by
      rw [State.step_semicolon, hend]
      rfl
    have hpresent : ¬ (l.mapTexts v).isAbsent = true := by
      simp [(hl.mapTexts hempty).isAbsent_eq_false]
    refine ⟨lv', run_between rfl hrunl hstep hrunr, ?_⟩
    rw [Tree.sequence, Tree.mapTexts_binary hempty]
    exact hchain.endStatement.trans (by rw [joinDone, if_neg hpresent]; rfl)

end Trees

end CommandShell.Line
