import CommandShell.Proofs.Utf8
import CommandShell.Words

/-! The splitting of a text into words, character by character: what each character adds to the
words, and where the splitter stands behind it. -/
namespace CommandShell.Words

/-- Where the splitter stands behind a character, but for whether it is between words: what is
quoted does not depend on that. -/
def State.next : State → Char → State
  | .between, c | .bare, c =>
    if c = '\\' then .escape none else if isQuote c then .quote c else .bare
  | .quote mark, c =>
    if c = mark then .bare else if c = '\\' ∧ mark = '"' then .escape (some mark) else .quote mark
  | .escape (some mark), _ => .quote mark
  | .escape none, _ => .bare

/-- What a character adds to the words of a definition. -/
def State.added : State → Char → List Char
  | .between, c | .bare, c => if Unicode.isBlank c ∨ c = '\\' ∨ isQuote c then [] else [c]
  | .quote mark, c => if c = mark ∨ (c = '\\' ∧ mark = '"') then [] else [c]
  | .escape (some mark), c => if c ≠ '\\' ∧ c ≠ mark then ['\\', c] else [c]
  | .escape none, c => [c]

def State.isDone : State → Bool
  | .between | .bare => true
  | _ => false

/-- What a text adds to the words. -/
def contents (s : State) : List Char → List Char
  | [] => []
  | c :: cs => s.added c ++ contents (s.next c) cs

/-- The place behind a text. -/
def State.after (s : State) (cs : List Char) : State := cs.foldl State.next s

/-- The same place, but for whether it is between words. -/
def Like (s s' : State) : Prop := s = s' ∨ s = .between ∧ s' = .bare

theorem Like.contents_eq {s s' : State} (h : Like s s') (cs : List Char) :
    contents s cs = contents s' cs := by
  rcases h with rfl | ⟨rfl, rfl⟩
  · rfl
  · cases cs <;> rfl

theorem Like.isDone_after {s s' : State} (h : Like s s') (cs : List Char) :
    (s.after cs).isDone = (s'.after cs).isDone := by
  rcases h with rfl | ⟨rfl, rfl⟩
  · rfl
  · cases cs <;> rfl

/-- Blanks, quotes and the backslash are three kinds of characters. -/
theorem kinds (c : Char) :
    Unicode.isBlank c = true ∧ c ≠ '\\' ∧ isQuote c = false ∨
    c = '\\' ∧ Unicode.isBlank c = false ∧ isQuote c = false ∨
    isQuote c = true ∧ Unicode.isBlank c = false ∧ c ≠ '\\' ∨
    Unicode.isBlank c = false ∧ c ≠ '\\' ∧ isQuote c = false := by
  by_cases hback : c = '\\'
  · subst hback
    exact .inr (.inl ⟨rfl, by decide, by decide⟩)
  by_cases hquote : isQuote c = true
  · have hc := hquote
    simp only [isQuote, Bool.or_eq_true, beq_iff_eq] at hc
    refine .inr (.inr (.inl ⟨hquote, ?_, hback⟩))
    rcases hc with rfl | rfl <;> decide
  · cases hblank : Unicode.isBlank c <;> simp [hback, hquote]

/-- No text has been read where no word has begun. -/
def Partial.Sound (p : Partial) : Prop := p.state = .between → p.text = []

/-- One character of the splitter. -/
theorem step_spec {p : Partial} (hp : p.Sound) (c : Char) :
    (step p c).1.Sound ∧ Like (step p c).1.state (p.state.next c) ∧
      ((step p c).2.getD []).reverse ++ (step p c).1.text.reverse =
        p.text.reverse ++ p.state.added c := by
  obtain ⟨s, text, quoted⟩ := p
  cases s with
  | between =>
    obtain rfl : text = [] := hp rfl
    rcases kinds c with h | ⟨rfl, h⟩ | h | h <;>
      simp [step, Partial.Sound, Partial.empty, Like, State.next, State.added, h]
  | bare =>
    rcases kinds c with h | ⟨rfl, h⟩ | h | h
    · by_cases hshown : (!text.isEmpty || quoted) = true
      · simp [step, Partial.Sound, Partial.empty, Like, State.next, State.added, h, hshown]
      · simp [step, Partial.Sound, Like, State.next, State.added, h, hshown]
    all_goals simp [step, Partial.Sound, Like, State.next, State.added, h]
  | quote mark =>
    by_cases hmark : c = mark
    · simp [step, Partial.Sound, Like, State.next, State.added, hmark]
    · by_cases hback : c = '\\' ∧ mark = '"'
      · simp [step, Partial.Sound, Like, State.next, State.added, hback]
      · simp [step, Partial.Sound, Like, State.next, State.added, hmark, hback]
  | escape within =>
    cases within with
    | none => simp [step, Partial.Sound, Like, State.next, State.added]
    | some mark =>
      by_cases hkept : c ≠ '\\' ∧ c ≠ mark
      · simp [step, Partial.Sound, Like, State.next, State.added, hkept]
      · simp only [step, Partial.Sound, Like, State.next, State.added, if_neg hkept]
        simp

/-- A state that reading a text can lead to from outside quotes. -/
def State.Proper (s : State) : Prop :=
  s = .bare ∨ s = .quote '\'' ∨ s = .quote '"' ∨ s = .escape none ∨ s = .escape (some '"')

theorem State.Proper.next {s : State} (h : s.Proper) (c : Char) : (s.next c).Proper := by
  rcases h with rfl | rfl | rfl | rfl | rfl
  · by_cases hback : c = '\\'
    · simp [State.next, State.Proper, hback]
    · by_cases hquote : c = '\'' ∨ c = '"'
      · rcases hquote with rfl | rfl <;> simp [State.next, State.Proper, isQuote]
      · simp only [not_or] at hquote
        simp [State.next, State.Proper, isQuote, hback, hquote]
  · simp only [State.next, State.Proper]
    grind
  · simp only [State.next, State.Proper]
    grind
  · exact .inl rfl
  · exact .inr (.inr (.inl rfl))

theorem State.Proper.eq_of_next_escape {s : State} (h : s.Proper) {c : Char} {within : Option Char}
    (he : s.next c = .escape within) : c = '\\' := by
  rcases h with rfl | rfl | rfl | rfl | rfl
  · simp only [State.next] at he
    grind
  · simp only [State.next] at he
    grind
  · simp only [State.next] at he
    grind
  · cases he
  · cases he

/-- A character that ends no word. -/
theorem step_word {p : Partial} {c : Char} (shown : p.state = .bare → p.text ≠ [] ∨ p.quoted = true)
    (hblank : p.state = .between ∨ p.state = .bare → Unicode.isBlank c = false) :
    (step p c).2 = none ∧ (step p c).1.state = p.state.next c ∧
      ((step p c).1.state = .bare → (step p c).1.text ≠ [] ∨ (step p c).1.quoted = true) := by
  obtain ⟨s, text, quoted⟩ := p
  cases s with
  | between | bare =>
    have hnot : Unicode.isBlank c = false := hblank (by simp)
    rcases kinds c with h | ⟨rfl, h⟩ | h | h
    · simp [hnot] at h
    · simp [step, State.next, hnot, h]
    · simp [step, State.next, h]
    · simp [step, State.next, h]
  | quote mark =>
    by_cases hmark : c = mark
    · simp [step, State.next, hmark]
    · by_cases hback : c = '\\' ∧ mark = '"'
      · simp [step, State.next, hback]
      · simp [step, State.next, hmark, hback]
  | escape within => cases within <;> simp [step, State.next]

theorem keep_eq (text : List Char) (rest : List Bytes) :
    keep text rest = [Utf8.encode text.reverse].filter (· ≠ []) ++ rest := by
  cases text with
  | nil => rfl
  | cons c text =>
    have hne : Utf8.encode (c :: text).reverse ≠ [] := by
      obtain ⟨a, tail, he, -⟩ := Utf8.first_ofChar c []
      simp [Utf8.encode_append, Utf8.encode_cons, he]
    rw [List.filter_cons_of_pos (by simpa using hne)]
    rfl

theorem flatten_keep (text : List Char) (rest : List Bytes) :
    (keep text rest).flatten = Utf8.encode text.reverse ++ rest.flatten := by
  cases text <;> simp [keep]

theorem go_cons_eq_ok_iff {p : Partial} {c : Char} {cs : List Char} {ws : List Bytes} :
    go p (c :: cs) = .ok ws ↔ ∃ rest, go (step p c).1 cs = .ok rest ∧
      ws = (step p c).2.elim rest fun text => keep text rest := by
  rw [go]
  cases step p c with
  | mk p' out =>
    cases out with
    | none => simp
    | some text => cases hgo : go p' cs <;> simp [hgo, Except.map, eq_comm]

/-- A text that splits ends outside quotes and escapes, and its words hold what it adds. -/
theorem go_ok {p : Partial} {cs : List Char} {ws : List Bytes} (hp : p.Sound)
    (h : go p cs = .ok ws) : (p.state.after cs).isDone = true ∧
      ws.flatten = Utf8.encode (p.text.reverse ++ contents p.state cs) := by
  induction cs generalizing p ws with
  | nil =>
    obtain ⟨s, text, quoted⟩ := p
    cases s with
    | between | bare =>
      cases h
      exact ⟨rfl, by simp [flatten_keep, contents]⟩
    | quote mark => cases h
    | escape within => cases h
  | cons c cs ih =>
    obtain ⟨hsound, hlike, htext⟩ := step_spec hp c
    obtain ⟨rest, hgo, rfl⟩ := go_cons_eq_ok_iff.mp h
    obtain ⟨hdone, hflat⟩ := ih hsound hgo
    have hcontents : contents p.state (c :: cs) =
        p.state.added c ++ contents (step p c).1.state cs := by
      rw [contents, hlike.contents_eq]
    refine ⟨(hlike.isDone_after cs).symm.trans hdone, ?_⟩
    rw [hcontents, ← List.append_assoc, ← htext]
    cases (step p c).2 <;> simp [flatten_keep, hflat, Utf8.encode_append]

theorem nil_not_mem_go {p : Partial} {cs : List Char} {ws : List Bytes} (h : go p cs = .ok ws) :
    [] ∉ ws := by
  have hkeep (text : List Char) (rest : List Bytes) (hrest : [] ∉ rest) : [] ∉ keep text rest := by
    rw [keep_eq]
    simp [hrest]
  induction cs generalizing p ws with
  | nil =>
    rw [go] at h
    cases hf : finish p with
    | error e =>
      rw [hf] at h
      cases h
    | ok text =>
      rw [hf] at h
      cases h
      exact hkeep text [] (by simp)
  | cons c cs ih =>
    obtain ⟨rest, hgo, rfl⟩ := go_cons_eq_ok_iff.mp h
    cases (step p c).2 with
    | none => exact ih hgo
    | some text => exact hkeep text rest (ih hgo)

theorem nul_mem_contents {s : State} {cs : List Char} (hs : s.Proper) (h : '\x00' ∈ cs) :
    '\x00' ∈ contents s cs := by
  induction cs generalizing s with
  | nil => cases h
  | cons c cs ih =>
    rw [contents, List.mem_append]
    rcases List.mem_cons.mp h with rfl | h
    · left
      rcases hs with rfl | rfl | rfl | rfl | rfl <;> decide
    · exact .inr (ih (hs.next c) h)

end CommandShell.Words
