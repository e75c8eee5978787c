import CommandShell.Tree.OneLine
import CommandShell.Proofs.CanonicalTree
import CommandShell.Proofs.DoubleQuoted

/-! What the one-line form of a tree tells. The form falls into kinds and tokens in one way only, but a
word that begins like a redirection is a token like that redirection. So trees with one form are equal
if the same redirections are set in them, and otherwise need not be. -/
namespace CommandShell

/-! Tokens. -/

namespace Tree

/-- Bytes without special ones, and behind them perhaps a quoted text. -/
def IsToken (t : Bytes) : Prop :=
  ∃ plain, (∀ b ∈ plain, needsQuotes b = false) ∧ (t = plain ∨ ∃ w, t = plain ++ Bytes.quoted w)

/-- What may follow a token: a blank or a closing bracket. -/
def Ends (c : UInt8) : Prop := c = 32 ∨ c = 93 ∨ c = 41

theorem Ends.special {c : UInt8} (h : Ends c) : needsQuotes c = true ∧ c ≠ 34 := by
  rcases h with rfl | rfl | rfl <;> decide

theorem quoted_cons (w : Bytes) : ∃ s, Bytes.quoted w = 34 :: s := by
  refine ⟨(Utf8.runes w).flatMap Bytes.quoteRune ++ "\"", ?_⟩
  rw [Bytes.quoted, List.append_assoc]
  rfl

/-- A text is cut at its first special byte in one way. -/
theorem plain_append_injective {plain plain' s t : Bytes} {c d : UInt8}
    (h : ∀ b ∈ plain, needsQuotes b = false) (h' : ∀ b ∈ plain', needsQuotes b = false)
    (hc : needsQuotes c = true) (hd : needsQuotes d = true)
    (heq : plain ++ c :: s = plain' ++ d :: t) : plain = plain' ∧ c = d ∧ s = t := by
  have hcut {plain : Bytes} {c : UInt8} (s : Bytes) (h : ∀ b ∈ plain, needsQuotes b = false)
      (hc : needsQuotes c = true) :
      (plain ++ c :: s).takeWhile (fun b => !needsQuotes b) = plain := by
    rw [List.takeWhile_append_of_pos (by simpa using h), List.takeWhile_cons_of_neg (by simp [hc]),
      List.append_nil]
  have hplain : plain = plain' := by rw [← hcut s h hc, heq, hcut t h' hd]
  subst hplain
  obtain ⟨hcd, hst⟩ := List.cons.inj (List.append_cancel_left heq)
  exact ⟨rfl, hcd, hst⟩

/-- A token tells where it ends. -/
theorem IsToken.append_injective {t t' s s' : Bytes} {c c' : UInt8} (h : IsToken t) (h' : IsToken t')
    (hc : Ends c) (hc' : Ends c') (heq : t ++ c :: s = t' ++ c' :: s') : t = t' ∧ c :: s = c' :: s' := by
  have hquote : needsQuotes 34 = true := by decide
  -- A quoted part cannot stand where a token ends.
  have hboth {plain plain' w s s' : Bytes} {c : UInt8} (hp : ∀ b ∈ plain, needsQuotes b = false)
      (hp' : ∀ b ∈ plain', needsQuotes b = false) (hc : Ends c) :
      plain ++ c :: s ≠ plain' ++ Bytes.quoted w ++ s' := by
    obtain ⟨body, hb⟩ := quoted_cons w
    rw [hb, List.append_assoc, List.cons_append]
    intro heq
    exact hc.special.2 (plain_append_injective hp hp' hc.special.1 hquote heq).2.1
  obtain ⟨plain, hp, rfl | ⟨w, rfl⟩⟩ := h
  · obtain ⟨plain', hp', rfl | ⟨w', rfl⟩⟩ := h'
    · obtain ⟨rfl, rfl, rfl⟩ := plain_append_injective hp hp' hc.special.1 hc'.special.1 heq
      exact ⟨rfl, rfl⟩
    · exact absurd heq (hboth hp hp' hc)
  · obtain ⟨plain', hp', rfl | ⟨w', rfl⟩⟩ := h'
    · exact absurd heq.symm (hboth hp' hp hc')
    · obtain ⟨body, hb⟩ := quoted_cons w
      obtain ⟨body', hb'⟩ := quoted_cons w'
      have hcut := heq
      rw [hb, hb', List.append_assoc, List.append_assoc, List.cons_append, List.cons_append] at hcut
      obtain ⟨rfl, -, -⟩ := plain_append_injective hp hp' hquote hquote hcut
      rw [List.append_assoc, List.append_assoc] at heq
      obtain ⟨rfl, hrest⟩ := Bytes.quoted_append_injective (List.append_cancel_left heq)
      exact ⟨rfl, hrest⟩

/-- Tokens with a blank before each of them. -/
def spaced (tokens : List Bytes) : Bytes := tokens.flatMap fun t => 32 :: t

theorem spaced_cons (t : Bytes) (tokens : List Bytes) : spaced (t :: tokens) = 32 :: (t ++ spaced tokens) :=
  List.flatMap_cons

theorem spaced_append (tokens tokens' : List Bytes) :
    spaced (tokens ++ tokens') = spaced tokens ++ spaced tokens' := List.flatMap_append

/-- Behind the tokens stands a closing bracket. -/
theorem spaced_ends (tokens : List Bytes) {c : UInt8} (hc : Ends c) (s : Bytes) :
    ∃ d rest, Ends d ∧ spaced tokens ++ c :: s = d :: rest := by
  cases tokens with
  | nil => exact ⟨c, s, hc, rfl⟩
  | cons t tokens =>
    refine ⟨32, t ++ spaced tokens ++ c :: s, .inl rfl, ?_⟩
    rw [spaced_cons, List.cons_append]

theorem spaced_append_injective {tokens tokens' : List Bytes} (h : ∀ t ∈ tokens, IsToken t)
    (h' : ∀ t ∈ tokens', IsToken t) {c : UInt8} (hc : Ends c) (hne : c ≠ 32) {s s' : Bytes}
    (heq : spaced tokens ++ c :: s = spaced tokens' ++ c :: s') : tokens = tokens' ∧ s = s' := by
  induction tokens generalizing tokens' with
  | nil =>
    cases tokens' with
    | nil => exact ⟨rfl, (List.cons.inj heq).2⟩
    | cons t' tokens' =>
      rw [spaced_cons] at heq
      exact absurd (List.cons.inj heq).1 hne
  | cons t tokens ih =>
    rw [spaced_cons] at heq
    cases tokens' with
    | nil => exact absurd (List.cons.inj heq).1.symm hne
    | cons t' tokens' =>
      obtain ⟨ht, htokens⟩ := List.forall_mem_cons.mp h
      obtain ⟨ht', htokens'⟩ := List.forall_mem_cons.mp h'
      obtain ⟨d, rest, hd, he⟩ := spaced_ends tokens hc s
      obtain ⟨d', rest', hd', he'⟩ := spaced_ends tokens' hc s'
      rw [spaced_cons, List.cons_append, List.cons_append, List.append_assoc, List.append_assoc, he,
        he'] at heq
      obtain ⟨rfl, hrest⟩ := ht.append_injective ht' hd hd' (List.cons.inj heq).2
      rw [← he, ← he'] at hrest
      obtain ⟨rfl, hs⟩ := ih htokens htokens' hrest
      exact ⟨rfl, hs⟩

/-! Words and redirections as tokens. -/

theorem showWord_of_plain {w : Bytes} (hne : w ≠ []) (h : ∀ b ∈ w, needsQuotes b = false) :
    showWord w = w := by
  have hany : w.any needsQuotes = false := by simpa using h
  rw [showWord, List.isEmpty_eq_false_iff.mpr hne, hany]
  rfl

/-- A word is shown as it is, without special bytes, or quoted. -/
theorem showWord_cases (w : Bytes) :
    (w ≠ [] ∧ (∀ b ∈ w, needsQuotes b = false) ∧ showWord w = w) ∨ showWord w = Bytes.quoted w := by
  by_cases h : (w.isEmpty || w.any needsQuotes) = true
  · exact .inr (if_pos h)
  · simp only [Bool.or_eq_true, not_or, Bool.not_eq_true, List.isEmpty_eq_false_iff,
      List.any_eq_false] at h
    exact .inl ⟨h.1, h.2, showWord_of_plain h.1 h.2⟩

theorem showWord_ne_nil (w : Bytes) : showWord w ≠ [] := by
  rcases showWord_cases w with ⟨hne, -, he⟩ | he
  · rwa [he]
  · obtain ⟨s, hs⟩ := quoted_cons w
    rw [he, hs]
    exact List.cons_ne_nil _ _

theorem showWord_injective {w w' : Bytes} (h : showWord w = showWord w') : w = w' := by
  have hmixed {w w' : Bytes} (hw : ∀ b ∈ w, needsQuotes b = false) : w ≠ Bytes.quoted w' := by
    obtain ⟨s, hs⟩ := quoted_cons w'
    rintro rfl
    have hfalse := hw 34 (by rw [hs]; exact List.mem_cons_self)
    exact absurd hfalse (by decide)
  rcases showWord_cases w with ⟨-, hw, he⟩ | he
  · rcases showWord_cases w' with ⟨-, hw', he'⟩ | he'
    · rw [← he, h, he']
    · exact absurd (he.symm.trans (h.trans he')) (hmixed hw)
  · rcases showWord_cases w' with ⟨-, hw', he'⟩ | he'
    · exact absurd (he'.symm.trans (h.symm.trans he)) (hmixed hw')
    · rw [he, he'] at h
      exact (Bytes.quoted_append_injective (congrArg (· ++ []) h)).1

/-- A token stays one with plain bytes before it. -/
theorem isToken_append_showWord {op : Bytes} (hop : ∀ b ∈ op, needsQuotes b = false) (w : Bytes) :
    IsToken (op ++ showWord w) := by
  rcases showWord_cases w with ⟨-, hw, he⟩ | he
  · exact ⟨op ++ w, List.forall_mem_append.mpr ⟨hop, hw⟩, .inl (by rw [he])⟩
  · exact ⟨op, hop, .inr ⟨w, by rw [he]⟩⟩

end Tree

/-- The redirections a node can have. -/
inductive Slot where
  | input
  | output
  | append
  | error
  deriving DecidableEq, Repr

/-- How a redirection is shown. -/
def Slot.operator : Slot → Bytes
  | input => "<"
  | output => ">"
  | append => ">>"
  | error => "2>"

theorem Slot.plain_operator (slot : Slot) : ∀ b ∈ slot.operator, Tree.needsQuotes b = false := by
  have hnone : slot.operator.any Tree.needsQuotes = false := by cases slot <;> rfl
  simpa using hnone

namespace Redirections

def targetFor (files : Redirections) : Slot → Bytes
  | .input => files.input
  | .output => files.output
  | .append => files.append
  | .error => files.error

/-- The redirections that are set, with their targets, in the order in which they are shown. -/
def targets (files : Redirections) : List (Slot × Bytes) :=
  [(.input, files.input), (.output, files.output), (.append, files.append), (.error, files.error)].filter
    fun entry => !entry.2.isEmpty

theorem lookup_targets (files : Redirections) (slot : Slot) :
    (files.targets.lookup slot).getD [] = files.targetFor slot := by
  obtain ⟨_ | _, _ | _, _ | _, _ | _⟩ := files <;> cases slot <;> rfl

theorem targets_injective {files files' : Redirections} (h : files.targets = files'.targets) :
    files = files' := by
  have htarget (slot : Slot) : files.targetFor slot = files'.targetFor slot := by
    rw [← lookup_targets, h, lookup_targets]
  obtain ⟨input, output, append, error⟩ := files
  obtain ⟨input', output', append', error'⟩ := files'
  obtain rfl : input = input' := htarget .input
  obtain rfl : output = output' := htarget .output
  obtain rfl : append = append' := htarget .append
  obtain rfl : error = error' := htarget .error
  rfl

end Redirections

namespace Tree

/-- A redirection as a token. -/
def showEntry (entry : Slot × Bytes) : Bytes := entry.1.operator ++ showWord entry.2

theorem showRedirections_eq (files : Redirections) :
    showRedirections files = spaced (files.targets.map showEntry) := by
  have hentry (slot : Slot) (s : Bytes) : showTarget slot.operator s =
      spaced (([(slot, s)].filter fun entry => !entry.2.isEmpty).map showEntry) := by
    cases s with
    | nil => rfl
    | cons b s =>
      rw [showTarget, if_neg (by simp), List.append_assoc]
      exact (List.append_nil _).symm
  have hsplit : files.targets = ([(Slot.input, files.input)].filter fun entry => !entry.2.isEmpty) ++
      (([(Slot.output, files.output)].filter fun entry => !entry.2.isEmpty) ++
      (([(Slot.append, files.append)].filter fun entry => !entry.2.isEmpty) ++
      [(Slot.error, files.error)].filter fun entry => !entry.2.isEmpty)) := by
    rw [← List.filter_append, ← List.filter_append, ← List.filter_append]
    rfl
  rw [hsplit, List.map_append, List.map_append, List.map_append, spaced_append, spaced_append,
    spaced_append, ← hentry, ← hentry, ← hentry, ← hentry, showRedirections, List.append_assoc,
    List.append_assoc]
  rfl

theorem join_showWord (word : Bytes) (words : List Bytes) :
    Bytes.join " " ((word :: words).map showWord) = showWord word ++ spaced (words.map showWord) := by
  induction words generalizing word with
  | nil => exact (List.append_nil _).symm
  | cons next words ih =>
    have hcons : Bytes.join " " ((word :: next :: words).map showWord) =
        showWord word ++ (" " ++ Bytes.join " " ((next :: words).map showWord)) :=
      List.append_assoc _ _ _
    rw [hcons, ih, List.map_cons, spaced_cons]
    rfl

/-! Trees and their forms. -/

/-- The kinds that join two trees. -/
def joiners : List Kind := [.sequence, .and, .or, .pipe]

/-- Valid trees in which only simple commands have words. -/
inductive Formed : Tree → Prop where
  | plain (word : Bytes) (words : List Bytes) (files : Redirections) :
      Formed (plain (word :: words) files)
  | group {inner : Tree} (files : Redirections) (h : Formed inner) : Formed (subshell inner files)
  | binary {kind : Kind} {left right : Tree} (hk : kind ∈ joiners) (hl : Formed left)
      (hr : Formed right) : Formed (binary kind left right)

theorem formed_of_valid {t : Tree} (hv : t.isValid = true)
    (hw : t.Everywhere fun kind argv _ _ _ => kind ≠ .plain → argv = []) : Formed t := by
  induction t with
  | absent => exact absurd hv (by decide)
  | node kind argv files left right ihl ihr =>
    obtain ⟨hargv, hwl, hwr⟩ := hw
    have hbinary (hk : kind ∈ joiners) : Formed (node kind argv files left right) := by
      obtain ⟨rfl, hl, hr⟩ := valid_binary hk hv
      obtain rfl := hargv (by rintro rfl; exact absurd hk (by decide))
      exact .binary hk (ihl hl hwl) (ihr hr hwr)
    cases kind with
    | plain =>
      cases argv with
      | nil => simp [isValid, defect?] at hv
      | cons word words =>
        cases left with
        | node => simp [isValid, defect?] at hv
        | absent =>
          cases right with
          | node => simp [isValid, defect?] at hv
          | absent => exact .plain word words files
    | subshell =>
      obtain rfl := hargv (by decide)
      simp only [isValid, defect?, Option.isNone_iff_eq_none] at hv
      have hr : right.isAbsent = true := by grind
      have hl : left.isValid = true := by grind [isValid]
      cases right with
      | node => simp at hr
      | absent => exact .group files (ihl hl hwl)
    | unknown n => simp [isValid, defect?] at hv
    | sequence | and | or | pipe => exact hbinary (by decide)

/-- How the form of a node begins. -/
def opening : Kind → Bytes
  | .plain => "Plain["
  | .subshell => "SubShell("
  | kind => title kind ++ "("

/-- The form of a node tells its kind at once. -/
theorem opening_append_injective {kind kind' : Kind} (h : kind ∈ .plain :: .subshell :: joiners)
    (h' : kind' ∈ .plain :: .subshell :: joiners) {s t : Bytes}
    (heq : opening kind ++ s = opening kind' ++ t) : kind = kind' ∧ s = t := by
  have hlong : ∀ kind ∈ .plain :: .subshell :: joiners, 2 ≤ (opening kind).length := by decide
  have htwo : ∀ kind ∈ .plain :: .subshell :: joiners, ∀ kind' ∈ .plain :: .subshell :: joiners,
      (opening kind).take 2 = (opening kind').take 2 → kind = kind' := by decide
  have htake := congrArg (List.take 2) heq
  rw [List.take_append_of_le_length (hlong kind h), List.take_append_of_le_length (hlong kind' h')]
    at htake
  obtain rfl := htwo kind h kind' h' htake
  exact ⟨rfl, List.append_cancel_left heq⟩

theorem oneLine_plain (word : Bytes) (words : List Bytes) (files : Redirections) (s : Bytes) :
    (plain (word :: words) files).oneLine ++ s = opening .plain ++
      (showWord word ++ (spaced (words.map showWord ++ files.targets.map showEntry) ++ 93 :: s)) := by
  rw [plain, oneLine, join_showWord, showRedirections_eq, spaced_append]
  simp only [List.append_assoc]
  rfl

theorem oneLine_group (inner : Tree) (files : Redirections) (s : Bytes) :
    (subshell inner files).oneLine ++ s = opening .subshell ++
      (inner.oneLine ++ (spaced (files.targets.map showEntry) ++ 41 :: s)) := by
  rw [subshell, oneLine, showRedirections_eq]
  simp only [List.append_assoc]
  rfl

theorem oneLine_binary {kind : Kind} (hk : kind ∈ joiners) (left right : Tree) (s : Bytes) :
    (binary kind left right).oneLine ++ s = opening kind ++
      (left.oneLine ++ (", " ++ (right.oneLine ++ 41 :: s))) := by
  have hline : (binary kind left right).oneLine =
      opening kind ++ left.oneLine ++ ", " ++ right.oneLine ++ ")" := by
    simp only [joiners, List.mem_cons, List.not_mem_nil, or_false] at hk
    rcases hk with rfl | rfl | rfl | rfl <;> rfl
  rw [hline]
  simp only [List.append_assoc]
  rfl

/-- Trees that agree in their kinds and, at each node, in the tokens of its words and redirections. -/
inductive SameForm : Tree → Tree → Prop where
  | plain (word : Bytes) {words words' : List Bytes} {files files' : Redirections}
      (h : words.map showWord ++ files.targets.map showEntry =
        words'.map showWord ++ files'.targets.map showEntry) :
      SameForm (plain (word :: words) files) (plain (word :: words') files')
  | group {inner inner' : Tree} {files files' : Redirections} (h : SameForm inner inner')
      (hfiles : files.targets.map showEntry = files'.targets.map showEntry) :
      SameForm (subshell inner files) (subshell inner' files')
  | binary {kind : Kind} {left left' right right' : Tree} (hl : SameForm left left')
      (hr : SameForm right right') : SameForm (binary kind left right) (binary kind left' right')

theorem isToken_words (words : List Bytes) : ∀ t ∈ words.map showWord, IsToken t := by
  intro t ht
  obtain ⟨w, -, rfl⟩ := List.mem_map.mp ht
  exact isToken_append_showWord (List.forall_mem_nil _) w

theorem isToken_entries (files : Redirections) : ∀ t ∈ files.targets.map showEntry, IsToken t := by
  intro t ht
  obtain ⟨entry, -, rfl⟩ := List.mem_map.mp ht
  exact isToken_append_showWord entry.1.plain_operator entry.2

/-- The form of a tree tells kinds and tokens, and where it ends. -/
theorem Formed.oneLine_append {t t' : Tree} (h : Formed t) (h' : Formed t') {s s' : Bytes}
    (heq : t.oneLine ++ s = t'.oneLine ++ s') : SameForm t t' ∧ s = s' := by
  have hplain : Kind.plain ∈ .plain :: .subshell :: joiners := by decide
  have hgroup : Kind.subshell ∈ .plain :: .subshell :: joiners := by decide
  have hjoiner {kind : Kind} (hk : kind ∈ joiners) : kind ∈ .plain :: .subshell :: joiners :=
    List.mem_cons_of_mem _ (List.mem_cons_of_mem _ hk)
  induction h generalizing t' s s' with
  | plain word words files =>
    rw [oneLine_plain] at heq
    cases h' with
    | plain word' words' files' =>
      rw [oneLine_plain] at heq
      obtain ⟨-, htokens⟩ := opening_append_injective hplain hplain heq
      have hend : Ends 93 := .inr (.inl rfl)
      obtain ⟨d, rest, hd, he⟩ :=
        spaced_ends (words.map showWord ++ files.targets.map showEntry) hend s
      obtain ⟨d', rest', hd', he'⟩ :=
        spaced_ends (words'.map showWord ++ files'.targets.map showEntry) hend s'
      have hword (w : Bytes) : IsToken (showWord w) := isToken_append_showWord (List.forall_mem_nil _) w
      rw [he, he'] at htokens
      obtain ⟨hfirst, hrest⟩ := (hword word).append_injective (hword word') hd hd' htokens
      obtain rfl := showWord_injective hfirst
      rw [← he, ← he'] at hrest
      obtain ⟨hsame, hs⟩ := spaced_append_injective
        (List.forall_mem_append.mpr ⟨isToken_words words, isToken_entries files⟩)
        (List.forall_mem_append.mpr ⟨isToken_words words', isToken_entries files'⟩) hend (by decide) hrest
      exact ⟨.plain word hsame, hs⟩
    | group files' hi' =>
      rw [oneLine_group] at heq
      exact absurd (opening_append_injective hplain hgroup heq).1 (by decide)
    | binary hk' hl' hr' =>
      rw [oneLine_binary hk'] at heq
      obtain ⟨rfl, -⟩ := opening_append_injective hplain (hjoiner hk') heq
      exact absurd hk' (by decide)
  | group files hi ih =>
    rw [oneLine_group] at heq
    cases h' with
    | plain word' words' files' =>
      rw [oneLine_plain] at heq
      exact absurd (opening_append_injective hgroup hplain heq).1 (by decide)
    | group files' hi' =>
      rw [oneLine_group] at heq
      obtain ⟨-, hinner⟩ := opening_append_injective hgroup hgroup heq
      obtain ⟨hsame, hrest⟩ := ih hi' hinner
      obtain ⟨hfiles, hs⟩ := spaced_append_injective (isToken_entries files) (isToken_entries files')
        (.inr (.inr rfl)) (by decide) hrest
      exact ⟨.group hsame hfiles, hs⟩
    | binary hk' hl' hr' =>
      rw [oneLine_binary hk'] at heq
      obtain ⟨rfl, -⟩ := opening_append_injective hgroup (hjoiner hk') heq
      exact absurd hk' (by decide)
  | binary hk hl hr ihl ihr =>
    rw [oneLine_binary hk] at heq
    cases h' with
    | plain word' words' files' =>
      rw [oneLine_plain] at heq
      obtain ⟨rfl, -⟩ := opening_append_injective (hjoiner hk) hplain heq
      exact absurd hk (by decide)
    | group files' hi' =>
      rw [oneLine_group] at heq
      obtain ⟨rfl, -⟩ := opening_append_injective (hjoiner hk) hgroup heq
      exact absurd hk (by decide)
    | binary hk' hl' hr' =>
      rw [oneLine_binary hk'] at heq
      obtain ⟨rfl, hleft⟩ := opening_append_injective (hjoiner hk) (hjoiner hk') heq
      obtain ⟨hsamel, hcomma⟩ := ihl hl' hleft
      obtain ⟨hsamer, hclose⟩ := ihr hr' (List.append_cancel_left hcomma)
      exact ⟨.binary hsamel hsamer, (List.cons.inj hclose).2⟩

/-! From tokens back to words and redirections. -/

/-- Which redirections are set at each node, each node before its operands. -/
def slots : Tree → List (List Slot)
  | absent => []
  | node _ _ files left right => files.targets.map Prod.fst :: (left.slots ++ right.slots)

/-- A word that is shown as a redirection could be. -/
def LooksLike (slot : Slot) (w : Bytes) : Prop :=
  ∃ rest, rest ≠ [] ∧ showWord w = slot.operator ++ rest

/-- The last word, unless it is the only one, does not look like a redirection, and no target of the
output looks as if the text were to be appended. -/
structure Unmistakable (argv : List Bytes) (files : Redirections) : Prop where
  word : ∀ w ∈ argv.tail.getLast?, ∀ slot, ¬ LooksLike slot w
  output : ¬ LooksLike .output files.output

theorem map_showWord_injective {words words' : List Bytes}
    (h : words.map showWord = words'.map showWord) : words = words' :=
  List.map_inj_right (fun _ _ => showWord_injective) |>.mp h

/-- Under one operator, a token tells the target. -/
theorem entries_eq_of_slots {entries entries' : List (Slot × Bytes)}
    (hslots : entries.map Prod.fst = entries'.map Prod.fst)
    (h : entries.map showEntry = entries'.map showEntry) : entries = entries' := by
  induction entries generalizing entries' with
  | nil =>
    cases entries' with
    | nil => rfl
    | cons => cases hslots
  | cons entry entries ih =>
    cases entries' with
    | nil => cases hslots
    | cons entry' entries' =>
      obtain ⟨slot, w⟩ := entry
      obtain ⟨slot', w'⟩ := entry'
      obtain ⟨hslot, hrest⟩ := List.cons.inj hslots
      obtain rfl : slot = slot' := hslot
      obtain ⟨hshown, h⟩ := List.cons.inj h
      have htarget : showWord w = showWord w' := List.append_cancel_left hshown
      rw [showWord_injective htarget, ih hrest h]

/-- A token tells its operator, but for an output that could be an append. -/
theorem showEntry_injective {entry entry' : Slot × Bytes} (h : showEntry entry = showEntry entry')
    (hout : entry.1 = .output → ¬ LooksLike .output entry.2)
    (hout' : entry'.1 = .output → ¬ LooksLike .output entry'.2) : entry = entry' := by
  obtain ⟨slot, w⟩ := entry
  obtain ⟨slot', w'⟩ := entry'
  have hhead := congrArg List.head? h
  have hslot : slot = slot' := by
    cases slot <;> cases slot'
    -- only output and append begin with the same byte
    case output.append => exact absurd ⟨_, showWord_ne_nil w', (List.cons.inj h).2⟩ (hout rfl)
    case append.output => exact absurd ⟨_, showWord_ne_nil w, (List.cons.inj h).2.symm⟩ (hout' rfl)
    all_goals first | rfl | cases hhead
  subst hslot
  have htarget : showWord w = showWord w' := List.append_cancel_left h
  rw [showWord_injective htarget]

theorem entries_eq_of_unmistakable {entries entries' : List (Slot × Bytes)}
    (h : entries.map showEntry = entries'.map showEntry)
    (hout : ∀ entry ∈ entries, entry.1 = .output → ¬ LooksLike .output entry.2)
    (hout' : ∀ entry ∈ entries', entry.1 = .output → ¬ LooksLike .output entry.2) :
    entries = entries' := by
  induction entries generalizing entries' with
  | nil => exact (List.map_eq_nil_iff.mp h.symm).symm
  | cons entry entries ih =>
    cases entries' with
    | nil => cases h
    | cons entry' entries' =>
      obtain ⟨hshown, h⟩ := List.cons.inj h
      obtain ⟨ho, hout⟩ := List.forall_mem_cons.mp hout
      obtain ⟨ho', hout'⟩ := List.forall_mem_cons.mp hout'
      rw [showEntry_injective hshown ho ho', ih h hout hout']

theorem Unmistakable.entries {argv : List Bytes} {files : Redirections} (h : Unmistakable argv files) :
    ∀ entry ∈ files.targets, entry.1 = .output → ¬ LooksLike .output entry.2 := by
  intro entry hm hslot
  have htarget : entry.2 = files.output := by
    have hall : ∀ entry ∈ [(Slot.input, files.input), (.output, files.output), (.append, files.append),
        (.error, files.error)], entry.1 = .output → entry.2 = files.output := by simp
    exact hall entry (List.mem_filter.mp hm).1 hslot
  rw [htarget]
  exact h.output

/-- Tokens that are redirections on one side are no words on the other. -/
theorem no_word_redirected {words words' : List Bytes} {entries : List (Slot × Bytes)}
    {extra rest : List Bytes} (hwords : words'.map showWord = words.map showWord ++ extra)
    (hentries : entries.map showEntry = extra ++ rest)
    (hlast : ∀ w ∈ words'.getLast?, ∀ slot, ¬ LooksLike slot w) : extra = [] := by
  rcases List.eq_nil_or_concat extra with rfl | ⟨before, token, rfl⟩
  · rfl
  · have htoken : token ∈ entries.map showEntry := by
      rw [hentries]
      simp
    obtain ⟨entry, -, rfl⟩ := List.mem_map.mp htoken
    have hget := congrArg List.getLast? hwords
    rw [List.getLast?_map, List.concat_eq_append, ← List.append_assoc, List.getLast?_concat] at hget
    obtain ⟨w, hw, hshown⟩ := Option.map_eq_some_iff.mp hget
    exact absurd ⟨_, showWord_ne_nil entry.2, hshown⟩ (hlast w hw entry.1)

theorem words_eq_of_unmistakable {words words' : List Bytes} {entries entries' : List (Slot × Bytes)}
    (h : words.map showWord ++ entries.map showEntry = words'.map showWord ++ entries'.map showEntry)
    (hlast : ∀ w ∈ words.getLast?, ∀ slot, ¬ LooksLike slot w)
    (hlast' : ∀ w ∈ words'.getLast?, ∀ slot, ¬ LooksLike slot w) :
    words = words' ∧ entries.map showEntry = entries'.map showEntry := by
  rcases List.append_eq_append_iff.mp h with ⟨extra, hwords, hentries⟩ | ⟨extra, hwords, hentries⟩
  · obtain rfl := no_word_redirected hwords hentries hlast'
    rw [List.append_nil] at hwords
    exact ⟨(map_showWord_injective hwords).symm, hentries⟩
  · obtain rfl := no_word_redirected hwords hentries hlast
    rw [List.append_nil] at hwords
    exact ⟨map_showWord_injective hwords, hentries.symm⟩

theorem SameForm.length_slots {t t' : Tree} (h : SameForm t t') : t.slots.length = t'.slots.length := by
  induction h with
  | plain => rfl
  | group _ _ ih =>
    simp only [subshell, slots, List.length_cons, List.length_append, ih]
  | binary _ _ ihl ihr =>
    simp only [Tree.binary, slots, List.length_cons, List.length_append, ihl, ihr]

/-- If the same redirections are set, then tokens tell everything. -/
theorem SameForm.eq_of_slots {t t' : Tree} (h : SameForm t t') (hslots : t.slots = t'.slots) :
    t = t' := by
  induction h with
  | @plain word words words' files files' h =>
    have hset : files.targets.map Prod.fst = files'.targets.map Prod.fst := (List.cons.inj hslots).1
    have hlength : (files.targets.map showEntry).length = (files'.targets.map showEntry).length := by
      have hcount := congrArg List.length hset
      simpa using hcount
    obtain ⟨hwords, hentries⟩ := List.append_inj' h hlength
    rw [map_showWord_injective hwords,
      Redirections.targets_injective (entries_eq_of_slots hset hentries)]
  | group _ hentries ih =>
    obtain ⟨hset, hrest⟩ := List.cons.inj hslots
    have hinner := List.append_cancel_right hrest
    rw [ih hinner, Redirections.targets_injective (entries_eq_of_slots hset hentries)]
  | binary hl _ ihl ihr =>
    obtain ⟨hleft, hright⟩ := List.append_inj (List.cons.inj hslots).2 hl.length_slots
    rw [ihl hleft, ihr hright]

/-- Neither tree has a word that could be a redirection, nor a redirection that could be another. -/
theorem SameForm.eq_of_unmistakable {t t' : Tree} (h : SameForm t t')
    (hu : t.Everywhere fun _ argv files _ _ => Unmistakable argv files)
    (hu' : t'.Everywhere fun _ argv files _ _ => Unmistakable argv files) : t = t' := by
  induction h with
  | plain word h =>
    obtain ⟨hnode, -, -⟩ := hu
    obtain ⟨hnode', -, -⟩ := hu'
    obtain ⟨rfl, hentries⟩ := words_eq_of_unmistakable h hnode.word hnode'.word
    rw [Redirections.targets_injective
      (entries_eq_of_unmistakable hentries hnode.entries hnode'.entries)]
  | group _ hentries ih =>
    obtain ⟨hnode, hinner, -⟩ := hu
    obtain ⟨hnode', hinner', -⟩ := hu'
    rw [ih hinner hinner', Redirections.targets_injective
      (entries_eq_of_unmistakable hentries hnode.entries hnode'.entries)]
  | binary _ _ ihl ihr =>
    obtain ⟨-, hl, hr⟩ := hu
    obtain ⟨-, hl', hr'⟩ := hu'
    rw [ihl hl hl', ihr hr hr']

/-- Two valid trees in which only simple commands have words are equal if and only if they have one form
and the same redirections set at each node. The form alone decides among trees in which no last word
looks like a redirection and no output like an append. -/
theorem eq_iff_oneLine_and_slots {t t' : Tree} (hv : t.isValid = true) (hv' : t'.isValid = true)
    (hw : t.Everywhere fun kind argv _ _ _ => kind ≠ .plain → argv = [])
    (hw' : t'.Everywhere fun kind argv _ _ _ => kind ≠ .plain → argv = []) :
    (t = t' ↔ t.oneLine = t'.oneLine ∧ t.slots = t'.slots) ∧
      (t.Everywhere (fun _ argv files _ _ => Unmistakable argv files) →
        t'.Everywhere (fun _ argv files _ _ => Unmistakable argv files) →
        t.oneLine = t'.oneLine → t = t') := by
  have hform (h : t.oneLine = t'.oneLine) : SameForm t t' :=
    ((formed_of_valid hv hw).oneLine_append (formed_of_valid hv' hw') (congrArg (· ++ []) h)).1
  refine ⟨⟨?_, ?_⟩, fun hu hu' h => (hform h).eq_of_unmistakable hu hu'⟩
  · rintro rfl
    exact ⟨rfl, rfl⟩
  · rintro ⟨h, hslots⟩
    exact (hform h).eq_of_slots hslots

/-- A word that looks like a redirection, the redirection, and a group whose output looks like an
append. -/
theorem eq_iff_oneLine_and_slots_cat :
    let word := plain ["cat", ">out"]
    let output := plain ["cat"] { output := "out" }
    let group := subshell output { output := ">x" }
    let appended := subshell output { append := "x" }
    word.oneLine = output.oneLine ∧ word ≠ output ∧ group.oneLine = appended.oneLine ∧ group ≠ appended ∧
      output.Everywhere (fun _ argv files _ _ => Unmistakable argv files) := by
  intro word output group appended
  have hwordless (argv : List Bytes) (files : Redirections) :
      (plain argv files).Everywhere fun kind argv _ _ _ => kind ≠ .plain → argv = [] :=
    ⟨fun h => absurd rfl h, trivial, trivial⟩
  have hgroup (files : Redirections) :
      (subshell output files).Everywhere fun kind argv _ _ _ => kind ≠ .plain → argv = [] :=
    ⟨fun _ => rfl, hwordless _ _, trivial⟩
  have hword : word.isValid = true := by decide
  have houtput : output.isValid = true := by decide
  have hgrouped : group.isValid = true := by decide
  have happended : appended.isValid = true := by decide
  obtain ⟨hiff, -⟩ :=
    eq_iff_oneLine_and_slots hword houtput (hwordless _ _) (hwordless _ _)
  obtain ⟨hiff', -⟩ :=
    eq_iff_oneLine_and_slots hgrouped happended (hgroup _) (hgroup _)
  refine ⟨by decide, fun h => absurd (hiff.mp h).2 (by decide), by decide,
    fun h => absurd (hiff'.mp h).2 (by decide), ⟨?_, ?_⟩, trivial, trivial⟩
  · rintro w ⟨⟩
  · rintro ⟨rest, -, h⟩
    exact absurd (List.cons.inj h).1 (by decide)

end Tree

end CommandShell
