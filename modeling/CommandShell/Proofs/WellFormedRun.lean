import CommandShell.Session
import CommandShell.Proofs.AcceptedTree
import Mathlib

/-! Valid trees never take the branches for malformed ones. The executor is run with any other actions
in place of these branches: on a valid tree, with its aliases expanded, they make no difference to any
run, so none of them is reached. -/
namespace CommandShell

namespace Executor

/-- What is done where a tree is malformed: where no tree is, where a command has no words, and where
the kind of a node is unknown. -/
structure Fallback where
  absent : Streams → Run Status
  wordless : Streams → Run Status
  unknown : Kind → Streams → Run Status

/-- The complaints about malformed trees. -/
def complaints (ex : Executor) : Fallback where
  absent streams := do
    ex.say streams "nothing to execute"
    return Status.unknown
  wordless streams := do
    ex.say streams "empty command"
    return Status.unknown
  unknown kind streams := do
    ex.say streams ("don't know how to execute a " ++ kind.name ++ " node")
    return Status.unknown

/-- Runs a simple command, or falls back if it has no words. -/
def plainOr (ex : Executor) (fallback : Fallback) (argv : List Bytes) (files : Redirections)
    (streams : Streams) : Run Status :=
  match argv with
  | [] => fallback.wordless streams
  | name :: args => ex.plain (name :: args) files streams

/-- Runs a tree, and falls back wherever it is malformed. -/
def executeOr (ex : Executor) (fallback : Fallback) : Tree → Streams → Run Status
  | .absent, streams => fallback.absent streams
  | .node kind argv files left right, streams =>
    match kind with
    | .plain => ex.plainOr fallback argv files streams
    | .sequence => do
      ex.reportSide streams "left" (← ex.executeOr fallback left streams)
      let status ← ex.executeOr fallback right streams
      ex.reportSide streams "right" status
      return status
    | .and => do
      let status ← ex.executeOr fallback left streams
      if status != Status.success then return status
      ex.executeOr fallback right streams
    | .or => do
      let status ← ex.executeOr fallback left streams
      if status == Status.success then return status
      ex.executeOr fallback right streams
    | .pipe => ex.pipe (ex.executeOr fallback left) (ex.executeOr fallback right) streams
    | .subshell =>
      ex.redirected argv files streams fun inner => do
        let status ← ex.executeOr fallback left inner
        return if ex.policy == .propagate then status else Status.success
    | .unknown n => fallback.unknown (.unknown n) streams

/-- The executor falls back to its complaints. -/
theorem executeOr_complaints (ex : Executor) (t : Tree) :
    ex.executeOr ex.complaints t = ex.execute t := by
  induction t with
  | absent => rfl
  | node kind argv files l r ihl ihr =>
    funext streams
    cases kind with
    | plain => cases argv <;> rfl
    | unknown n => rfl
    | sequence | and | or | pipe | subshell => simp only [executeOr, execute, ihl, ihr]

end Executor

namespace Tree
variable {kind : Kind} {argv : List Bytes} {files : Redirections} {l r : Tree}

/-- What validity says of a node that is run. -/
theorem valid_cases (h : (node kind argv files l r).isValid = true) :
    kind = .plain ∧ argv ≠ [] ∨ kind = .subshell ∧ l.isValid = true ∨
      kind ∈ [Kind.sequence, .and, .or, .pipe] ∧ l.isValid = true ∧ r.isValid = true := by
  cases kind with
  | plain =>
    refine .inl ⟨rfl, ?_⟩
    rintro rfl
    simp [isValid, defect?] at h
  | subshell =>
    refine .inr (.inl ⟨rfl, ?_⟩)
    simp only [isValid, defect?, Option.isNone_iff_eq_none] at h ⊢
    grind
  | unknown n => simp [isValid, defect?] at h
  | sequence | and | or | pipe =>
    refine .inr (.inr ⟨by decide, ?_⟩)
    exact (valid_binary (by decide) h).2

end Tree

/-- On a valid tree it does not matter what is done about malformed ones. -/
theorem Executor.executeOr_of_isValid (ex : Executor) (fallback : Fallback) {t : Tree}
    (h : t.isValid = true) : ex.executeOr fallback t = ex.execute t := by
  induction t with
  | absent => simp [Tree.isValid, Tree.defect?] at h
  | node kind argv files l r ihl ihr =>
    funext streams
    obtain ⟨rfl, hne⟩ | ⟨rfl, hl⟩ | ⟨hk, hl, hr⟩ := Tree.valid_cases h
    · cases argv with
      | nil => exact absurd rfl hne
      | cons name args => rfl
    · simp only [executeOr, execute, ihl hl]
    · simp only [List.mem_cons, List.not_mem_nil, or_false] at hk
      rcases hk with rfl | rfl | rfl | rfl <;> simp only [executeOr, execute, ihl hl, ihr hr]

namespace Aliases

theorem parse_words_ne_nil {definitions : List (Bytes × Bytes)} {table : Aliases}
    (h : parse definitions = .ok table) : ∀ entry ∈ table.entries, entry.2 ≠ [] := by
  induction definitions generalizing table with
  | nil =>
    cases h
    intro entry hm
    cases hm
  | cons first rest ih =>
    obtain ⟨name, definition⟩ := first
    rw [parse] at h
    split at h
    · cases h
    · next words hw =>
      cases hp : parse rest with
      | error e => simp [hp, Except.map] at h
      | ok more =>
        obtain rfl : ⟨(name, words) :: more.entries⟩ = table := by simpa [hp, Except.map] using h
        intro entry hm
        obtain rfl | hm := List.mem_cons.mp hm
        · rintro rfl
          unfold Tree.simple at hw
          split at hw <;> simp_all
        · exact ih hp entry hm

/-- A command keeps having words when its first one is replaced. -/
theorem replaceFirst_isEmpty {table : Aliases} (h : ∀ entry ∈ table.entries, entry.2 ≠ [])
    (argv : List Bytes) : (table.replaceFirst argv).isEmpty = argv.isEmpty := by
  cases argv with
  | nil => rfl
  | cons name args =>
    rw [replaceFirst]
    cases hf : table.find? name with
    | none => rfl
    | some words =>
      obtain ⟨entry, hm, rfl⟩ := Option.map_eq_some_iff.mp hf
      have hne := h entry (List.mem_of_find?_eq_some hm)
      simp [hne]

@[simp] theorem isAbsent_expand (table : Aliases) (t : Tree) :
    (table.expand t).isAbsent = t.isAbsent := by
  cases t with
  | absent => rfl
  | node kind => cases kind <;> rfl

/-- Expanding aliases finds the same defect in a tree, or none. -/
theorem defect?_expand {table : Aliases} (h : ∀ entry ∈ table.entries, entry.2 ≠ []) (t : Tree) :
    (table.expand t).defect? = t.defect? := by
  induction t with
  | absent => rfl
  | node kind argv files l r ihl ihr =>
    cases kind with
    | plain => simp [expand, Tree.defect?, replaceFirst_isEmpty h]
    | unknown n => rfl
    | sequence | and | or | pipe | subshell => simp [expand, Tree.defect?, ihl, ihr]

end Aliases

/-- The branches for malformed trees are never reached, neither by a valid tree whose aliases are
expanded nor by any line: whatever they would do, every run is the same. -/
theorem Session.never_falls_back (s : Session) {definitions : List (Bytes × Bytes)}
    (ha : Aliases.parse definitions = .ok s.aliases) (fallback : Executor.Fallback) :
    (∀ t, s.executor.executeOr s.executor.complaints t = s.executor.execute t) ∧
    (∀ t : Tree, t.isValid = true → ∀ streams running,
      (s.executor.executeOr fallback (s.aliases.expand t) streams).run running =
        (s.executor.execute (s.aliases.expand t) streams).run running) ∧
    ∀ line st, s.runLineBy (s.executor.executeOr fallback) line st = s.runLine line st := by
  have valid (t : Tree) (h : t.defect? = none) :
      s.executor.executeOr fallback (s.aliases.expand t) =
        s.executor.execute (s.aliases.expand t) := by
    refine s.executor.executeOr_of_isValid fallback ?_
    rw [Tree.isValid, Aliases.defect?_expand (Aliases.parse_words_ne_nil ha), h]
    rfl
  refine ⟨s.executor.executeOr_complaints, ?_, ?_⟩
  · intro t h streams running
    rw [valid t (Option.isNone_iff_eq_none.mp h)]
  · intro line st
    unfold runLine runLineBy
    split
    · rfl
    · rfl
    · next t present hp =>
      have hf := Line.read?_fits (Line.parse_eq_ok_iff.mp hp) present
      rw [valid t hf.defect_eq_none]

/-- A session in which an alias stands for two words. -/
private def aliased : Session where
  config := {}
  aliases := ⟨[("ll", ["ls", "-l"])]⟩
  executor := { name := "sh", programs := fun _ => .exit 0 }
  streams := ⟨0, 1, 2⟩

private def aliasedPipe : Tree := .pipe (.plain ["ll"]) (.subshell (.plain ["cat"]))

private def aliasedStart : Running := { here := { dir := "/", env := .empty }, world := {} }

/-- Malformed trees succeed. -/
private def forgiving : Executor.Fallback where
  absent _ := return Status.success
  wordless _ := return Status.success
  unknown _ _ := return Status.success

theorem Session.never_falls_back_alias :
    Aliases.parse [("ll", "ls -l")] = .ok aliased.aliases ∧ aliasedPipe.isValid = true ∧
    (aliased.executor.executeOr forgiving (aliased.aliases.expand aliasedPipe)
        aliased.streams).run aliasedStart =
      (aliased.executor.execute (aliased.aliases.expand aliasedPipe) aliased.streams).run aliasedStart ∧
    aliased.runLineBy (aliased.executor.executeOr forgiving) "ll | ( cat )" { running := aliasedStart } =
      aliased.runLine "ll | ( cat )" { running := aliasedStart } := by
  have ha : Aliases.parse [("ll", "ls -l")] = .ok aliased.aliases := by cbv
  have hv : aliasedPipe.isValid = true := by decide
  obtain ⟨-, htree, hline⟩ := aliased.never_falls_back ha forgiving
  exact ⟨ha, hv, htree _ hv _ _, hline _ _⟩

end CommandShell
