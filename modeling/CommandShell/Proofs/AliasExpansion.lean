import CommandShell.Proofs.WellFormedRun

/-! What expanding aliases changes in a tree and what it leaves alone. Every place of a tree is looked
at, also in trees that cannot be executed, and behind nodes that are not looked into. -/
namespace CommandShell

namespace Tree

inductive Side where
  | left
  | right
  deriving DecidableEq, Repr

def operand : Tree → Side → Tree
  | absent, _ => absent
  | node _ _ _ left _, .left => left
  | node _ _ _ _ right, .right => right

/-- The tree at the end of a way down through operands. -/
def descend (t : Tree) : List Side → Tree
  | [] => t
  | side :: way => (t.operand side).descend way

def words : Tree → List Bytes
  | absent => []
  | node _ argv _ _ _ => argv

/-- What remains of a tree without its words: its shape, its kinds and its redirections. -/
def frame : Tree → Tree
  | absent => absent
  | node kind _ files left right => node kind [] files left.frame right.frame

/-- At the end of a way stands a simple command with a name, and above it no simple command. -/
inductive Names (name : Bytes) (args : List Bytes) : Tree → List Side → Prop
  | here (files : Redirections) (l r : Tree) : Names name args (node .plain (name :: args) files l r) []
  | operand {kind : Kind} {argv : List Bytes} {files : Redirections} {l r : Tree} {side : Side}
      {way : List Side} (above : kind ≠ .plain)
      (rest : Names name args ((node kind argv files l r).operand side) way) :
      Names name args (node kind argv files l r) (side :: way)

end Tree

namespace Aliases
variable {table : Aliases} {definitions : List (Bytes × Bytes)} {kind : Kind} {name : Bytes}
  {args argv : List Bytes} {files : Redirections} {l r : Tree}

/-! ### One node -/

theorem expand_plain (table : Aliases) (argv : List Bytes) (files : Redirections) (l r : Tree) :
    table.expand (.node .plain argv files l r) =
      .node .plain (table.replaceFirst argv) files l r :=
  rfl

theorem expand_of_ne_plain (table : Aliases) (h : kind ≠ .plain) (argv : List Bytes)
    (files : Redirections) (l r : Tree) :
    table.expand (.node kind argv files l r) =
      .node kind argv files (table.expand l) (table.expand r) := by
  cases kind with
  | plain => exact absurd rfl h
  | sequence | and | or | pipe | subshell | unknown n => rfl

theorem operand_expand (table : Aliases) (h : kind ≠ .plain) (argv : List Bytes)
    (files : Redirections) (l r : Tree) (side : Tree.Side) :
    (table.expand (.node kind argv files l r)).operand side =
      table.expand ((Tree.node kind argv files l r).operand side) := by
  rw [expand_of_ne_plain table h]
  cases side <;> rfl

theorem replaceFirst_cons (table : Aliases) (name : Bytes) (args : List Bytes) :
    table.replaceFirst (name :: args) = (table.find? name).getD [name] ++ args := by
  rw [replaceFirst]
  cases table.find? name <;> rfl

/-- No name stands for words that begin with such a name. -/
def Settled (table : Aliases) : Prop :=
  ∀ name first rest, table.find? name = some (first :: rest) → table.find? first = none

theorem Settled.replaceFirst_idem (h : table.Settled)
    (hne : ∀ entry ∈ table.entries, entry.2 ≠ []) (argv : List Bytes) :
    table.replaceFirst (table.replaceFirst argv) = table.replaceFirst argv := by
  cases argv with
  | nil => rfl
  | cons name args =>
    rw [replaceFirst_cons]
    cases hf : table.find? name with
    | none => simp [replaceFirst_cons, hf]
    | some words =>
      obtain ⟨entry, hm, rfl⟩ := Option.map_eq_some_iff.mp hf
      obtain ⟨first, rest, he⟩ := List.exists_cons_of_ne_nil (hne entry (List.mem_of_find?_eq_some hm))
      rw [he] at hf ⊢
      simp [replaceFirst_cons, h _ _ _ hf]

/-! ### All trees -/

theorem frame_expand (table : Aliases) (t : Tree) : (table.expand t).frame = t.frame := by
  induction t with
  | absent => rfl
  | node kind argv files l r ihl ihr =>
    cases kind with
    | plain => rfl
    | sequence | and | or | pipe | subshell | unknown n =>
      rw [expand_of_ne_plain table (by simp), Tree.frame, Tree.frame, ihl, ihr]

theorem words_expand_of_names (table : Aliases) {t : Tree} {way : List Tree.Side}
    (h : t.Names name args way) :
    ((table.expand t).descend way).words = (table.find? name).getD [name] ++ args := by
  induction h with
  | here files l r => rw [expand_plain, Tree.descend, Tree.words, replaceFirst_cons]
  | operand above rest ih => rw [Tree.descend, operand_expand table above, ih]

theorem words_expand_of_not_names (table : Aliases) {t : Tree} {way : List Tree.Side}
    (h : ∀ name args, ¬ t.Names name args way) :
    ((table.expand t).descend way).words = (t.descend way).words := by
  induction way generalizing t with
  | nil =>
    cases t with
    | absent => rfl
    | node kind argv files l r =>
      cases kind with
      | plain =>
        cases argv with
        | nil => rfl
        | cons name args => exact absurd (.here files l r) (h name args)
      | sequence | and | or | pipe | subshell | unknown n => rfl
  | cons side way ih =>
    cases t with
    | absent => rfl
    | node kind argv files l r =>
      by_cases above : kind = .plain
      · subst above
        cases side <;> rfl
      · rw [Tree.descend, operand_expand table above, Tree.descend]
        exact ih fun name args rest => h name args (.operand above rest)

theorem Settled.expand_idem (h : table.Settled)
    (hne : ∀ entry ∈ table.entries, entry.2 ≠ []) (t : Tree) :
    table.expand (table.expand t) = table.expand t := by
  induction t with
  | absent => rfl
  | node kind argv files l r ihl ihr =>
    by_cases above : kind = .plain
    · subst above
      rw [expand_plain, expand_plain, h.replaceFirst_idem hne]
    · rw [expand_of_ne_plain table above, expand_of_ne_plain table above, ihl, ihr]

/-! ### Tables that are read from definitions -/

/-- A name stands for the words of the definition that is found for it. -/
theorem find?_of_parse (h : parse definitions = .ok table) (name : Bytes) :
    table.find? name =
      (definitions.lookup name).bind fun definition => (Tree.simple definition).toOption := by
  induction definitions generalizing table with
  | nil =>
    cases h
    rfl
  | cons first rest ih =>
    obtain ⟨other, definition⟩ := first
    rw [parse] at h
    split at h
    · cases h
    · next words hw =>
      cases hp : parse rest with
      | error e => simp [hp, Except.map] at h
      | ok more =>
        obtain rfl : ⟨(other, words) :: more.entries⟩ = table := by simpa [hp, Except.map] using h
        have later := ih hp
        rw [find?] at later ⊢
        by_cases hn : other = name
        · subst hn
          simp [hw, Except.toOption]
        · have swapped : (name == other) = false := beq_false_of_ne (Ne.symm hn)
          simp [hn, List.lookup_cons, swapped, later]

/-- Expanding aliases keeps the frame of a tree, and its defect with the text of it. At every place
where a simple command with a name is reached, the words that the name stands for take its place, once;
everywhere else the words stay. If no name stands for words that begin with a name, nothing is left to
expand. -/
theorem expand_exact (h : parse definitions = .ok table) (t : Tree) :
    (table.expand t).frame = t.frame ∧
    (∀ name args way, t.Names name args way →
      ((table.expand t).descend way).words =
        ((definitions.lookup name).bind fun text => (Tree.simple text).toOption).getD [name] ++ args) ∧
    (∀ way, (∀ name args, ¬ t.Names name args way) →
      ((table.expand t).descend way).words = (t.descend way).words) ∧
    (table.expand t).defect? = t.defect? ∧
    (table.expand t).defect?.map Tree.Defect.message = t.defect?.map Tree.Defect.message ∧
    (table.Settled → table.expand (table.expand t) = table.expand t) := by
  have hne := parse_words_ne_nil h
  have defect := defect?_expand hne t
  refine ⟨table.frame_expand t, ?_, fun way => table.words_expand_of_not_names, defect,
    by rw [defect], fun settled => settled.expand_idem hne t⟩
  intro name args way named
  rw [table.words_expand_of_names named, find?_of_parse h]

/-- Two aliases that stand for each other. -/
private def mutualDefinitions : List (Bytes × Bytes) := [("ll", "ls -l"), ("ls", "ll --color")]

private def mutualTable : Aliases := ⟨[("ll", ["ls", "-l"]), ("ls", ["ll", "--color"])]⟩

private def singleTable : Aliases := ⟨[("ll", ["ls", "-l"])]⟩

/-- A command with an operand, as no line is read, beside a command that is no alias. -/
private def listing : Tree :=
  .pipe (.node .plain ["ll", "ls"] .none (.plain ["ls"]) .absent) (.plain ["cat"])

theorem expand_exact_mutual :
    parse mutualDefinitions = .ok mutualTable ∧
    listing.Names "ll" ["ls"] [.left] ∧
    ((mutualTable.expand listing).descend [.left]).words = ["ls", "-l", "ls"] ∧
    (∀ name args, ¬ listing.Names name args [.left, .left]) ∧
    ((mutualTable.expand listing).descend [.left, .left]).words = ["ls"] ∧
    (mutualTable.expand listing).defect? = some .operands ∧
    parse [("ll", "ls -l")] = .ok singleTable ∧
    singleTable.Settled ∧
    singleTable.expand (singleTable.expand listing) = singleTable.expand listing := by
  have hp : parse mutualDefinitions = .ok mutualTable := by cbv
  have hs : parse [("ll", "ls -l")] = .ok singleTable := by cbv
  have named : listing.Names "ll" ["ls"] [.left] := .operand (by decide) (.here _ _ _)
  have unnamed (name : Bytes) (args : List Bytes) : ¬ listing.Names name args [.left, .left] := by
    intro hn
    cases hn with
    | operand above rest =>
      cases rest with
      | operand above rest => exact above rfl
  have settled : singleTable.Settled := by
    intro name first rest hf
    by_cases hn : name = "ll"
    · subst hn
      obtain ⟨rfl, -⟩ : first = "ls" ∧ rest = ["-l"] := by
        have known : singleTable.find? "ll" = some (["ls", "-l"] : List Bytes) := by decide
        simpa [known, eq_comm] using hf
      decide
    · simp [singleTable, find?, Ne.symm hn] at hf
  obtain ⟨-, replaced, kept, defect, -, -⟩ := expand_exact hp listing
  obtain ⟨-, -, -, -, -, idem⟩ := expand_exact hs listing
  exact ⟨hp, named, (replaced _ _ _ named).trans (by cbv), unnamed, (kept _ unnamed).trans rfl,
    defect.trans rfl, hs, settled, idem settled⟩

end Aliases

end CommandShell
