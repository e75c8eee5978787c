import CommandShell.Tree.Validity

/-! Trees that can be written down without a group the tree does not have: chains of one operator
lean left, and a looser operator stands below a tighter one only inside a group. The ranks of a
grammar describe the same trees one constructor at a time. -/
namespace CommandShell.Tree

def kind? : Tree → Option Kind
  | absent => none
  | node kind _ _ _ _ => some kind

/-- A property of every node, at every depth. -/
def Everywhere (p : Kind → List Bytes → Redirections → Tree → Tree → Prop) : Tree → Prop
  | absent => True
  | node kind argv files left right =>
    p kind argv files left right ∧ left.Everywhere p ∧ right.Everywhere p

theorem Everywhere.imp {p q : Kind → List Bytes → Redirections → Tree → Tree → Prop} {t : Tree}
    (h : t.Everywhere p) (himp : ∀ kind argv files l r, p kind argv files l r →
      q kind argv files l r) : t.Everywhere q := by
  induction t with
  | absent => trivial
  | node kind argv files l r ihl ihr =>
    exact ⟨himp _ _ _ _ _ h.1, ihl h.2.1, ihr h.2.2⟩

@[simp] theorem isAbsent_absent : absent.isAbsent = true := rfl

@[simp] theorem isAbsent_node (kind : Kind) (argv : List Bytes) (files : Redirections)
    (l r : Tree) : (node kind argv files l r).isAbsent = false := rfl

/-- The operands a node of a kind may have without a group around them. -/
def Joins : Kind → Tree → Tree → Prop
  | .sequence, _, right => right.kind? ≠ some .sequence
  | .and, left, right | .or, left, right =>
    left.kind? ≠ some .sequence ∧ right.kind? ∉ [some .sequence, some .and, some .or]
  | .pipe, left, right =>
    left.kind? ∈ [some .pipe, some .plain, some .subshell] ∧
      right.kind? ∈ [some .plain, some .subshell]
  | _, _, _ => True

/-- A valid tree in which only simple commands carry words and no operand needs a group. -/
structure Canonical (t : Tree) : Prop where
  valid : t.isValid = true
  wordless : t.Everywhere fun kind argv _ _ _ => kind ≠ .plain → argv = []
  joined : t.Everywhere fun kind _ _ left right => Joins kind left right

/-- What is true of each node of a tree that was read from a line. -/
structure NodeShape (kind : Kind) (argv : List Bytes) (files : Redirections)
    (left right : Tree) : Prop where
  plain : kind = .plain → argv ≠ [] ∧ left = absent ∧ right = absent
  wordless : kind ≠ .plain → argv = []
  redirected : files.any = true → kind = .plain ∨ kind = .subshell
  joined : Joins kind left right

/-- The four levels of the grammar, tightest first. -/
inductive Rank where
  | stage
  | pipeline
  | chain
  | list
  deriving DecidableEq, Repr

/-- Trees of a rank: each level adds its own operator to the trees of the level below. -/
inductive Fits : Rank → Tree → Prop where
  | plain (w : Bytes) (ws : List Bytes) (files : Redirections) :
      Fits .stage (Tree.plain (w :: ws) files)
  | group {inner : Tree} (files : Redirections) (h : Fits .list inner) :
      Fits .stage (Tree.subshell inner files)
  | stage {t : Tree} (h : Fits .stage t) : Fits .pipeline t
  | pipe {l r : Tree} (hl : Fits .pipeline l) (hr : Fits .stage r) : Fits .pipeline (Tree.pipe l r)
  | pipeline {t : Tree} (h : Fits .pipeline t) : Fits .chain t
  | connect {kind : Kind} {l r : Tree} (hk : kind = .and ∨ kind = .or) (hl : Fits .chain l)
      (hr : Fits .pipeline r) : Fits .chain (Tree.binary kind l r)
  | chain {t : Tree} (h : Fits .chain t) : Fits .list t
  | sequence {l r : Tree} (hl : Fits .list l) (hr : Fits .chain r) :
      Fits .list (Tree.sequence l r)

namespace Fits
variable {rank : Rank} {t : Tree}

theorem isAbsent_eq_false (h : Fits rank t) : t.isAbsent = false := by
  induction h with
  | plain | group | pipe | connect | sequence => rfl
  | stage _ ih | pipeline _ ih | chain _ ih => exact ih

theorem to_list (h : Fits rank t) : Fits .list t := by
  cases rank with
  | stage => exact .chain (.pipeline (.stage h))
  | pipeline => exact .chain (.pipeline h)
  | chain => exact .chain h
  | list => exact h

theorem kind_of_stage (h : Fits .stage t) : t.kind? ∈ [some Kind.plain, some .subshell] := by
  cases h <;> simp [kind?, Tree.plain, Tree.subshell]

theorem kind_of_pipeline (h : Fits .pipeline t) :
    t.kind? ∈ [some Kind.pipe, some .plain, some .subshell] := by
  cases h with
  | stage h => exact List.mem_cons_of_mem _ h.kind_of_stage
  | pipe => exact List.mem_cons_self

theorem kind_of_chain (h : Fits .chain t) : t.kind? ≠ some .sequence := by
  cases h with
  | pipeline h =>
    intro he
    simpa [he] using h.kind_of_pipeline
  | connect hk => rcases hk with rfl | rfl <;> simp [kind?, Tree.binary]

theorem kind_not_connective (h : Fits .pipeline t) :
    t.kind? ∉ [some Kind.sequence, some .and, some .or] := by
  intro hm
  have hp := h.kind_of_pipeline
  simp only [List.mem_cons, List.not_mem_nil, or_false] at hm hp
  rcases hm with he | he | he <;> simp [he] at hp

/-- An operator between two valid trees makes a valid tree. -/
private theorem defect_binary {kind : Kind} {l r : Tree}
    (hk : kind ∈ [Kind.sequence, .and, .or, .pipe]) (hl : l.isAbsent = false)
    (hr : r.isAbsent = false) (dl : l.defect? = none) (dr : r.defect? = none) :
    (binary kind l r).defect? = none := by
  simp only [List.mem_cons, List.not_mem_nil, or_false] at hk
  rcases hk with rfl | rfl | rfl | rfl <;>
    simp [binary, defect?, Redirections.any, Redirections.none, hl, hr, dl, dr]

theorem defect_eq_none (h : Fits rank t) : t.defect? = none := by
  induction h with
  | plain => simp [Tree.plain, defect?]
  | group _ h ih => simp [Tree.subshell, defect?, h.isAbsent_eq_false, ih]
  | stage _ ih | pipeline _ ih | chain _ ih => exact ih
  | pipe hl hr ihl ihr =>
    exact defect_binary (by decide) hl.isAbsent_eq_false hr.isAbsent_eq_false ihl ihr
  | connect hk hl hr ihl ihr =>
    refine defect_binary ?_ hl.isAbsent_eq_false hr.isAbsent_eq_false ihl ihr
    rcases hk with rfl | rfl <;> decide
  | sequence hl hr ihl ihr =>
    exact defect_binary (by decide) hl.isAbsent_eq_false hr.isAbsent_eq_false ihl ihr

private theorem nodeShape_binary {kind : Kind} {l r : Tree} (hk : kind ≠ .plain)
    (hj : Joins kind l r) : NodeShape kind [] .none l r where
  plain he := absurd he hk
  wordless _ := rfl
  redirected ha := absurd ha (by decide)
  joined := hj

theorem nodeShape (h : Fits rank t) : t.Everywhere NodeShape := by
  induction h with
  | plain w ws files => exact ⟨⟨by simp, by simp, by simp, trivial⟩, trivial, trivial⟩
  | group _ _ ih => exact ⟨⟨by simp, by simp, by simp, trivial⟩, ih, trivial⟩
  | stage _ ih | pipeline _ ih | chain _ ih => exact ih
  | pipe hl hr ihl ihr =>
    exact ⟨nodeShape_binary (by decide) ⟨hl.kind_of_pipeline, hr.kind_of_stage⟩, ihl, ihr⟩
  | connect hk hl hr ihl ihr =>
    have hj := And.intro hl.kind_of_chain hr.kind_not_connective
    rcases hk with rfl | rfl
    · exact ⟨nodeShape_binary (by decide) hj, ihl, ihr⟩
    · exact ⟨nodeShape_binary (by decide) hj, ihl, ihr⟩
  | sequence hl hr ihl ihr =>
    exact ⟨nodeShape_binary (by decide) hr.kind_of_chain, ihl, ihr⟩

theorem pipeline_of_kind (h : Fits .list t)
    (hk : t.kind? ∈ [some Kind.pipe, some .plain, some .subshell]) : Fits .pipeline t := by
  cases h with
  | sequence => simp [kind?, Tree.sequence, Tree.binary] at hk
  | chain h =>
    cases h with
    | connect hc =>
      rcases hc with rfl | rfl <;> simp [kind?, Tree.binary] at hk
    | pipeline h => exact h

theorem stage_of_kind (h : Fits .list t) (hk : t.kind? ∈ [some Kind.plain, some .subshell]) :
    Fits .stage t := by
  cases h.pipeline_of_kind (List.mem_cons_of_mem _ hk) with
  | pipe => simp [kind?, Tree.pipe, Tree.binary] at hk
  | stage h => exact h

theorem chain_of_kind (h : Fits .list t) (hk : t.kind? ≠ some .sequence) : Fits .chain t := by
  cases h with
  | sequence => exact absurd rfl hk
  | chain h => exact h

theorem pipeline_of_not_connective (h : Fits .list t)
    (hk : t.kind? ∉ [some Kind.sequence, some .and, some .or]) : Fits .pipeline t := by
  cases h with
  | sequence => exact absurd List.mem_cons_self hk
  | chain h =>
    cases h with
    | connect hc => rcases hc with rfl | rfl <;> simp [kind?, Tree.binary] at hk
    | pipeline h => exact h

end Fits

private theorem files_eq_none {files : Redirections} (h : files.any = false) : files = .none := by
  obtain ⟨input, output, append, error⟩ := files
  simp_all [Redirections.any, Redirections.none]

/-- What validity says of an operator node. -/
theorem valid_binary {kind : Kind} {argv : List Bytes} {files : Redirections} {l r : Tree}
    (hk : kind ∈ [Kind.sequence, .and, .or, .pipe])
    (h : (node kind argv files l r).isValid = true) :
    files = .none ∧ l.isValid = true ∧ r.isValid = true := by
  have hd : (if files.any then some (Defect.redirected kind)
      else if l.isAbsent || r.isAbsent then some (.missingOperand kind)
      else l.defect?.or r.defect?) = none := by
    simp only [List.mem_cons, List.not_mem_nil, or_false] at hk
    rcases hk with rfl | rfl | rfl | rfl <;> simpa [isValid, defect?] using h
  have hf : files.any = false := by grind
  have ho : l.defect?.or r.defect? = none := by grind
  exact ⟨files_eq_none hf, by simpa [isValid] using Option.or_eq_none_iff.mp ho⟩

/-- The ranks of the grammar describe exactly the canonical trees. -/
theorem canonical_iff_fits {t : Tree} : Canonical t ↔ Fits .list t := by
  constructor
  · intro h
    induction t with
    | absent => exact absurd h.valid (by decide)
    | node kind argv files l r ihl ihr =>
      obtain ⟨hv, ⟨hw, hwl, hwr⟩, ⟨hj, hjl, hjr⟩⟩ := h
      have left (hl : l.isValid = true) : Fits .list l := ihl ⟨hl, hwl, hjl⟩
      have right (hr : r.isValid = true) : Fits .list r := ihr ⟨hr, hwr, hjr⟩
      cases kind with
      | plain =>
        cases argv with
        | nil => simp [isValid, defect?] at hv
        | cons w ws =>
          cases l with
          | node => simp [isValid, defect?] at hv
          | absent =>
            cases r with
            | node => simp [isValid, defect?] at hv
            | absent => exact (Fits.plain w ws files).to_list
      | subshell =>
        obtain rfl := hw (by decide)
        simp only [isValid, defect?, Option.isNone_iff_eq_none] at hv
        have hr : r.isAbsent = true := by grind
        have hl : l.isValid = true := by grind [isValid]
        cases r with
        | node => simp at hr
        | absent => exact (Fits.group files (left hl)).to_list
      | unknown n => simp [isValid, defect?] at hv
      | sequence =>
        obtain rfl := hw (by decide)
        obtain ⟨rfl, hl, hr⟩ := valid_binary (by decide) hv
        exact .sequence (left hl) ((right hr).chain_of_kind hj)
      | and =>
        obtain rfl := hw (by decide)
        obtain ⟨rfl, hl, hr⟩ := valid_binary (by decide) hv
        exact .chain (.connect (.inl rfl) ((left hl).chain_of_kind hj.1)
          ((right hr).pipeline_of_not_connective hj.2))
      | or =>
        obtain rfl := hw (by decide)
        obtain ⟨rfl, hl, hr⟩ := valid_binary (by decide) hv
        exact .chain (.connect (.inr rfl) ((left hl).chain_of_kind hj.1)
          ((right hr).pipeline_of_not_connective hj.2))
      | pipe =>
        obtain rfl := hw (by decide)
        obtain ⟨rfl, hl, hr⟩ := valid_binary (by decide) hv
        exact (Fits.pipe ((left hl).pipeline_of_kind hj.1)
          ((right hr).stage_of_kind hj.2)).to_list
  · intro h
    exact ⟨by simp [isValid, h.defect_eq_none],
      h.nodeShape.imp fun _ _ _ _ _ shape => shape.wordless,
      h.nodeShape.imp fun _ _ _ _ _ shape => shape.joined⟩

end CommandShell.Tree
