import CommandShell.Proofs.ExecutionStep
import Mathlib.Data.List.Forall2

/-! Chains and the ways of bracketing them. A chain of short circuits does the same however it is
bracketed, and so does a sequence all of whose commands succeed. -/
namespace CommandShell

/-- A tree that joins a list of trees, in order, by nodes of one kind. The words and redirections of
the nodes are arbitrary. -/
inductive Bracketing (kind : Kind) : List Tree → Tree → Prop where
  | leaf (t : Tree) : Bracketing kind [t] t
  | join {ls rs : List Tree} {l r : Tree} (argv : List Bytes) (files : Redirections)
      (hl : Bracketing kind ls l) (hr : Bracketing kind rs r) :
      Bracketing kind (ls ++ rs) (.node kind argv files l r)

/-- The tree that leans to the left is one way of bracketing. -/
theorem Bracketing.leftLeaning (kind : Kind) (t : Tree) (ts : List Tree) :
    Bracketing kind (t :: ts) (ts.foldl (Tree.binary kind) t) := by
  have hall {ls : List Tree} {l : Tree} (h : Bracketing kind ls l) (rs : List Tree) :
      Bracketing kind (ls ++ rs) (rs.foldl (Tree.binary kind) l) := by
    induction rs generalizing ls l with
    | nil => simpa using h
    | cons r rs ih =>
      have hnext := ih (.join [] .none h (.leaf r))
      rwa [List.append_assoc] at hnext
  exact hall (.leaf t) ts

/-- If what a node means is made by an associative operation of what its operands mean, then a tree
means the product of its leaves, however they are bracketed. Of a node more may be known than of a
leaf. -/
theorem Bracketing.product {α : Type} {kind : Kind} {ts : List Tree} {t : Tree}
    (h : Bracketing kind ts t) (op : α → α → α) [Std.Associative op] {means joined : α → Tree → Prop}
    (hmeans : ∀ {a : α} {t : Tree}, joined a t → means a t)
    (hjoin : ∀ {a b : α} {l r : Tree} (argv : List Bytes) (files : Redirections),
      means a l → means b r → joined (op a b) (.node kind argv files l r))
    {values : List α} (hleaf : List.Forall₂ means values ts) :
    ∃ a rest, values = a :: rest ∧ means (rest.foldl op a) t ∧
      (2 ≤ ts.length → joined (rest.foldl op a) t) := by
  induction h generalizing values with
  | leaf t =>
    cases hleaf with
    | cons ht hnil =>
      cases hnil
      exact ⟨_, [], rfl, ht, fun hlen => absurd hlen (by simp)⟩
  | join argv files _ _ ihl ihr =>
    obtain ⟨a, as, ha, hl, -⟩ := ihl (List.forall₂_take_append _ _ _ hleaf)
    obtain ⟨b, bs, hb, hr, -⟩ := ihr (List.forall₂_drop_append _ _ _ hleaf)
    have hfold : (as ++ b :: bs).foldl op a = op (as.foldl op a) (bs.foldl op b) := by
      rw [List.foldl_append, List.foldl_cons, List.foldl_assoc]
    have hnode := hfold ▸ hjoin argv files hl hr
    refine ⟨a, as ++ b :: bs, ?_, hmeans hnode, fun _ => hnode⟩
    rw [← List.cons_append, ← ha, ← hb, List.take_append_drop]

namespace Executor
variable {ex : Executor} {streams : Streams} {ts : List Tree} {t t' : Tree}

/-! Short circuits. -/

/-- One thing and then another, unless `stop` says of the first status that it is enough. -/
def andThen (stop : Status → Bool) (first second : Running → Status × Running) (s : Running) :
    Status × Running :=
  let left := first s
  if stop left.1 then left else second left.2

instance (stop : Status → Bool) : Std.Associative (andThen stop) where
  assoc a b c := by
    funext s
    unfold andThen
    by_cases h : stop (a s).1 <;> simp [h]

/-- A chain of which every node goes on unless the status of its left operand is enough. -/
theorem execute_eq_of_stop {kind : Kind} (stop : Status → Bool)
    (hrun : ∀ (argv : List Bytes) (files : Redirections) (l r : Tree) (streams : Streams) (s : Running),
      (ex.execute (.node kind argv files l r) streams).run s =
        andThen stop (ex.execute l streams).run (ex.execute r streams).run s)
    (h : Bracketing kind ts t) (h' : Bracketing kind ts t') : ex.execute t = ex.execute t' := by
  funext streams
  refine StateT.ext fun s => congrFun ?_ s
  let means (run : Running → Status × Running) (t : Tree) := (ex.execute t streams).run = run
  have hjoin {a b : Running → Status × Running} {l r : Tree} (argv : List Bytes)
      (files : Redirections) (hl : means a l) (hr : means b r) :
      means (andThen stop a b) (.node kind argv files l r) := by
    refine funext fun s => ?_
    rw [hrun, hl, hr]
  have hleaf : List.Forall₂ means (ts.map fun t => (ex.execute t streams).run) ts :=
    List.forall₂_map_left_iff.mpr (List.forall₂_same.mpr fun _ _ => rfl)
  obtain ⟨a, rest, he, hm, -⟩ := h.product (andThen stop) id hjoin hleaf
  obtain ⟨a', rest', he', hm', -⟩ := h'.product (andThen stop) id hjoin hleaf
  obtain ⟨rfl, rfl⟩ := List.cons_eq_cons.mp (he.symm.trans he')
  exact hm.trans hm'.symm

theorem execute_and_eq (h : Bracketing .and ts t) (h' : Bracketing .and ts t') :
    ex.execute t = ex.execute t' :=
  execute_eq_of_stop (· != Status.success) (fun _ _ _ _ _ _ => run_and ..) h h'

theorem execute_or_eq (h : Bracketing .or ts t) (h' : Bracketing .or ts t') :
    ex.execute t = ex.execute t' :=
  execute_eq_of_stop (· == Status.success) (fun _ _ _ _ _ _ => run_or ..) h h'

/-! Sequences. -/

/-- Every tree reports success when they are run one after the other. -/
def AllSucceed (ex : Executor) (streams : Streams) : List Tree → Running → Prop
  | [], _ => True
  | t :: rest, s =>
    let first := (ex.execute t streams).run s
    first.1 = Status.success ∧ ex.AllSucceed streams rest first.2

/-- The state after trees have been run one after the other. -/
def runAll (ex : Executor) (streams : Streams) (ts : List Tree) (s : Running) : Running :=
  ts.foldl (fun s t => ((ex.execute t streams).run s).2) s

theorem allSucceed_append {ls rs : List Tree} {s : Running} :
    ex.AllSucceed streams (ls ++ rs) s ↔
      ex.AllSucceed streams ls s ∧ ex.AllSucceed streams rs (ex.runAll streams ls s) := by
  induction ls generalizing s with
  | nil => simp [AllSucceed, runAll]
  | cons t ls ih =>
    simp only [List.cons_append, AllSucceed, ih, and_assoc]
    rfl

/-- If its operands succeed, such a node runs one after the other and reports nothing. -/
theorem run_both_succeed {kind : Kind} (hk : kind = .sequence ∨ kind = .and) (argv : List Bytes)
    (files : Redirections) {l r : Tree} {s mid last : Running}
    (hl : (ex.execute l streams).run s = (Status.success, mid))
    (hr : (ex.execute r streams).run mid = (Status.success, last)) :
    (ex.execute (.node kind argv files l r) streams).run s = (Status.success, last) := by
  rcases hk with rfl | rfl
  · rw [run_sequence, hl]
    simp only [run_reportSide, bne_self_eq_false, Bool.false_eq_true, if_false, hr]
  · rw [run_and, hl]
    exact hr

theorem run_eq_of_allSucceed {kind : Kind} (hk : kind = .sequence ∨ kind = .and)
    (h : Bracketing kind ts t) {s : Running} (hs : ex.AllSucceed streams ts s) :
    (ex.execute t streams).run s = (Status.success, ex.runAll streams ts s) := by
  induction h generalizing s with
  | leaf t => exact Prod.ext hs.1 rfl
  | join argv files _ _ ihl ihr =>
    obtain ⟨hl, hr⟩ := allSucceed_append.mp hs
    rw [run_both_succeed hk argv files (ihl hl) (ihr hr), runAll, runAll, runAll, List.foldl_append]

end Executor

end CommandShell
