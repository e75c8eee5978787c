import CommandShell.Proofs.ExecutionStep
import CommandShell.Sandbox
import Mathlib

/-! A group without redirections is transparent. What a tree does is made of what its parts do, so a
group can be put around any part of any tree, or taken away, and under the policy that passes statuses
on nothing changes. -/
namespace CommandShell

/-- A tree with one hole. The hole can be an operand of any node, sensible or not. -/
inductive Context where
  | hole
  | left (kind : Kind) (argv : List Bytes) (files : Redirections) (inside : Context) (right : Tree)
  | right (kind : Kind) (argv : List Bytes) (files : Redirections) (left : Tree) (inside : Context)

/-- The tree with something in its hole. -/
def Context.fill : Context → Tree → Tree
  | hole, t => t
  | left kind argv files inside r, t => .node kind argv files (inside.fill t) r
  | right kind argv files l inside, t => .node kind argv files l (inside.fill t)

namespace Executor
variable {ex : Executor}

/-- What a node does depends on its operands only through what they do. -/
theorem execute_node_congr (kind : Kind) (argv : List Bytes) (files : Redirections) {l l' r r' : Tree}
    (hl : ex.execute l = ex.execute l') (hr : ex.execute r = ex.execute r') :
    ex.execute (.node kind argv files l r) = ex.execute (.node kind argv files l' r') := by
  funext streams
  cases kind with
  | plain | unknown => rfl
  | sequence | and | or | pipe | subshell => simp only [execute, hl, hr]

/-- Trees that do the same can take each other's place anywhere. -/
theorem execute_fill_congr (C : Context) {t t' : Tree} (h : ex.execute t = ex.execute t') :
    ex.execute (C.fill t) = ex.execute (C.fill t') := by
  induction C with
  | hole => exact h
  | left kind argv files inside r ih => exact execute_node_congr kind argv files ih rfl
  | right kind argv files l inside ih => exact execute_node_congr kind argv files rfl ih

/-- What a group without redirections comes to. -/
theorem run_subshell_none (ex : Executor) (argv : List Bytes) (n r : Tree) (streams : Streams)
    (s : Running) :
    (ex.execute (.node .subshell argv .none n r) streams).run s =
      let inner := (ex.execute n streams).run s
      (if ex.policy == .propagate then inner.1 else Status.success, inner.2) := by
  rw [run_subshell, redirected_none]
  rfl

theorem execute_subshell_none (h : ex.policy = .propagate) (argv : List Bytes) (n r : Tree) :
    ex.execute (.node .subshell argv .none n r) = ex.execute n := by
  funext streams
  refine StateT.ext fun s => ?_
  rw [run_subshell_none, h]
  rfl

/-- Under the policy that passes statuses on, a group without redirections can stand around any part
of a tree: the status and the whole state after the run are the same. Under any other policy the
group itself still leaves the same state, and succeeds. -/
theorem group_is_transparent (ex : Executor) (argv : List Bytes) (n r : Tree) :
    (ex.policy = .propagate → ∀ (C : Context) (streams : Streams) (s : Running),
      (ex.execute (C.fill (.node .subshell argv .none n r)) streams).run s =
        (ex.execute (C.fill n) streams).run s) ∧
    (ex.policy ≠ .propagate → ∀ (streams : Streams) (s : Running),
      (ex.execute (.node .subshell argv .none n r) streams).run s =
        (Status.success, ((ex.execute n streams).run s).2)) := by
  constructor
  · intro h C streams s
    rw [execute_fill_congr C (execute_subshell_none h argv n r)]
  · intro h streams s
    rw [run_subshell_none]
    simp [h]

/-- The left side of a connective, grouped or not, decides in the same way that its right side runs. -/
theorem group_is_transparent_or :
    let ex (policy : Policy) : Executor := { name := [], policy, programs := fun _ => .exit 3 }
    let failing : Tree := .plain ["/false"]
    let C : Context := .left .or [] {} .hole (.plain ["cd", "/home"])
    let disk := (({} : Disk).put ["home"] (.directory 0o755)).putFile ["false"] 0o755 Launch.imageMark
    let run (policy : Policy) (t : Tree) :=
      ((ex policy).execute t Sandbox.streams).run ⟨⟨"/", .empty⟩, Sandbox.start disk []⟩
    run .propagate (C.fill (.subshell failing)) = run .propagate (C.fill failing) ∧
      (run .propagate (C.fill failing)).2.here.dir = "/home" ∧
      run .discard (.subshell failing) = (Status.success, (run .discard failing).2) ∧
      (run .discard failing).1 = 3 :=
  ⟨(group_is_transparent { name := [], policy := .propagate, programs := fun _ => .exit 3 }
      [] (.plain ["/false"]) .absent).1 rfl (.left .or [] {} .hole (.plain ["cd", "/home"])) _ _,
    by cbv,
    (group_is_transparent { name := [], policy := .discard, programs := fun _ => .exit 3 }
      [] (.plain ["/false"]) .absent).2 (by decide) _ _,
    by cbv⟩

end Executor

end CommandShell
