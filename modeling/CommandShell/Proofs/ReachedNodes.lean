import CommandShell.Proofs.ExecutionStep

/-! Which simple commands and groups of a tree are reached when it is run, in what order, and what
each of them finds. -/
namespace CommandShell

/-- The simple commands and groups of a tree in the order in which they are written. -/
def Tree.commands : Tree → List Tree
  | .absent => []
  | .node kind argv files left right =>
    match kind with
    | .plain => [.node kind argv files left right]
    | .sequence | .and | .or | .pipe => left.commands ++ right.commands
    | .subshell => .node kind argv files left right :: left.commands
    | .unknown _ => []

/-- A tree that is about to be run, with the streams it is given and the state it finds. -/
structure Visit where
  node : Tree
  streams : Streams
  before : Running

/-- What comes of running it. -/
def Visit.run (ex : Executor) (v : Visit) : Status × Running :=
  (ex.execute v.node v.streams).run v.before

namespace Executor

/-- The simple commands and groups that are reached when a tree is run, as they are reached. -/
def visits (ex : Executor) : Tree → Streams → Running → List Visit
  | .absent, _, _ => []
  | .node kind argv files left right, streams, s =>
    let here : Visit := ⟨.node kind argv files left right, streams, s⟩
    match kind with
    | .plain => [here]
    | .sequence =>
      let done := (ex.execute left streams).run s
      ex.visits left streams s ++
        ex.visits right streams ((ex.reportSide streams "left" done.1).run done.2).2
    | .and =>
      let done := (ex.execute left streams).run s
      ex.visits left streams s ++
        if done.1 != Status.success then [] else ex.visits right streams done.2
    | .or =>
      let done := (ex.execute left streams).run s
      ex.visits left streams s ++
        if done.1 == Status.success then [] else ex.visits right streams done.2
    | .pipe =>
      match s.world.openPipe (pipeRoom streams s (ex.execute left) (ex.execute right)) with
      | (none, _) => []
      | (some ends, world) =>
        ex.visits left { streams with output := ends.write } ⟨s.here.fork, world⟩ ++
          ex.visits right { streams with input := ends.read }
            ⟨s.here.fork, leftSide (ex.execute left) streams s.here ends world⟩
    | .subshell =>
      here ::
        match (ex.openTargets argv (targets files) streams []).run s with
        | (none, _) => []
        | (some (inner, _), s) => ex.visits left inner s
    | .unknown _ => []

/-- No command is reached twice, and none before one that is written in front of it. -/
theorem sublist_visits (ex : Executor) (t : Tree) (streams : Streams) (s : Running) :
    ((ex.visits t streams s).map Visit.node).Sublist t.commands := by
  induction t generalizing streams s with
  | absent => exact .slnil
  | node kind argv files l r ihl ihr =>
    cases kind with
    | plain => exact .refl _
    | sequence =>
      rw [visits, List.map_append]
      exact (ihl ..).append (ihr ..)
    | and | or =>
      rw [visits, List.map_append]
      refine (ihl ..).append ?_
      split
      · exact List.nil_sublist _
      · exact ihr ..
    | pipe =>
      rw [visits]
      split
      · exact List.nil_sublist _
      · rw [List.map_append]
        exact (ihl ..).append (ihr ..)
    | subshell =>
      rw [visits, List.map_cons]
      refine .cons_cons _ ?_
      split
      · exact List.nil_sublist _
      · exact ihl ..
    | unknown => exact .slnil

end Executor

end CommandShell
