import CommandShell.Execution

/-! What running a tree comes to: one equation for each thing the executor does, from the state before
to the status and the state after. -/
namespace CommandShell.Executor
variable (ex : Executor) (argv : List Bytes) (files : Redirections) (l r : Tree) (streams : Streams)
  (s : Running)

theorem run_reportSide (side : Bytes) (status : Status) :
    (ex.reportSide streams side status).run s =
      if status != Status.success then
        (ex.say streams (side ++ " side of sequence exited with status " ++
          Bytes.ofInt status)).run s
      else ((), s) := by
  unfold reportSide
  split <;> rfl

/-! Redirections. -/

/-- What is left of a redirection whose target could not be opened. -/
def redirectionFailed (target : Target) (path : Bytes) (e : PathError) (opened : List Nat) :
    Running :=
  let reason := "open " ++ path ++ ": " ++ e.message
  let failure : RedirectFailure :=
    { command := if argv.isEmpty then none else some argv, path := target.path, error := reason }
  let s := ((ex.say streams ("error opening " ++ target.title ++ " file: " ++ reason)).run s).2
  let s := ((ex.record (.redirectFailure failure)).run s).2
  { s with world := opened.foldl World.close s.world }

section
variable {ex argv streams s} {opened : List Nat} {target : Target} {rest : List Target}
  {world : World}

theorem run_openTargets_ok {handle : Nat}
    (h : s.world.openPath target.access [] (Path.resolve s.here.dir target.path) =
      (.ok handle, world)) :
    (ex.openTargets argv (target :: rest) streams opened).run s =
      (ex.openTargets argv rest (target.slot.set streams handle) (opened ++ [handle])).run
        { s with world } := by
  have ho : (openPath target.access (Path.resolve s.here.dir target.path)).run s =
      (.ok handle, { s with world }) := by
    simp only [openPath, StateT.run_modifyGet, h]
    rfl
  rw [openTargets]
  simp only [StateT.run_bind, StateT.run_get, pure_bind, ho]
  rfl

theorem run_openTargets_error {e : PathError}
    (h : s.world.openPath target.access [] (Path.resolve s.here.dir target.path) =
      (.error e, world)) :
    (ex.openTargets argv (target :: rest) streams opened).run s =
      (none, ex.redirectionFailed argv streams { s with world } target
        (Path.resolve s.here.dir target.path) e opened) := by
  have ho : (openPath target.access (Path.resolve s.here.dir target.path)).run s =
      (.error e, { s with world }) := by
    simp only [openPath, StateT.run_modifyGet, h]
    rfl
  rw [openTargets]
  simp only [StateT.run_bind, StateT.run_get, pure_bind, ho]
  rfl

end

/-- A refusal is told to the error stream, whatever the others have become by then. -/
theorem redirectionFailed_congr {streams' : Streams} (h : streams'.error = streams.error)
    (target : Target) (path : Bytes) (e : PathError) (opened : List Nat) :
    ex.redirectionFailed argv streams' s target path e opened =
      ex.redirectionFailed argv streams s target path e opened := by
  simp only [redirectionFailed, say, h]

/-- Nothing is opened behind the target for the error stream. -/
theorem slot_ne_error_of_targets {before rest : List Target} {failing : Target}
    (h : targets files = before ++ failing :: rest) : ∀ target ∈ before, target.slot ≠ .error := by
  have hpairs : (targets files).Pairwise fun target _ => target.slot ≠ .error := by
    refine List.Pairwise.filter _ ?_
    simp
  rw [h] at hpairs
  intro target hm
  exact (List.pairwise_append.mp hpairs).2.2 target hm failing List.mem_cons_self

theorem run_redirected (body : Streams → Run Status) :
    (ex.redirected argv files streams body).run s =
      match (ex.openTargets argv (targets files) streams []).run s with
      | (none, s) => (Status.redirectFailed, s)
      | (some (inner, opened), s) =>
        let after := (body inner).run s
        (after.1, { after.2 with world := opened.foldl World.close after.2.world }) := by
  rw [redirected, StateT.run_bind]
  rcases (ex.openTargets argv (targets files) streams []).run s with ⟨_ | ⟨inner, opened⟩, s⟩
    <;> rfl

/-- Without targets there is nothing to open and nothing to close. -/
theorem redirected_none (body : Streams → Run Status) :
    ex.redirected argv .none streams body = body streams := rfl

/-! Simple commands. -/

/-- The world in which a program runs, and what becomes of it. -/
theorem run_runProgram (path dir : Bytes) (invocation : Invocation) :
    (ex.runProgram streams argv path dir invocation).run s =
      let number := s.world.started + 1
      let world := ex.recorder.record "event"
        (.runCommand { command := some argv, path, dir, pid := number }) s.world.begin
      let after := (ex.programs invocation).run streams invocation.dir world
      let status := after.1.status
      let world := ex.recorder.record "event"
        (.commandExit { command := some argv, pid := number, status, signaled := after.1 == .killed })
        (after.2.tell (.ended number))
      (status, { s with world }) := rfl

theorem run_spawn :
    (ex.spawn streams argv).run s =
      match Search.lookup s.world.disk s.here.env s.here.dir (argv.headD []) with
      | .error e => (ex.execFailed streams argv e.message).run s
      | .ok path =>
        match Launch.prepare s.world.disk s.here.dir path argv s.here.env.listing with
        | .error e => (ex.execFailed streams argv e.message).run s
        | .ok invocation =>
          match ex.shortage invocation with
          | some e => (ex.forkFailed streams argv path e).run s
          | none => (ex.runProgram streams argv path s.here.dir invocation).run s := by
  obtain ⟨here, world⟩ := s
  rw [spawn, StateT.run_bind, StateT.run_get, pure_bind]
  dsimp only
  cases Search.lookup world.disk here.env here.dir (argv.headD []) with
  | error e => rfl
  | ok path =>
    dsimp only
    cases Launch.prepare world.disk here.dir path argv here.env.listing with
    | error e => rfl
    | ok invocation =>
      dsimp only
      cases ex.shortage invocation <;> rfl

theorem run_cd :
    (ex.builtin streams argv .cd).run s =
      match ChangeDirectory.run s.world.disk s.here argv.tail with
      | .ok (text, here) =>
        (Status.success, ((ex.record (.builtin { command := some argv })).run
          { here, world := s.world.print streams.output text }).2)
      | .error e =>
        (Status.unknown, ((ex.record
          (.builtin { command := some argv, status := Status.unknown, error := e.message })).run
            ((ex.say streams (argv.headD [] ++ ": " ++ e.message)).run s).2).2) := by
  obtain ⟨here, world⟩ := s
  rw [builtin, StateT.run_bind, StateT.run_get, pure_bind]
  dsimp only
  cases ChangeDirectory.run world.disk here argv.tail <;> rfl

theorem run_plain_cons (name : Bytes) (args : List Bytes) :
    (ex.plain (name :: args) files streams).run s =
      match Builtin.ofName? name with
      | some b => (ex.builtin streams (name :: args) b).run s
      | none => (ex.redirected (name :: args) files streams fun inner =>
          ex.spawn inner (name :: args)).run s := by
  rw [plain]
  split <;> simp_all

/-! Operators and groups. -/

theorem run_sequence :
    (ex.execute (.node .sequence argv files l r) streams).run s =
      let left := (ex.execute l streams).run s
      let middle := ((ex.reportSide streams "left" left.1).run left.2).2
      let right := (ex.execute r streams).run middle
      (right.1, ((ex.reportSide streams "right" right.1).run right.2).2) := rfl

theorem run_and :
    (ex.execute (.node .and argv files l r) streams).run s =
      let left := (ex.execute l streams).run s
      if left.1 != Status.success then left else (ex.execute r streams).run left.2 := by
  rw [execute, StateT.run_bind]
  obtain ⟨status, s⟩ := (ex.execute l streams).run s
  change StateT.run (if status != Status.success then _ else _) s =
    if status != Status.success then _ else _
  cases status != Status.success <;> rfl

theorem run_or :
    (ex.execute (.node .or argv files l r) streams).run s =
      let left := (ex.execute l streams).run s
      if left.1 == Status.success then left else (ex.execute r streams).run left.2 := by
  rw [execute, StateT.run_bind]
  obtain ⟨status, s⟩ := (ex.execute l streams).run s
  change StateT.run (if status == Status.success then _ else _) s =
    if status == Status.success then _ else _
  cases status == Status.success <;> rfl

theorem run_subshell :
    (ex.execute (.node .subshell argv files l r) streams).run s =
      (ex.redirected argv files streams fun inner => do
        let status ← ex.execute l inner
        return if ex.policy == .propagate then status else Status.success).run s := rfl

/-- What a pipe comes to, given how much its left side may leave unread. -/
def pipeResult (left right : Streams → Run Status) (room : Option Nat) : Status × Running :=
  match pipeWith left right streams room s with
  | .ok p => (p.status, p.after)
  | .error after =>
    (Status.unknown, ((ex.say streams ("pipe: pipe2: " ++ PathError.tooManyFiles.message)).run
      after).2)

/-- How much the left side of a pipe may leave unread: the pipe's capacity more than the right side
reads, if it would leave more than that. -/
def pipeRoom (left right : Streams → Run Status) : Option Nat :=
  match pipeWith left right streams none s with
  | .ok p =>
    if p.unread ≤ pipeCapacity then none else some (p.written - p.unread + pipeCapacity)
  | .error _ => none

theorem run_pipe (left right : Streams → Run Status) :
    (ex.pipe left right streams).run s =
      ex.pipeResult streams s left right (pipeRoom streams s left right) := by
  simp only [pipe, StateT.run_bind, StateT.run_get, pure_bind]
  rw [pipeResult, pipeRoom]
  cases hf : pipeWith left right streams none s with
  | error after =>
    simp only [hf]
    rfl
  | ok p =>
    by_cases hc : p.unread ≤ pipeCapacity
    · simp only [hc, if_true, hf]
      rfl
    · simp only [hc, if_false]
      cases pipeWith left right streams (some (p.written - p.unread + pipeCapacity)) s <;> rfl

/-- A pipe changes no surroundings but those of its sides. -/
theorem here_pipeResult (left right : Streams → Run Status) (room : Option Nat) :
    (ex.pipeResult streams s left right room).2.here = s.here := by
  rw [pipeResult, pipeWith]
  obtain ⟨_ | ends, opened⟩ := s.world.openPipe room <;> rfl

end CommandShell.Executor
