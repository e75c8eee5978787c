import CommandShell.CommandLine
import CommandShell.Proofs.ConcurrentRun
import CommandShell.Sandbox
import Mathlib

/-! Cutting a status down to a byte never makes a success of a failure. By itself the low byte does
forget failures, those whose status is a multiple of 256; none of these is ever reported, by any tree,
line or session. -/
namespace CommandShell

namespace Status

/-- An exit code, or the one status that stands for no exit code. -/
def Reportable (s : Int) : Prop := -1 ≤ s ∧ s ≤ 255

instance : DecidablePred Reportable :=
  fun s => inferInstanceAs (Decidable (-1 ≤ s ∧ s ≤ 255))

theorem exitCode_bounds (s : Int) : 0 ≤ exitCode s ∧ exitCode s ≤ 255 := by
  change 0 ≤ s % 256 ∧ s % 256 ≤ 255
  omega

/-- On the statuses that are reported, the low byte tells success from failure. -/
theorem Reportable.exitCode_eq_success_iff {s : Int} (h : Reportable s) :
    exitCode s = success ↔ s = success := by
  obtain ⟨hlow, hhigh⟩ := h
  change s % 256 = 0 ↔ s = 0
  omega

end Status

open Status (Reportable)

theorem Outcome.reportable_status (o : Outcome) : Reportable o.status := by
  cases o with
  | exited code =>
    have h := code.toNat_lt
    change -1 ≤ (code.toNat : Int) ∧ (code.toNat : Int) ≤ 255
    omega
  | killed => exact (by decide : Reportable Status.unknown)

namespace Behaviour
variable {α β : Type} {P : α → Prop} {Q : β → Prop} {x : Behaviour α}

/-- Whatever comes of something is of a kind. -/
structure Gives (P : α → Prop) (x : Behaviour α) : Prop where
  of_run : ∀ {here moves a there}, x here moves a there → P a

theorem gives_anything (x : Behaviour α) : Gives (fun _ => True) x := ⟨fun _ => trivial⟩

theorem gives_pure {a : α} (h : P a) : Gives P (pure a) where
  of_run := by
    rintro here moves b there ⟨-, rfl, -⟩
    exact h

theorem Gives.bind {f : α → Behaviour β} (hx : Gives P x) (hf : ∀ a, P a → Gives Q (f a)) :
    Gives Q (x >>= f) where
  of_run := by
    rintro here moves b there ⟨first, a, middle, rest, hfirst, hrest, -⟩
    exact (hf a (hx.of_run hfirst)).of_run hrest

theorem gives_after (x : Behaviour α) {f : α → Behaviour β} (h : ∀ a, Gives Q (f a)) :
    Gives Q (x >>= f) :=
  (gives_anything x).bind fun a _ => h a

theorem Gives.within (side : Side) (h : Gives P x) : Gives P (within side x) where
  of_run := by
    rintro here moves a there ⟨inner, hinner, -⟩
    exact h.of_run hinner

end Behaviour

open Behaviour

namespace Executor
variable (ex : Executor) (argv : List Bytes) (files : Redirections) (streams : Streams)
  (s : Running)

theorem reportable_redirected {body : Streams → Behaviour Status}
    (h : ∀ inner, Gives Reportable (body inner)) :
    Gives Reportable (Concurrent.redirected ex argv files streams body) := by
  refine gives_after _ fun result => ?_
  cases result with
  | none => exact gives_pure (by decide : Reportable Status.redirectFailed)
  | some result =>
    exact (h result.1).bind fun status hs => gives_after _ fun _ => gives_pure hs

theorem reportable_notStarted (subject reason : Bytes) {status : Status} (h : Reportable status) :
    Gives Reportable (Concurrent.notStarted ex streams argv subject reason status) :=
  gives_after _ fun _ => gives_after _ fun _ => gives_pure h

theorem reportable_spawn : Gives Reportable (Concurrent.spawn ex streams argv) := by
  have notFound : Reportable Status.execFailed := by decide
  refine gives_after _ fun here => gives_after _ fun result => ?_
  cases result with
  | error e => exact ex.reportable_notStarted argv streams _ _ notFound
  | ok path =>
    refine gives_after _ fun launched => ?_
    cases launched with
    | failed reason => exact ex.reportable_notStarted argv streams _ _ notFound
    | short e =>
      exact ex.reportable_notStarted argv streams _ _ (by decide : Reportable Status.unknown)
    | started number invocation =>
      exact gives_after _ fun result => gives_after _ fun _ => gives_after _ fun _ =>
        gives_pure result.2.reportable_status

theorem reportable_builtin (b : Builtin) :
    Gives Reportable (Concurrent.builtin ex streams argv b) := by
  cases b with
  | cd =>
    refine gives_after _ fun here => gives_after _ fun result => ?_
    cases result with
    | ok moved =>
      exact gives_after _ fun _ => gives_after _ fun _ => gives_after _ fun _ =>
        gives_pure (by decide : Reportable Status.success)
    | error e =>
      exact gives_after _ fun _ => gives_after _ fun _ =>
        gives_pure (by decide : Reportable Status.unknown)

theorem reportable_plain : Gives Reportable (Concurrent.plain ex argv files streams) := by
  cases argv with
  | nil => exact gives_after _ fun _ => gives_pure (by decide : Reportable Status.unknown)
  | cons name args =>
    rw [Concurrent.plain]
    cases Builtin.ofName? name with
    | some b => exact ex.reportable_builtin (name :: args) streams b
    | none =>
      exact ex.reportable_redirected (name :: args) files streams fun inner =>
        ex.reportable_spawn (name :: args) inner

theorem reportable_side (body : Behaviour Status) (handle : Nat) :
    Gives (fun status => 0 ≤ status ∧ status ≤ 255) (Concurrent.side body handle) :=
  gives_after _ fun _ => gives_after _ fun _ => gives_pure (Status.exitCode_bounds _)

theorem PipeRun.reportable {left right : Streams → Behaviour Status} {here : Surroundings}
    {moves : List Move} {status : Status} (h : PipeRun ex left right streams here moves status) :
    Reportable status := by
  cases h with
  | refused => exact (by decide : Reportable Status.unknown)
  | made _ _ hright =>
    obtain ⟨hlow, hhigh⟩ := (reportable_side _ _).of_run hright
    exact ⟨Int.le_trans (by decide) hlow, hhigh⟩

/-- A pipe is refused, or it reports an exit code that tells whether its right side succeeded. -/
theorem PipeRun.status_cases {ex : Executor} {streams : Streams} {left right : Streams → Behaviour Status}
    {here : Surroundings} {moves : List Move} {status : Status}
    (h : PipeRun ex left right streams here moves status)
    (hreportable : ∀ inner, Gives Reportable (right inner)) :
    (status = Status.unknown ∧ ∃ opening told, moves = opening ++ told ∧
      Concurrent.openPipe here opening none here) ∨
    (0 ≤ status ∧ status ≤ 255) ∧ ∃ (ends : World.PipeEnds) (rights : List Move) (last : Status)
      (place : Surroundings), right { streams with input := ends.read } here.fork rights last place ∧
        (rights.map (Move.within .right)).Sublist moves ∧
          (status = Status.success ↔ last = Status.success) := by
  cases h with
  | refused hopen => exact .inl ⟨rfl, _, _, rfl, hopen⟩
  | @made ends opening _ _ told closing _ _ _ _ _ _ hright hmoves =>
    refine .inr ⟨(reportable_side _ _).of_run hright, ends, ?_⟩
    obtain ⟨rights, last, place, rest, hr, ⟨_, _, _, _, -, ⟨rfl, rfl, rfl⟩, -⟩, rfl⟩ := hright
    have hrights : (rights.map (Move.within .right)).Sublist told :=
      ((List.sublist_append_left rights rest).map _).trans hmoves.sublist_right
    have htold : told.Sublist (opening ++ (told ++ closing)) :=
      (List.sublist_append_left told closing).trans (List.sublist_append_right opening _)
    exact ⟨rights, last, place, hr, hrights.trans htold,
      ((hreportable _).of_run hr).exitCode_eq_success_iff⟩

/-- Every tree, valid or not, reports an exit code or the status that stands for none. -/
theorem reportable_execute (t : Tree) (streams : Streams) :
    Gives Reportable (Concurrent.execute ex t streams) := by
  have unknown : Reportable Status.unknown := by decide
  induction t generalizing streams with
  | absent => exact gives_after _ fun _ => gives_pure unknown
  | node kind argv files l r ihl ihr =>
    cases kind with
    | plain => exact ex.reportable_plain argv files streams
    | sequence =>
      exact gives_after _ fun _ => gives_after _ fun _ => ((ihr streams).within .right).bind
        fun status hs => gives_after _ fun _ => gives_pure hs
    | and | or =>
      refine ((ihl streams).within .left).bind fun status hs => ?_
      split
      · exact gives_pure hs
      · exact (ihr streams).within .right
    | pipe => exact ⟨fun h => (pipeRun_of_pipe h).2.reportable⟩
    | subshell =>
      refine ex.reportable_redirected argv files streams fun inner => ?_
      refine ((ihl inner).within .left).bind fun status hs => gives_pure ?_
      split
      · exact hs
      · exact (by decide : Reportable Status.success)
    | unknown => exact gives_after _ fun _ => gives_pure unknown

/-- The run of `execute` is one of those in which both sides of a pipe are at work. -/
theorem reportable_run_execute (t : Tree) (streams : Streams) (s : Running) :
    Reportable ((ex.execute t streams).run s).1 := by
  obtain ⟨moves, hrun, -⟩ := ex.realizes_execute t streams s
  exact (ex.reportable_execute t streams).of_run hrun

/-- What a pipe reports: the exit code of its right side, which runs on what the left side leaves, or
no exit code at all if there can be no pipe. -/
theorem status_pipe (left right : Streams → Run Status) :
    ∃ room, match s.world.openPipe room with
      | (none, _) => ((ex.pipe left right streams).run s).1 = Status.unknown
      | (some ends, opened) =>
        let middle := leftSide left streams s.here ends opened
        ((ex.pipe left right streams).run s).1 = Status.exitCode
          ((right { streams with input := ends.read }).run ⟨s.here.fork, middle⟩).1 := by
  refine ⟨pipeRoom streams s left right, ?_⟩
  rw [run_pipe, pipeResult, pipeWith]
  rcases s.world.openPipe (pipeRoom streams s left right) with ⟨_ | ends, opened⟩ <;> rfl

end Executor

namespace Session
variable (s : Session)

theorem reportable_runLine (line : Bytes) {st : State} (h : Reportable st.last) :
    Reportable (s.runLine line st).last := by
  unfold runLine runLineBy
  split
  · exact (by decide : Reportable Status.badLine)
  · exact h
  · exact s.executor.reportable_run_execute ..

theorem last_banner (text : Bytes) (st : State) : (s.banner text st).last = st.last := by
  unfold banner
  split <;> rfl

/-- A reading leads to a status that is reportable, at the end of the session or before it. -/
theorem reportable_handle (reading : Reading) {st : State} (h : Reportable st.last) :
    (∀ status ∈ (s.handle reading st).1, Reportable status) ∧
      Reportable (s.handle reading st).2.last := by
  cases reading with
  | ended =>
    refine ⟨?_, ?_⟩
    · rintro status ⟨⟩
      exact h
    · rw [handle, last_banner]
      exact h
  | interrupted => exact ⟨by simp [handle], h⟩
  | failed reason =>
    refine ⟨?_, h⟩
    rintro status ⟨⟩
    exact (by decide : Reportable Status.unknown)
  | line text =>
    refine ⟨by simp [handle], ?_⟩
    rw [handle]
    split
    · exact h
    · exact s.reportable_runLine text h

theorem reportable_follow (readings : List Reading) {st : State} (h : Reportable st.last) :
    Reportable (s.follow readings st).status := by
  induction readings generalizing st with
  | nil => exact h
  | cons reading rest ih =>
    have hr := s.reportable_handle reading h
    rw [follow]
    split
    · next status _ he => exact hr.1 status (by rw [he]; rfl)
    · next after he =>
      rw [he] at hr
      exact ih hr.2

theorem reportable_run (readings : List Reading) {st : State} (h : Reportable st.last) :
    Reportable (s.run readings st).status := by
  refine s.reportable_follow readings ?_
  rw [welcome, last_banner]
  exact h

theorem last_readLine (st : State) : (s.readLine st).2.last = st.last := rfl

theorem reportable_readAndRun (n : Nat) {st : State} (h : Reportable st.last) :
    Reportable (s.readAndRun n st).1 := by
  induction n generalizing st with
  | zero => exact h
  | succ n ih =>
    have hl : Reportable (s.readLine st).2.last := by rwa [last_readLine]
    have hr := s.reportable_handle (s.readLine st).1 hl
    rw [readAndRun]
    dsimp only
    split
    · next status _ he => exact hr.1 status (by rw [he]; rfl)
    · next after he =>
      rw [he] at hr
      exact ih hr.2

theorem reportable_runInput (n : Nat) {st : State} (h : Reportable st.last) :
    Reportable (s.runInput n st).1 := by
  refine s.reportable_readAndRun _ ?_
  rw [welcome, last_banner]
  exact h

end Session

namespace CommandLine.Host
variable (host : Host) (o : Options) (w : World)

theorem reportable_runSession (s : Session) : Reportable (host.runSession o s w).1 := by
  have start : Reportable Status.success := by decide
  cases h : o.command with
  | some line =>
    rw [runSession_command h]
    exact s.reportable_runLine line start
  | none =>
    rw [runSession_input h]
    exact s.reportable_runInput host.lines start

/-- The shell fails to start, or runs a session and ends with its exit code. -/
theorem runShell_cases :
    (∃ e w', host.runShell o w = failed w' e) ∨
      ∃ c w₁ recorder w₂ s, host.loadConfig o w = (.ok c, w₁) ∧
        host.openRecorder c w₁ = (.ok recorder, w₂) ∧
        Session.make c recorder host.programs host.streams = .ok s ∧
        (host.runShell o w).error = none ∧
        (host.runShell o w).exit = Status.exitCode (host.runSession o s w₂).1 := by
  unfold runShell
  split
  · exact .inl ⟨_, _, rfl⟩
  · next c w₁ hload =>
    split
    · exact .inl ⟨_, _, rfl⟩
    · next recorder w₂ hopen =>
      split
      · exact .inl ⟨_, _, rfl⟩
      · next s hs => exact .inr ⟨c, w₁, recorder, w₂, s, hload, hopen, hs, rfl, rfl⟩

end CommandLine.Host

/-- Success and failure survive the cut to a byte. Every tree reports an exit code or no exit code at
all, whatever order the sides of its pipes do their work in. A pipe that can be made reports an exit code,
which is success if and only if its right side succeeds, and one that cannot be made has none. A session
keeps to such statuses whatever is read, and once it has ended it does not matter how many lines more it
could have read. So the shell's own exit code is zero if and only if the line or the session that it ran
succeeded. -/
theorem exit_code_keeps_failure (ex : Executor) (session : Session) (host : CommandLine.Host) :
    (∀ t streams here moves status there,
      Executor.Concurrent.execute ex t streams here moves status there →
        (-1 ≤ status ∧ status ≤ 255) ∧ (status = 0 ↔ Status.exitCode status = 0)) ∧
    (∀ t streams s, let status := ((ex.execute t streams).run s).1
      (-1 ≤ status ∧ status ≤ 255) ∧ (status = 0 ↔ Status.exitCode status = 0)) ∧
    (∀ argv files l r streams here moves status there,
      Executor.Concurrent.execute ex (.node .pipe argv files l r) streams here moves status there →
        (status = -1 ∧ ∃ opening told, moves = opening ++ told ∧
          Executor.Concurrent.openPipe here opening none here) ∨
        (0 ≤ status ∧ status ≤ 255) ∧ ∃ (ends : World.PipeEnds) (rights : List Move) (right : Status)
          (place : Surroundings), Executor.Concurrent.execute ex r { streams with input := ends.read }
            here.fork rights right place ∧ (rights.map (Move.within .right)).Sublist moves ∧
              (status = 0 ↔ right = 0)) ∧
    (∀ argv files l r streams s,
      let status := ((ex.execute (.node .pipe argv files l r) streams).run s).1
      ∃ room, match s.world.openPipe room with
        | (none, _) => status = -1
        | (some ends, opened) =>
          let middle := Executor.leftSide (ex.execute l) streams s.here ends opened
          let right := (ex.execute r { streams with input := ends.read }).run ⟨s.here.fork, middle⟩
          (0 ≤ status ∧ status ≤ 255) ∧ (status = 0 ↔ right.1 = 0)) ∧
    (∀ st : Session.State, Reportable st.last → ∀ line readings n,
      (∀ status ∈ [(session.runLine line st).last, (session.run readings st).status,
        (session.runInput n st).1], (-1 ≤ status ∧ status ≤ 255) ∧
          (Status.exitCode status = 0 ↔ status = 0)) ∧
      (session.endsWithin n (session.welcome st) → ∀ m ≥ n,
        session.runInput m st = session.runInput n st)) ∧
    ∀ o w, let result := host.runShell o w
      (∃ e, result.error = some e ∧ result.exit = 1) ∨
        ∃ c w₁ recorder w₂ s, host.loadConfig o w = (.ok c, w₁) ∧
          host.openRecorder c w₁ = (.ok recorder, w₂) ∧
          Session.make c recorder host.programs host.streams = .ok s ∧
          let start := host.opening w₂
          let status := match o.command with
            | some line => (s.runLine line start).last
            | none => (s.runInput host.lines start).1
          result.error = none ∧ result.exit = Status.exitCode status ∧
            (result.exit = 0 ↔ status = 0) := by
  refine ⟨?_, ?_, ?_, ?_, ?_, ?_⟩
  · intro t streams here moves status there hrun
    have h := (ex.reportable_execute t streams).of_run hrun
    exact ⟨h, h.exitCode_eq_success_iff.symm⟩
  · intro t streams s status
    have h := ex.reportable_run_execute t streams s
    exact ⟨h, h.exitCode_eq_success_iff.symm⟩
  · intro argv files l r streams here moves status there hrun
    exact (Executor.pipeRun_of_pipe hrun).2.status_cases (ex.reportable_execute r)
  · intro argv files l r streams s status
    obtain ⟨room, h⟩ := ex.status_pipe streams s (ex.execute l) (ex.execute r)
    refine ⟨room, ?_⟩
    split at h
    · exact h
    · next ends opened _ =>
      have hright := ex.reportable_run_execute r { streams with input := ends.read }
        ⟨s.here.fork, Executor.leftSide (ex.execute l) streams s.here ends opened⟩
      have hstatus : status = Status.exitCode _ := h
      rw [hstatus]
      exact ⟨Status.exitCode_bounds _, hright.exitCode_eq_success_iff⟩
  · intro st hst line readings n
    refine ⟨fun status hm => ?_, fun hends m hm => ?_⟩
    · have h : Reportable status := by
        simp only [List.mem_cons, List.not_mem_nil, or_false] at hm
        rcases hm with rfl | rfl | rfl
        · exact session.reportable_runLine line hst
        · exact session.reportable_run readings hst
        · exact session.reportable_runInput n hst
      exact ⟨h, h.exitCode_eq_success_iff⟩
    · exact session.readAndRun_of_endsWithin hends hm
  · intro o w result
    obtain ⟨e, w', h⟩ | ⟨c, w₁, recorder, w₂, s, hload, hopen, hs, herror, hexit⟩ :=
      host.runShell_cases o w
    · exact .inl ⟨e, congrArg CommandLine.Result.error h, congrArg CommandLine.Result.exit h⟩
    · refine .inr ⟨c, w₁, recorder, w₂, s, hload, hopen, hs, ?_⟩
      have hreportable := (host.reportable_runSession o w₂ s).exitCode_eq_success_iff
      have hresult : result.exit = Status.exitCode (host.runSession o s w₂).1 := hexit
      cases hc : o.command with
      | some line =>
        rw [CommandLine.Host.runSession_command hc] at hreportable hresult
        exact ⟨herror, hresult, by rw [hresult]; exact hreportable⟩
      | none =>
        rw [CommandLine.Host.runSession_input hc] at hreportable hresult
        exact ⟨herror, hresult, by rw [hresult]; exact hreportable⟩

/-- A command that is killed has no exit code, and a pipe makes 255 of that. -/
theorem exit_code_keeps_failure_killed :
    let ex : Executor := { name := [], programs := fun _ => .die }
    let session : Session := { config := {}, aliases := ⟨[]⟩, executor := ex, streams := Sandbox.streams }
    let disk := ({} : Disk).putFile ["die"] 0o755 Launch.imageMark
    let s : Running := ⟨⟨"/", .empty⟩, Sandbox.start disk []⟩
    let pipe : Tree := .pipe (.plain ["cd", "/"]) (.plain ["/die"])
    let killed := ((ex.execute pipe Sandbox.streams).run s).1
    let last := (session.runLine "'/die'" { running := s }).last
    (killed = 255 ∧ (killed = 0 ↔ Status.exitCode killed = 0)) ∧ Reportable Status.success ∧
      last = -1 ∧ (Status.exitCode last = 0 ↔ last = 0) := by
  intro ex session disk s pipe killed last
  have h := exit_code_keeps_failure ex session
    { env := .empty, dir := "/", place := [], streams := Sandbox.streams, programs := fun _ => .die,
      session := [], lines := 1 }
  refine ⟨⟨?_, (h.2.1 pipe Sandbox.streams s).2⟩, by decide, ?_,
    ((h.2.2.2.2.1 { running := s } (by decide) "'/die'" [] 0).1 last (List.mem_cons_self ..)).2⟩
  · subst killed ex pipe s disk
    cbv
  · subst last session ex s disk
    cbv

/-- A pipe that cannot be made. -/
theorem exit_code_keeps_failure_refused :
    let ex : Executor := { name := [], programs := fun _ => .exit 0 }
    let s : Running := ⟨⟨"/", .empty⟩, { Sandbox.start {} [] with outages := [true] }⟩
    let status := ((ex.execute (.pipe (.plain ["cd"]) (.plain ["cd"])) Sandbox.streams).run s).1
    status = -1 ∧ ¬(0 ≤ status ∧ status ≤ 255) := by
  intro ex s status
  have h : status = -1 := by
    subst status ex s
    cbv
  exact ⟨h, by rw [h]; decide⟩

end CommandShell
