import CommandShell.Proofs.Counting
import CommandShell.Proofs.CutLog
import CommandShell.Proofs.ReachedNodes
import CommandShell.Report
import CommandShell.Sandbox
import Mathlib.Data.List.Forall2

/-! The events account for every command: each simple command that is reached leaves the events of one
way in which a command can end, a group leaves one if its redirections failed, and nothing else leaves
any. So whatever is started is seen to end, and a report counts as many ends as starts. -/
namespace CommandShell

/-! Only the recorder adds events. -/

namespace World
variable (w : World)

@[simp] theorem events_tell (e : Happening) : (w.tell e).events = w.events := rfl

@[simp] theorem events_begin : w.begin.events = w.events := rfl

@[simp] theorem events_consume (h n : Nat) : (w.consume h n).events = w.events := by
  unfold consume
  split
  · split
    · rfl
    · rfl
    · split <;> rfl
  · rfl

@[simp] theorem events_write (h : Nat) (s : Bytes) : (w.write h s).2.events = w.events := by
  unfold write
  split
  · rfl
  · split
    · split
      · rfl
      · rfl
      · split
        · rfl
        · split
          · rfl
          · split <;> rfl
    · rfl

@[simp] theorem events_print (h : Nat) (s : Bytes) : (w.print h s).events = w.events :=
  w.events_write h s

@[simp] theorem events_copy (source target : Nat) : (w.copy source target).2.events = w.events := by
  unfold copy
  dsimp only
  split
  · simp
  · split <;> simp

@[simp] theorem events_change (f : Disk → Except PathError Disk) :
    (Program.change w f).2.events = w.events := by
  unfold Program.change
  split <;> rfl

@[simp] theorem events_run (streams : Streams) (dir : Place) (p : Program) (w : World) :
    (p.run streams dir w).2.events = w.events := by
  induction p generalizing w with
  | exit | die => rfl
  | read amount next ih => exact (ih ..).trans (w.events_consume ..)
  | copy next ih =>
    have hc := w.events_copy streams.input streams.output
    rw [Program.run]
    split <;> simp_all only
  | print text next ih =>
    have hw := w.events_write streams.output text
    rw [Program.run]
    split <;> simp_all only
  | complain text next ih =>
    have hw := w.events_write streams.error text
    rw [Program.run]
    split <;> simp_all only
  | readFile path next ih => exact ih ..
  | remove path next ih => exact (ih ..).trans (w.events_change fun d => d.remove dir path)
  | makeDirectory path next ih =>
    exact (ih ..).trans (w.events_change fun d => d.makeDirectory 0o755 dir path)

@[simp] theorem events_foldl_close (handles : List Nat) (w : World) :
    (handles.foldl close w).events = w.events := by
  induction handles generalizing w with
  | nil => rfl
  | cons h handles ih => exact ih (w.close h)

theorem events_openPath {w' : World} {access : Disk.Access} {cwd : Place} {path : Bytes}
    {result : Except PathError Nat} (h : w.openPath access cwd path = (result, w')) :
    w'.events = w.events := by
  unfold openPath at h
  simp only at h
  split at h
  · cases h
    rfl
  · split at h <;> cases h <;> rfl

theorem events_openPipe {w' : World} {room : Option Nat} {ends : Option PipeEnds}
    (h : w.openPipe room = (ends, w')) : w'.events = w.events := by
  unfold openPipe at h
  simp only at h
  split at h <;> cases h <;> rfl

end World

namespace Executor

/-- Not all targets of a node can be opened. -/
def Refused (ex : Executor) (argv : List Bytes) (files : Redirections) (streams : Streams)
    (s : Running) : Prop :=
  ((ex.openTargets argv (targets files) streams []).run s).1 = none

/-- The event of a redirection that failed, for one of the targets. -/
inductive RefusalOf (argv : List Bytes) (targets : List Target) : Event → Prop where
  | intro {target : Target} (h : target ∈ targets) (error : Bytes) :
    RefusalOf argv targets (.redirectFailure
      { command := if argv.isEmpty then none else some argv, path := target.path, error })

/-- The events of a command that is no builtin and whose targets are open: it is not started, or it
starts and ends. -/
inductive StartOf (argv : List Bytes) (status : Status) : List Event → Prop where
  | failed (error : Bytes) : StartOf argv status [.execFailure { command := some argv, error }]
  | ran (path dir : Bytes) (pid : Int) (signaled : Bool) :
    StartOf argv status [.runCommand { command := some argv, path, dir, pid },
      .commandExit { command := some argv, pid, status, signaled }]

/-- The events that account for a simple command. -/
inductive CommandAccount (refused : Prop) (files : Redirections) (status : Status) :
    List Bytes → List Event → Prop where
  | wordless : CommandAccount refused files status [] []
  | builtin {name : Bytes} {args : List Bytes} (hb : (Builtin.ofName? name).isSome) (error : Bytes) :
    CommandAccount refused files status (name :: args)
      [.builtin { command := some (name :: args), status, error }]
  | refused {name : Bytes} {args : List Bytes} {e : Event} (hb : Builtin.ofName? name = none)
    (hr : refused) (hs : status = Status.redirectFailed)
    (he : RefusalOf (name :: args) (targets files) e) :
    CommandAccount refused files status (name :: args) [e]
  | started {name : Bytes} {args : List Bytes} {events : List Event}
    (hb : Builtin.ofName? name = none) (hr : ¬ refused)
    (he : StartOf (name :: args) status events) :
    CommandAccount refused files status (name :: args) events

/-- The events that account for a group, apart from those of what is in it. -/
inductive GroupAccount (refused : Prop) (files : Redirections) (status : Status) (argv : List Bytes) :
    List Event → Prop where
  | refused {e : Event} (hr : refused) (hs : status = Status.redirectFailed)
    (he : RefusalOf argv (targets files) e) : GroupAccount refused files status argv [e]
  | entered (hr : ¬ refused) : GroupAccount refused files status argv []

/-- The events that account for what was reached. -/
def Accounts (ex : Executor) (v : Visit) (events : List Event) : Prop :=
  match v.node with
  | .node .plain argv files _ _ =>
    CommandAccount (ex.Refused argv files v.streams v.before) files (v.run ex).1 argv events
  | .node .subshell argv files _ _ =>
    GroupAccount (ex.Refused argv files v.streams v.before) files (v.run ex).1 argv events
  | _ => False

/-- The events between two worlds are those that account for what was reached, one after the other. -/
def Accounted (ex : Executor) (vs : List Visit) (w w' : World) : Prop :=
  ∃ parts, List.Forall₂ ex.Accounts vs parts ∧ w'.events = w.events ++ parts.flatten

namespace Accounted
variable {ex : Executor} {a b c : World} {vs vs' : List Visit}

theorem nil (h : b.events = a.events) : ex.Accounted [] a b :=
  ⟨[], .nil, h.trans (List.append_nil _).symm⟩

theorem single {v : Visit} {events : List Event} (hv : ex.Accounts v events)
    (h : b.events = a.events ++ events) : ex.Accounted [v] a b :=
  ⟨[events], .cons hv .nil, by rw [h, List.flatten_singleton]⟩

/-- The events are all that matters. -/
theorem congr {a' b' : World} (h : ex.Accounted vs a b) (ha : a.events = a'.events)
    (hb : b'.events = b.events) : ex.Accounted vs a' b' := by
  obtain ⟨parts, hparts, he⟩ := h
  exact ⟨parts, hparts, by rw [hb, he, ha]⟩

theorem append (h : ex.Accounted vs a b) (h' : ex.Accounted vs' b c) :
    ex.Accounted (vs ++ vs') a c := by
  obtain ⟨parts, hparts, hb⟩ := h
  obtain ⟨parts', hparts', hc⟩ := h'
  refine ⟨parts ++ parts', List.rel_append hparts hparts', ?_⟩
  rw [hc, hb, List.flatten_append, List.append_assoc]

end Accounted

section
variable {ex : Executor} {argv : List Bytes} {streams : Streams} {s : Running}

@[simp] theorem events_say (text : Bytes) :
    ((ex.say streams text).run s).2.world.events = s.world.events :=
  s.world.events_print ..

@[simp] theorem events_reportSide (side : Bytes) (status : Status) :
    ((ex.reportSide streams side status).run s).2.world.events = s.world.events := by
  rw [run_reportSide]
  split
  · exact events_say _
  · rfl

theorem events_openTargets_some {inner : Streams} {list : List Target}
    {opened handles : List Nat} {after : Running}
    (h : (ex.openTargets argv list streams opened).run s = (some (inner, handles), after)) :
    after.world.events = s.world.events := by
  induction list generalizing streams s opened with
  | nil =>
    cases h
    rfl
  | cons target rest ih =>
    rcases ho : s.world.openPath target.access [] (Path.resolve s.here.dir target.path) with
      ⟨e | handle, world⟩
    · rw [run_openTargets_error ho] at h
      cases h
    · rw [run_openTargets_ok ho] at h
      exact (ih h).trans (s.world.events_openPath ho)

variable (hrec : ex.recorder = .memory)
include hrec

theorem events_record (subject : Bytes) (e : Event) (w : World) :
    (ex.recorder.record subject e w).events = w.events ++ [e] := by
  rw [hrec]
  rfl

theorem events_openTargets_none {list : List Target} {opened : List Nat}
    {after : Running} (h : (ex.openTargets argv list streams opened).run s = (none, after)) :
    ∃ e, RefusalOf argv list e ∧ after.world.events = s.world.events ++ [e] := by
  induction list generalizing streams s opened with
  | nil => cases h
  | cons target rest ih =>
    rcases ho : s.world.openPath target.access [] (Path.resolve s.here.dir target.path) with
      ⟨e | handle, world⟩
    · rw [run_openTargets_error ho] at h
      cases h
      let reason := "open " ++ Path.resolve s.here.dir target.path ++ ": " ++ e.message
      refine ⟨_, .intro List.mem_cons_self reason, ?_⟩
      rw [redirectionFailed, World.events_foldl_close, ← s.world.events_openPath ho]
      exact (events_record hrec ..).trans (congrArg (· ++ _) (World.events_print ..))
    · rw [run_openTargets_ok ho] at h
      obtain ⟨e, ⟨htarget, error⟩, he⟩ := ih h
      refine ⟨_, .intro (List.mem_cons_of_mem _ htarget) error, ?_⟩
      rw [he, ← s.world.events_openPath ho]

theorem events_notStarted (subject reason : Bytes) (status : Status) :
    ((ex.notStarted streams argv subject reason status).run s).2.world.events =
      s.world.events ++ [.execFailure { command := some argv, error := reason }] :=
  (events_record hrec ..).trans (congrArg (· ++ _) (events_say _))

theorem events_runProgram (path dir : Bytes) (invocation : Invocation) :
    let after := (ex.runProgram streams argv path dir invocation).run s
    ∃ events, StartOf argv after.1 events ∧ after.2.world.events = s.world.events ++ events := by
  let number := s.world.started + 1
  let outcome := ((ex.programs invocation).run streams invocation.dir (ex.recorder.record "event"
    (.runCommand { command := some argv, path, dir, pid := number }) s.world.begin)).1
  refine ⟨_, .ran path dir number (outcome == .killed), ?_⟩
  rw [run_runProgram]
  simp only [events_record hrec, World.events_tell, World.events_run, World.events_begin,
    List.append_assoc]
  rfl

theorem events_spawn (argv : List Bytes) (streams : Streams) (s : Running) :
    let after := (ex.spawn streams argv).run s
    ∃ events, StartOf argv after.1 events ∧ after.2.world.events = s.world.events ++ events := by
  have failed (subject reason : Bytes) (status : Status) :
      let after := (ex.notStarted streams argv subject reason status).run s
      ∃ events, StartOf argv after.1 events ∧ after.2.world.events = s.world.events ++ events :=
    ⟨_, .failed reason, events_notStarted hrec subject reason status⟩
  rw [run_spawn]
  split
  · exact failed ..
  · split
    · exact failed ..
    · split
      · exact failed ..
      · exact events_runProgram hrec ..

theorem events_builtin (argv : List Bytes) (streams : Streams) (s : Running) (b : Builtin) :
    let after := (ex.builtin streams argv b).run s
    ∃ error, after.2.world.events =
      s.world.events ++ [.builtin { command := some argv, status := after.1, error }] := by
  cases b with
  | cd =>
    rw [run_cd]
    split
    · exact ⟨_, (events_record hrec ..).trans (congrArg (· ++ _) (World.events_print ..))⟩
    · exact ⟨_, (events_record hrec ..).trans (congrArg (· ++ _) (events_say _))⟩

theorem account_plain (argv : List Bytes) (files : Redirections) (streams : Streams) (s : Running) :
    let after := (ex.plain argv files streams).run s
    ∃ events, CommandAccount (ex.Refused argv files streams s) files after.1 argv events ∧
      after.2.world.events = s.world.events ++ events := by
  cases argv with
  | nil => exact ⟨[], .wordless, (events_say _).trans (List.append_nil _).symm⟩
  | cons name args =>
    rw [run_plain_cons]
    cases hb : Builtin.ofName? name with
    | some b =>
      obtain ⟨error, he⟩ := events_builtin hrec (name :: args) streams s b
      exact ⟨_, .builtin (by simp [hb]) error, he⟩
    | none =>
      dsimp only
      rw [run_redirected, Refused]
      rcases ho : (ex.openTargets (name :: args) (targets files) streams []).run s with
        ⟨_ | ⟨inner, opened⟩, after⟩
      · obtain ⟨e, hrefusal, he⟩ := events_openTargets_none hrec ho
        exact ⟨[e], .refused hb rfl rfl hrefusal, he⟩
      · obtain ⟨events, hstart, he⟩ := events_spawn hrec (name :: args) inner after
        refine ⟨events, .started hb (by simp) hstart, ?_⟩
        rw [World.events_foldl_close, he, events_openTargets_some ho]

/-- The events of a run are those that account for what it reaches, one after the other. -/
theorem account_execute (t : Tree) (streams : Streams) (s : Running) :
    ex.Accounted (ex.visits t streams s) s.world ((ex.execute t streams).run s).2.world := by
  induction t generalizing streams s with
  | absent => exact .nil (events_say _)
  | node kind argv files l r ihl ihr =>
    cases kind with
    | plain =>
      obtain ⟨events, hevents, he⟩ := account_plain hrec argv files streams s
      exact .single hevents he
    | sequence =>
      rw [run_sequence, visits]
      refine (ihl streams s).append ((ihr streams _).congr ?_ ?_)
      · exact events_reportSide ..
      · exact events_reportSide ..
    | and | or =>
      simp only [run_and, run_or, visits]
      split
      · rw [List.append_nil]
        exact ihl streams s
      · exact (ihl streams s).append (ihr ..)
    | pipe =>
      change ex.Accounted _ _ ((ex.pipe (ex.execute l) (ex.execute r) streams).run s).2.world
      rw [run_pipe, visits, pipeResult, pipeWith]
      generalize pipeRoom streams s (ex.execute l) (ex.execute r) = room
      -- How much room the pipe has decides what the sides do, but not how they are accounted for.
      rcases ho : s.world.openPipe room with ⟨_ | ends, world⟩
      · exact .nil ((events_say _).trans (s.world.events_openPipe ho))
      · have hleft := ihl { streams with output := ends.write } ⟨s.here.fork, world⟩
        have hright := ihr { streams with input := ends.read }
          ⟨s.here.fork, leftSide (ex.execute l) streams s.here ends world⟩
        refine (hleft.congr (s.world.events_openPipe ho) ?_).append (hright.congr rfl ?_)
        · rfl
        · rfl
    | subshell =>
      have hrun := ex.run_subshell argv files l r streams s
      rw [run_redirected] at hrun
      rw [visits]
      rcases ho : (ex.openTargets argv (targets files) streams []).run s with
        ⟨_ | ⟨inner, opened⟩, after⟩
      · rw [ho] at hrun
        obtain ⟨e, hrefusal, he⟩ := events_openTargets_none hrec ho
        have hrefused : ex.Refused argv files streams s := by rw [Refused, ho]
        have hv : ex.Accounts ⟨.node .subshell argv files l r, streams, s⟩ [e] :=
          GroupAccount.refused hrefused (congrArg Prod.fst hrun) hrefusal
        exact .single hv (by rw [hrun, he])
      · rw [ho] at hrun
        have hentered : ¬ ex.Refused argv files streams s := by simp [Refused, ho]
        have hv : ex.Accounts ⟨.node .subshell argv files l r, streams, s⟩ [] :=
          GroupAccount.entered hentered
        have hgroup : ex.Accounted [⟨.node .subshell argv files l r, streams, s⟩] s.world after.world :=
          .single hv ((events_openTargets_some ho).trans (List.append_nil _).symm)
        refine hgroup.append ((ihl inner after).congr rfl ?_)
        rw [hrun, World.events_foldl_close]
        rfl
    | unknown => exact .nil (events_say _)

end

end Executor

/-! Starts and ends in a report. -/

def Event.isStart : Event → Bool
  | .runCommand _ => true
  | _ => false

def Event.isEnd : Event → Bool
  | .commandExit _ => true
  | _ => false

/-- The events that are recorded while a tree is run. -/
def Visit.events (ex : Executor) (v : Visit) : List Event :=
  (v.run ex).2.world.events.drop v.before.world.events.length

namespace Executor

/-- The events that one command or group can leave. -/
@[elab_as_elim] theorem Accounts.elim {ex : Executor} {v : Visit} {P : List Event → Prop}
    {events : List Event} (h : ex.Accounts v events) (nothing : P [])
    (builtin : ∀ e, P [.builtin e]) (refused : ∀ e, P [.redirectFailure e])
    (failed : ∀ e, P [.execFailure e]) (ran : ∀ e e', P [.runCommand e, .commandExit e']) : P events := by
  have refusal {argv : List Bytes} {list : List Target} {e : Event} (he : RefusalOf argv list e) :
      P [e] := by
    cases he
    exact refused _
  unfold Accounts at h
  split at h
  · cases h with
    | wordless => exact nothing
    | builtin => exact builtin _
    | refused _ _ _ he => exact refusal he
    | started _ _ he =>
      cases he with
      | failed => exact failed _
      | ran => exact ran _ _
  · cases h with
    | refused _ _ he => exact refusal he
    | entered => exact nothing
  · exact h.elim

/-- Whatever is reached ends as often as it starts. -/
theorem Accounts.countP_eq {ex : Executor} {v : Visit} {events : List Event}
    (h : ex.Accounts v events) : events.countP Event.isStart = events.countP Event.isEnd :=
  h.elim rfl (fun _ => rfl) (fun _ => rfl) (fun _ => rfl) fun _ _ => rfl

theorem countP_flatten {ex : Executor} {vs : List Visit} {parts : List (List Event)}
    (h : List.Forall₂ ex.Accounts vs parts) :
    parts.flatten.countP Event.isStart = parts.flatten.countP Event.isEnd := by
  induction h with
  | nil => rfl
  | cons hv _ ih => rw [List.flatten_cons, List.countP_append, List.countP_append, hv.countP_eq, ih]

theorem countP_events {ex : Executor} (hrec : ex.recorder = .memory) (v : Visit) :
    (v.events ex).countP Event.isStart = (v.events ex).countP Event.isEnd := by
  obtain ⟨parts, hparts, he⟩ := account_execute hrec v.node v.streams v.before
  have hevents : v.events ex = parts.flatten := by rw [Visit.events, Visit.run, he, List.drop_left]
  rw [hevents]
  exact countP_flatten hparts

end Executor

namespace Report

theorem total_update (r : Report) (e : Entry) :
    (r.update e).paths.total = r.paths.total + e.event?.toList.countP Event.isStart ∧
      (r.update e).exitStatuses.total =
        r.exitStatuses.total + e.event?.toList.countP Event.isEnd := by
  unfold update
  rcases e.event? with _ | event
  · exact ⟨rfl, rfl⟩
  · cases event with
    | runCommand e => exact ⟨Counter.total_increment .., rfl⟩
    | commandExit e => exact ⟨rfl, Counter.total_increment ..⟩
    | inputLine | builtin | redirectFailure | execFailure => exact ⟨rfl, rfl⟩

theorem total_ofEntries (r : Report) (entries : List Entry) :
    (ofEntries r entries).paths.total =
        r.paths.total + (entries.filterMap Entry.event?).countP Event.isStart ∧
      (ofEntries r entries).exitStatuses.total =
        r.exitStatuses.total + (entries.filterMap Entry.event?).countP Event.isEnd := by
  induction entries generalizing r with
  | nil => exact ⟨rfl, rfl⟩
  | cons e entries ih =>
    obtain ⟨hp, hs⟩ := r.total_update e
    obtain ⟨hps, hss⟩ := ih (r.update e)
    have hevents : (e :: entries).filterMap Entry.event? =
        e.event?.toList ++ entries.filterMap Entry.event? := by
      rw [List.filterMap_cons]
      cases e.event? <;> rfl
    rw [hevents, List.countP_append, List.countP_append]
    exact ⟨hps.trans (by rw [hp, Nat.add_assoc]), hss.trans (by rw [hs, Nat.add_assoc])⟩

/-- What gets lost of an entry in a log does not count. -/
theorem update_readBack (r : Report) (e : Entry) : r.update e.readBack = r.update e := by
  obtain ⟨time, session, _ | _, _ | _, _ | _, _ | _, _ | _, _ | _⟩ := e <;> rfl

theorem ofEntries_read_write (r : Report) {entries : List Entry} (h : ∀ e ∈ entries, e.Proper) :
    ofEntries r (Log.read (Log.write entries)).entries = ofEntries r entries := by
  rw [Log.read_write h, ofEntries, List.foldl_map]
  simp only [update_readBack]
  rfl

end Report

/-- The events of a run are exactly those that account for the simple commands and groups that it
reaches, and it reaches each at most once. So in a report on any log of such runs, whatever the order
of its entries, as many programs end as are started, and it does not matter that the log is written
and read. -/
theorem Executor.events_account_for_commands {ex : Executor} (hrec : ex.recorder = .memory) :
    (∀ v : Visit,
      (∃ parts, List.Forall₂ ex.Accounts (ex.visits v.node v.streams v.before) parts ∧
        (v.run ex).2.world.events = v.before.world.events ++ parts.flatten) ∧
      ((ex.visits v.node v.streams v.before).map Visit.node).Sublist v.node.commands) ∧
    ∀ (calls : List Visit) (entries : List Entry),
      (entries.filterMap Entry.event?).Perm (calls.flatMap (Visit.events ex)) →
      let report := Report.ofEntries .empty entries
      report.paths.total = report.exitStatuses.total ∧
        ((∀ e ∈ entries, e.Proper) →
          Report.ofEntries .empty (Log.read (Log.write entries)).entries = report) := by
  refine ⟨fun v => ⟨account_execute hrec .., ex.sublist_visits ..⟩, ?_⟩
  intro calls entries hperm report
  refine ⟨?_, Report.ofEntries_read_write _⟩
  obtain ⟨hpaths, hstatuses⟩ := Report.total_ofEntries .empty entries
  have hcalls : (calls.flatMap (Visit.events ex)).countP Event.isStart =
      (calls.flatMap (Visit.events ex)).countP Event.isEnd := by
    rw [List.countP_flatMap, List.countP_flatMap]
    exact congrArg List.sum (List.map_congr_left fun v _ => countP_events hrec v)
  rw [hpaths, hstatuses, hperm.countP_eq, hperm.countP_eq, hcalls]
  rfl

theorem Entry.event?_ofEvent (time : Int) (session : Bytes) (e : Event) :
    (ofEvent time session e).event? = some e := by
  cases e <;> rfl

set_option maxRecDepth 4000 in
/-- A change of directory in the left side of a pipe, a program that is killed in the right one, a group
whose target cannot be opened, a program that is not there and one that is never reached. -/
theorem Executor.events_account_for_commands_killed :
    let ex : Executor := { name := [], programs := fun _ => .die }
    let t : Tree := .sequence (.pipe (.plain ["cd", "/"]) (.plain ["/p", "x"]))
      (.and (.or (.subshell (.plain ["/p"]) { output := "/no/o" }) (.plain ["q"])) (.plain ["/p"]))
    let disk := ({} : Disk).putFile ["p"] 0o755 Launch.imageMark
    let v : Visit := ⟨t, Sandbox.streams, ⟨⟨"/", .empty⟩, Sandbox.start disk []⟩⟩
    let entries := (v.events ex).reverse.map (Entry.ofEvent 7 "s")
    (v.run ex).1 = Status.execFailed ∧
    v.events ex =
      [.builtin { command := some ["cd", "/"] },
       .runCommand { command := some ["/p", "x"], path := "/p", dir := "/", pid := 1 },
       .commandExit { command := some ["/p", "x"], pid := 1, status := -1, signaled := true },
       .redirectFailure { path := "/no/o", error := "open /no/o: no such file or directory" },
       .execFailure { command := some ["q"], error := "executable file not found in $PATH" }] ∧
    ((ex.visits v.node v.streams v.before).map Visit.node).Sublist t.commands ∧
    (Report.ofEntries .empty entries).paths.total =
      (Report.ofEntries .empty entries).exitStatuses.total := by
  intro ex t disk v entries
  have hrec : ex.recorder = .memory := rfl
  obtain ⟨hv, hreport⟩ := Executor.events_account_for_commands hrec
  have hlog : (entries.filterMap Entry.event?).Perm ([v].flatMap (Visit.events ex)) := by
    have hread : Entry.event? ∘ Entry.ofEvent 7 "s" = some := funext (Entry.event?_ofEvent 7 "s")
    rw [List.filterMap_map, hread, List.filterMap_some, List.flatMap_singleton]
    exact List.reverse_perm _
  refine ⟨?_, ?_, (hv v).2, (hreport [v] entries hlog).1⟩
  · subst v ex t disk
    cbv
  · subst v ex t disk
    cbv

end CommandShell
