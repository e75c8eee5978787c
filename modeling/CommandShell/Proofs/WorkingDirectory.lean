import CommandShell.Proofs.EnvironmentCopy
import CommandShell.Proofs.LinklessWalk
import CommandShell.Proofs.ReachedNodes
import CommandShell.Proofs.StreamView

/-! The working directory. Only a cd that succeeds changes it, to a directory that is there, and every
process has it in an absolute and clean form at all times. From the first change on the environment
says where the process is, and so it does in every process that is forked later. -/
namespace CommandShell

namespace Surroundings
variable {disk : Disk} {here moved : Surroundings} {target : Bytes}

/-- Moving leads to the clean form of a path that leads to a directory. -/
theorem enter_eq_ok (h : here.enter disk target = .ok moved) :
    let path := Path.resolve here.dir target
    (∃ place mode, disk.stat [] path = .ok (place, .directory mode)) ∧
      moved = { dir := Path.clean path, env := here.env.set "PWD" (Path.clean path) } := by
  intro path
  unfold enter at h
  simp only at h
  split at h
  · cases h
  · next place item hstat =>
    cases item with
    | directory mode =>
      cases h
      exact ⟨⟨place, mode, hstat⟩, rfl⟩
    | file | link | null => cases h

theorem isAbsolute_enter (habs : Path.isAbsolute here.dir = true)
    (h : here.enter disk target = .ok moved) :
    Path.isAbsolute moved.dir = true ∧ Path.clean moved.dir = moved.dir := by
  obtain ⟨-, rfl⟩ := enter_eq_ok h
  have hpath := Path.isAbsolute_resolve habs target
  exact ⟨Path.isAbsolute_clean hpath, Path.clean_clean hpath⟩

/-- Where one has moved to is a directory, also by the path that is remembered. -/
theorem stat_enter (hl : disk.Linkless) (habs : Path.isAbsolute here.dir = true)
    (h : here.enter disk target = .ok moved) :
    ∃ place mode, disk.stat [] moved.dir = .ok (place, .directory mode) := by
  obtain ⟨⟨place, mode, hstat⟩, rfl⟩ := enter_eq_ok h
  exact ⟨place, mode, Disk.stat_clean hl (Path.isAbsolute_resolve habs target) hstat⟩

theorem lookup?_enter (h : here.enter disk target = .ok moved) (name : Bytes) :
    moved.env.lookup? name = if name = "PWD" then some moved.dir else here.env.lookup? name := by
  obtain ⟨-, rfl⟩ := enter_eq_ok h
  exact Environment.lookup?_set ..

theorem isAbsolute_start {workingDir : Bytes} (habs : Path.isAbsolute workingDir = true) (dir : Bytes)
    (env : Environment) :
    Path.isAbsolute (start workingDir dir env).dir = true ∧
      Path.clean (start workingDir dir env).dir = (start workingDir dir env).dir :=
  ⟨Path.isAbsolute_absolute habs dir, Path.clean_absolute habs dir⟩

end Surroundings

namespace Executor
variable (ex : Executor) (argv : List Bytes) (files : Redirections) (streams : Streams) (s : Running)

/-! What a cd does, and that nothing else moves. -/

/-- What can come of a cd with some arguments. -/
inductive Change (args : List Bytes) (s : Running) (status : Status) (after : Running) : Prop
  | help (asked : ChangeDirectory.request args = .help) (ok : status = Status.success)
      (stays : after.here = s.here)
  | failed (asked : ChangeDirectory.request args ≠ .help) (fails : status ≠ Status.success)
      (stays : after.here = s.here)
  | moved (target : Bytes) (asked : ChangeDirectory.request args ≠ .help)
      (ok : status = Status.success) (moves : s.here.enter s.world.disk target = .ok after.here)
      (items : after.world.disk.items = s.world.disk.items)

theorem unknown_ne_success : Status.unknown ≠ Status.success := by decide

theorem items_record (r : Recorder) (subject : Bytes) (e : Event) (w : World) :
    (r.record subject e w).disk.items = w.disk.items := by
  cases r with
  | silent | broken | memory => rfl
  | file handle session =>
    rcases w.disk_write handle (Entry.ofEvent w.clock session e).line with h | ⟨id, data, -, h⟩
    · exact congrArg Disk.items h
    · exact (congrArg Disk.items h).trans rfl

theorem change_cd :
    let run := (ex.builtin streams argv .cd).run s
    Change argv.tail s run.1 run.2 := by
  have entered {target : Bytes} (asked : ChangeDirectory.request argv.tail ≠ .help)
      (hrun : ChangeDirectory.run s.world.disk s.here argv.tail =
        (s.here.enter s.world.disk target).map fun moved => ([], moved)) :
      let run := (ex.builtin streams argv .cd).run s
      Change argv.tail s run.1 run.2 := by
    rw [run_cd, hrun]
    cases hm : s.here.enter s.world.disk target with
    | error e => exact .failed asked unknown_ne_success rfl
    | ok moved => exact .moved target asked rfl hm (items_record ..)
  rcases hr : ChangeDirectory.request argv.tail with _ | _ | dir
  · have hrun : ChangeDirectory.run s.world.disk s.here argv.tail =
        .ok (ChangeDirectory.helpText, s.here) := by rw [ChangeDirectory.run, hr]
    rw [run_cd, hrun]
    exact .help hr rfl rfl
  · have hrun : ChangeDirectory.run s.world.disk s.here argv.tail =
        (s.here.enterHome s.world.disk).map fun moved => ([], moved) := by
      rw [ChangeDirectory.run, hr]
    have hasked : ChangeDirectory.request argv.tail ≠ .help := by simp [hr]
    by_cases hhome : (s.here.env.get "HOME").isEmpty
    · rw [Surroundings.enterHome, if_pos hhome] at hrun
      rw [run_cd, hrun]
      exact .failed hasked unknown_ne_success rfl
    · rw [Surroundings.enterHome, if_neg hhome] at hrun
      exact entered hasked hrun
  · have hrun : ChangeDirectory.run s.world.disk s.here argv.tail =
        (s.here.enter s.world.disk dir).map fun moved => ([], moved) := by
      rw [ChangeDirectory.run, hr]
    exact entered (by simp [hr]) hrun

theorem here_reportSide (side : Bytes) (status : Status) :
    ((ex.reportSide streams side status).run s).2.here = s.here := by
  rw [run_reportSide]
  split <;> rfl

theorem here_openTargets (list : List Target) (opened : List Nat) :
    ((ex.openTargets argv list streams opened).run s).2.here = s.here := by
  induction list generalizing streams s opened with
  | nil => rfl
  | cons target rest ih =>
    rcases ho : s.world.openPath target.access [] (Path.resolve s.here.dir target.path) with
      ⟨e | handle, world⟩
    · rw [run_openTargets_error ho]
      rfl
    · rw [run_openTargets_ok ho]
      exact ih ..

theorem here_redirected {body : Streams → Run Status}
    (hb : ∀ inner s, ((body inner).run s).2.here = s.here) :
    ((ex.redirected argv files streams body).run s).2.here = s.here := by
  have hopen := ex.here_openTargets argv streams s (targets files) []
  rw [run_redirected]
  rcases hrun : (ex.openTargets argv (targets files) streams []).run s with
    ⟨_ | ⟨inner, opened⟩, after⟩ <;> rw [hrun] at hopen
  · exact hopen
  · exact (hb inner after).trans hopen

theorem here_spawn : ((ex.spawn streams argv).run s).2.here = s.here := by
  rw [run_spawn]
  split
  · rfl
  · split
    · rfl
    · split <;> rfl

/-- Whether a simple command changes the directory: it is a cd that succeeds, and not with its help. -/
def moves (argv : List Bytes) (streams : Streams) (s : Running) : Bool :=
  match argv with
  | [] => false
  | name :: args =>
    Builtin.ofName? name == some .cd && ChangeDirectory.request args != .help &&
      ((ex.builtin streams argv .cd).run s).1 == Status.success

/-- A simple command changes the directory or stays where it is. -/
theorem here_plain :
    let after := ((ex.plain argv files streams).run s).2
    (ex.moves argv streams s = true ∧ ∃ target, s.here.enter s.world.disk target = .ok after.here) ∨
      ex.moves argv streams s = false ∧ after.here = s.here := by
  cases argv with
  | nil => exact .inr ⟨rfl, rfl⟩
  | cons name args =>
    rw [run_plain_cons]
    cases hb : Builtin.ofName? name with
    | none =>
      refine .inr ⟨by simp [Executor.moves, hb], ?_⟩
      exact ex.here_redirected _ files streams s fun inner s => ex.here_spawn _ inner s
    | some b =>
      cases b with
      | cd =>
        have hchange := ex.change_cd (name :: args) streams s
        dsimp only at hchange
        rw [List.tail_cons] at hchange
        cases hchange with
        | help asked ok stays => exact .inr ⟨by simp [Executor.moves, asked], stays⟩
        | failed asked fails stays => exact .inr ⟨by simp [Executor.moves, fails], stays⟩
        | moved target asked ok moves =>
          exact .inl ⟨by simp [Executor.moves, hb, asked, ok], target, moves⟩

/-! The course of all processes. -/

/-- What a process has for its surroundings at some time, and whether by then it, or one that it
descends from, has changed its directory. -/
structure Moment where
  moved : Bool
  here : Surroundings
  deriving DecidableEq

/-- All that the processes of a run have for their surroundings, and whether the process that runs the
tree has changed its directory in the end. -/
structure Course where
  moments : List Moment
  moved : Bool

/-- Every process of a run when it starts, and before and after every simple command that it reaches.
The sides of a pipe are processes of their own; `moved` tells of the time before. -/
def course : Tree → Streams → Running → Bool → Course
  | .absent, _, s, moved => ⟨[⟨moved, s.here⟩], moved⟩
  | .node kind argv files left right, streams, s, moved =>
    let now : Moment := ⟨moved, s.here⟩
    let done := (ex.execute left streams).run s
    match kind with
    | .plain =>
      let later := moved || ex.moves argv streams s
      ⟨[now, ⟨later, ((ex.plain argv files streams).run s).2.here⟩], later⟩
    | .sequence =>
      let l := course left streams s moved
      let r := course right streams ((ex.reportSide streams "left" done.1).run done.2).2 l.moved
      ⟨l.moments ++ r.moments, r.moved⟩
    | .and =>
      let l := course left streams s moved
      let r := course right streams done.2 l.moved
      if done.1 != Status.success then l else ⟨l.moments ++ r.moments, r.moved⟩
    | .or =>
      let l := course left streams s moved
      let r := course right streams done.2 l.moved
      if done.1 == Status.success then l else ⟨l.moments ++ r.moments, r.moved⟩
    | .pipe =>
      match s.world.openPipe (pipeRoom streams s (ex.execute left) (ex.execute right)) with
      | (none, _) => ⟨[now], moved⟩
      | (some ends, world) =>
        let l := course left { streams with output := ends.write } ⟨s.here.fork, world⟩ moved
        let r := course right { streams with input := ends.read }
          ⟨s.here.fork, leftSide (ex.execute left) streams s.here ends world⟩ moved
        ⟨now :: (l.moments ++ r.moments), moved⟩
    | .subshell =>
      match (ex.openTargets argv (targets files) streams []).run s with
      | (none, _) => ⟨[now], moved⟩
      | (some (inner, _), s) =>
        let l := course left inner s moved
        ⟨now :: l.moments, l.moved⟩
    | .unknown _ => ⟨[now], moved⟩

/-- The course of a shell that runs trees one after the other, each in the world that it finds. -/
def courseOf (streams : Streams) : List (Tree × World) → Moment → List Moment
  | [], m => [m]
  | (tree, world) :: calls, m =>
    let c := ex.course tree streams ⟨m.here, world⟩ m.moved
    let after := ((ex.execute tree streams).run ⟨m.here, world⟩).2
    c.moments ++ courseOf streams calls ⟨c.moved, after.here⟩

/-- The simple commands and groups that are reached by such a shell. -/
def visitsOf (streams : Streams) : List (Tree × World) → Surroundings → List Visit
  | [], _ => []
  | (tree, world) :: calls, here =>
    ex.visits tree streams ⟨here, world⟩ ++
      visitsOf streams calls ((ex.execute tree streams).run ⟨here, world⟩).2.here

/-- No command that is reached is left out. -/
theorem mem_course_of_visit (t : Tree) (moved : Bool) {v : Visit} (hv : v ∈ ex.visits t streams s) :
    ∃ m ∈ (ex.course t streams s moved).moments, m.here = v.before.here := by
  induction t generalizing streams s moved with
  | absent => cases hv
  | node kind argv files l r ihl ihr =>
    cases kind with
    | plain =>
      obtain rfl := List.mem_singleton.mp hv
      exact ⟨_, List.mem_cons_self, rfl⟩
    | sequence =>
      rcases List.mem_append.mp hv with hv | hv
      · obtain ⟨m, hm, he⟩ := ihl _ _ moved hv
        exact ⟨m, List.mem_append_left _ hm, he⟩
      · obtain ⟨m, hm, he⟩ := ihr _ _ _ hv
        exact ⟨m, List.mem_append_right _ hm, he⟩
    | and | or =>
      rw [course]
      rcases List.mem_append.mp hv with hv | hv
      · obtain ⟨m, hm, he⟩ := ihl _ _ moved hv
        split
        · exact ⟨m, hm, he⟩
        · exact ⟨m, List.mem_append_left _ hm, he⟩
      · split at hv
        · cases hv
        · next hc =>
          obtain ⟨m, hm, he⟩ := ihr _ _ _ hv
          rw [if_neg hc]
          exact ⟨m, List.mem_append_right _ hm, he⟩
    | pipe =>
      rw [visits] at hv
      rw [course]
      rcases ho : s.world.openPipe (pipeRoom streams s (ex.execute l) (ex.execute r)) with
        ⟨_ | ends, world⟩
      · simp [ho] at hv
      · simp only [ho] at hv
        rcases List.mem_append.mp hv with hv | hv
        · obtain ⟨m, hm, he⟩ := ihl _ _ moved hv
          exact ⟨m, List.mem_cons_of_mem _ (List.mem_append_left _ hm), he⟩
        · obtain ⟨m, hm, he⟩ := ihr _ _ moved hv
          exact ⟨m, List.mem_cons_of_mem _ (List.mem_append_right _ hm), he⟩
    | subshell =>
      rw [visits] at hv
      rw [course]
      rcases ho : (ex.openTargets argv (targets files) streams []).run s with
        ⟨_ | ⟨inner, opened⟩, after⟩
      · simp only [ho, List.mem_singleton] at hv
        exact ⟨⟨moved, s.here⟩, List.mem_cons_self, by rw [hv]⟩
      · simp only [ho] at hv
        rcases List.mem_cons.mp hv with rfl | hv
        · exact ⟨⟨moved, s.here⟩, List.mem_cons_self, rfl⟩
        · obtain ⟨m, hm, he⟩ := ihl _ _ moved hv
          exact ⟨m, List.mem_cons_of_mem _ hm, he⟩
    | unknown => cases hv

theorem mem_courseOf_of_visit (calls : List (Tree × World)) (start : Moment) {v : Visit}
    (hv : v ∈ ex.visitsOf streams calls start.here) :
    ∃ m ∈ ex.courseOf streams calls start, m.here = v.before.here := by
  induction calls generalizing start with
  | nil => cases hv
  | cons call rest ih =>
    rcases List.mem_append.mp hv with hv | hv
    · obtain ⟨m, hm, he⟩ := ex.mem_course_of_visit streams _ call.1 start.moved hv
      exact ⟨m, List.mem_append_left _ hm, he⟩
    · obtain ⟨m, hm, he⟩ := ih ⟨_, _⟩ hv
      exact ⟨m, List.mem_append_right _ hm, he⟩

section
variable {ex} {P : Bool → Surroundings → Prop}
  (fork : ∀ moved here, P moved here → P moved here.fork)
  (enter : ∀ moved here disk target next, P moved here →
    Surroundings.enter disk here target = .ok next → P true next)
include fork enter

/-- What forking and moving keep holds of every process at all times. -/
theorem course_invariant (t : Tree) (streams : Streams) (s : Running) (moved : Bool)
    (h : P moved s.here) :
    (∀ m ∈ (ex.course t streams s moved).moments, P m.moved m.here) ∧
      P (ex.course t streams s moved).moved ((ex.execute t streams).run s).2.here := by
  induction t generalizing streams s moved with
  | absent => exact ⟨by simpa [course] using h, h⟩
  | node kind argv files l r ihl ihr =>
    have hnow : ∀ m ∈ [(⟨moved, s.here⟩ : Moment)], P m.moved m.here := by simpa using h
    have both {now later : List Moment} (hn : ∀ m ∈ now, P m.moved m.here)
        (hl : ∀ m ∈ later, P m.moved m.here) : ∀ m ∈ now ++ later, P m.moved m.here := by
      intro m hm
      exact (List.mem_append.mp hm).elim (hn m) (hl m)
    cases kind with
    | plain =>
      have hafter : P (moved || ex.moves argv streams s)
          ((ex.plain argv files streams).run s).2.here := by
        rcases ex.here_plain argv files streams s with ⟨hm, target, henter⟩ | ⟨hm, hsame⟩
        · rw [hm, Bool.or_true]
          exact enter _ _ _ _ _ h henter
        · rw [hm, Bool.or_false, hsame]
          exact h
      exact ⟨both hnow (by simpa using hafter), hafter⟩
    | sequence =>
      obtain ⟨hl, hmiddle⟩ := ihl streams s moved h
      rw [← ex.here_reportSide streams _ "left" _] at hmiddle
      obtain ⟨hr, hafter⟩ := ihr streams _ _ hmiddle
      refine ⟨both hl hr, ?_⟩
      rw [run_sequence]
      exact (ex.here_reportSide ..).symm ▸ hafter
    | and | or =>
      obtain ⟨hl, hmiddle⟩ := ihl streams s moved h
      obtain ⟨hr, hafter⟩ := ihr streams _ _ hmiddle
      simp only [course, run_and, run_or]
      split
      · exact ⟨hl, hmiddle⟩
      · exact ⟨both hl hr, hafter⟩
    | pipe =>
      have hstays : ((ex.execute (.node .pipe argv files l r) streams).run s).2.here = s.here :=
        (congrArg (fun run => run.2.here) (ex.run_pipe streams s _ _)).trans (ex.here_pipeResult ..)
      rw [hstays, course]
      rcases s.world.openPipe (pipeRoom streams s (ex.execute l) (ex.execute r)) with
        ⟨_ | ends, world⟩
      · exact ⟨hnow, h⟩
      · refine ⟨both hnow (both ?_ ?_), h⟩
        · exact (ihl _ _ moved (fork _ _ h)).1
        · exact (ihr _ _ moved (fork _ _ h)).1
    | subshell =>
      have hopen := ex.here_openTargets argv streams s (targets files) []
      rw [run_subshell, run_redirected, course]
      rcases hrun : (ex.openTargets argv (targets files) streams []).run s with
        ⟨_ | ⟨inner, opened⟩, after⟩ <;> rw [hrun] at hopen
      · exact ⟨hnow, hopen ▸ h⟩
      · obtain ⟨hl, hafter⟩ := ihl inner after moved (hopen ▸ h)
        exact ⟨both hnow hl, hafter⟩
    | unknown => exact ⟨hnow, h⟩

theorem courseOf_invariant (streams : Streams) (calls : List (Tree × World)) (start : Moment)
    (h : P start.moved start.here) : ∀ m ∈ ex.courseOf streams calls start, P m.moved m.here := by
  induction calls generalizing start with
  | nil => simpa [courseOf] using h
  | cons call rest ih =>
    obtain ⟨hmoments, hafter⟩ := course_invariant fork enter call.1 streams ⟨start.here, call.2⟩ _ h
    intro m hm
    exact (List.mem_append.mp hm).elim (hmoments m) (ih _ hafter m)

end

/-- What is true of the surroundings of every process, whether it has moved or not. -/
structure Placed (moved : Bool) (here : Surroundings) : Prop where
  rooted : Path.isAbsolute here.dir = true
  clean : Path.clean here.dir = here.dir
  plain : here.env.Plain
  named : moved = true → here.env.lookup? "PWD" = some here.dir

theorem Placed.fork (moved : Bool) (here : Surroundings) (h : Placed moved here) :
    Placed moved here.fork where
  rooted := h.rooted
  clean := h.clean
  plain := Environment.plain_ofListing _
  named hm := (h.plain.lookup?_fork _).trans (h.named hm)

theorem Placed.enter (moved : Bool) (here : Surroundings) (disk : Disk) (target : Bytes)
    (next : Surroundings) (h : Placed moved here) (he : here.enter disk target = .ok next) :
    Placed true next where
  rooted := (Surroundings.isAbsolute_enter h.rooted he).1
  clean := (Surroundings.isAbsolute_enter h.rooted he).2
  plain := Surroundings.plain_enter h.plain he
  named _ := (Surroundings.lookup?_enter he _).trans (if_pos rfl)

section
variable {s : Running} {args : List Bytes} {status : Status} {after : Running}

theorem Change.stays (h : Change args s status after)
    (hor : status ≠ Status.success ∨ ChangeDirectory.request args = .help) :
    after.here = s.here := by
  cases h with
  | help _ _ stays | failed _ _ stays => exact stays
  | moved _ asked ok =>
    rcases hor with hfails | hhelp
    · exact absurd ok hfails
    · exact absurd hhelp asked

theorem Change.enter (h : Change args s status after) (hok : status = Status.success)
    (hno : ChangeDirectory.request args ≠ .help) :
    after.world.disk.items = s.world.disk.items ∧
      ∃ target, s.here.enter s.world.disk target = .ok after.here := by
  cases h with
  | help asked => exact absurd asked hno
  | failed _ fails => exact absurd hok fails
  | moved target _ _ moves items => exact ⟨items, target, moves⟩

end

/-- Whatever trees a shell runs one after the other, at all times each of its processes is in an
absolute and clean directory, which its environment tells as soon as it or one that it descends from
has moved. Whenever one of them is to run a cd, that changes its surroundings only if it succeeds, and
then it leads to a directory and changes no variable but one. These times are all there are: every
command that is reached finds the surroundings of one of them. -/
theorem working_directory_sound (ex : Executor) (streams : Streams) (calls : List (Tree × World))
    {workingDir : Bytes} (hdir : Path.isAbsolute workingDir = true) (dir : Bytes)
    {env : Environment} (henv : env.Plain) :
    let start := Surroundings.start workingDir dir env
    (∀ m ∈ ex.courseOf streams calls ⟨false, start⟩,
      Path.isAbsolute m.here.dir = true ∧ Path.clean m.here.dir = m.here.dir ∧
      (m.moved = true → m.here.env.lookup? "PWD" = some m.here.dir) ∧
      ∀ args files l r streams world,
        let run := (ex.execute (.node .plain ("cd" :: args) files l r) streams).run ⟨m.here, world⟩
        (run.1 ≠ Status.success ∨ ChangeDirectory.request args = .help → run.2.here = m.here) ∧
        (run.1 = Status.success → ChangeDirectory.request args ≠ .help →
          (world.disk.Linkless → ∃ place mode,
            run.2.world.disk.stat [] run.2.here.dir = .ok (place, .directory mode)) ∧
          ∀ name ≠ ("PWD" : Bytes), run.2.here.env.lookup? name = m.here.env.lookup? name)) ∧
    ∀ v ∈ ex.visitsOf streams calls start,
      ∃ m ∈ ex.courseOf streams calls ⟨false, start⟩, m.here = v.before.here := by
  intro start
  refine ⟨fun m hm => ?_, fun v hv => ex.mem_courseOf_of_visit streams calls ⟨false, start⟩ hv⟩
  have hstart : Placed false start :=
    ⟨(Surroundings.isAbsolute_start hdir dir env).1, (Surroundings.isAbsolute_start hdir dir env).2,
      henv, by simp⟩
  have hplaced : Placed m.moved m.here :=
    courseOf_invariant Placed.fork Placed.enter streams calls _ hstart m hm
  refine ⟨hplaced.rooted, hplaced.clean, hplaced.named, fun args files l r streams world => ?_⟩
  intro run
  have hrun : run = (ex.builtin streams ("cd" :: args) .cd).run ⟨m.here, world⟩ :=
    ex.run_plain_cons files streams _ "cd" args
  have hchange : Change args ⟨m.here, world⟩ run.1 run.2 := by
    rw [hrun]
    exact ex.change_cd ("cd" :: args) streams _
  refine ⟨hchange.stays, fun hok hno => ?_⟩
  obtain ⟨hitems, target, henter⟩ := hchange.enter hok hno
  refine ⟨fun hl => ?_, fun name hn => ?_⟩
  · obtain ⟨place, mode, hstat⟩ := Surroundings.stat_enter hl hplaced.rooted henter
    exact ⟨place, mode, (Disk.stat_eq_of_items hitems _ _).trans hstat⟩
  · exact (Surroundings.lookup?_enter henter name).trans (if_neg hn)

set_option maxRecDepth 4000 in
/-- One side of a pipe moves, and later the shell does. -/
theorem working_directory_sound_dev :
    let ex : Executor := { name := [], programs := fun _ => .exit 0 }
    let cd (dir : Bytes) : Tree := .node .plain ["cd", dir] {} .absent .absent
    let world := Sandbox.start (Sandbox.disk []) []
    let calls := [(Tree.node .pipe [] {} (cd "dev") (cd "missing"), world), (cd "./dev/.", world)]
    let moved : Surroundings := ⟨"/dev", Environment.empty.set "PWD" "/dev"⟩
    Path.isAbsolute "/" = true ∧ Environment.empty.Plain ∧
      ex.courseOf Sandbox.streams calls ⟨false, .start "/" [] .empty⟩ =
        [⟨false, ⟨"/", .empty⟩⟩, ⟨false, ⟨"/", .empty⟩⟩, ⟨true, moved⟩, ⟨false, ⟨"/", .empty⟩⟩,
          ⟨false, ⟨"/", .empty⟩⟩, ⟨false, ⟨"/", .empty⟩⟩, ⟨true, moved⟩, ⟨true, moved⟩] ∧
      Path.clean moved.dir = moved.dir ∧ moved.env.lookup? "PWD" = some moved.dir := by
  intro ex cd world calls moved
  have hdir : Path.isAbsolute "/" = true := by decide
  have henv : Environment.empty.Plain := by
    rintro entry ⟨⟩
  have hcourse : ex.courseOf Sandbox.streams calls ⟨false, .start "/" [] .empty⟩ =
      [⟨false, ⟨"/", .empty⟩⟩, ⟨false, ⟨"/", .empty⟩⟩, ⟨true, moved⟩, ⟨false, ⟨"/", .empty⟩⟩,
        ⟨false, ⟨"/", .empty⟩⟩, ⟨false, ⟨"/", .empty⟩⟩, ⟨true, moved⟩, ⟨true, moved⟩] := by
    subst ex cd world calls moved
    cbv
  have hm : (⟨true, moved⟩ : Moment) ∈
      ex.courseOf Sandbox.streams calls ⟨false, .start "/" [] .empty⟩ := by
    rw [hcourse]
    simp
  have h := (ex.working_directory_sound Sandbox.streams calls hdir [] henv).1 _ hm
  exact ⟨hdir, henv, hcourse, h.2.1, h.2.2.1 rfl⟩

end Executor

end CommandShell
