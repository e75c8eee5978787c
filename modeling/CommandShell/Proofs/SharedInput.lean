import CommandShell.Proofs.ReachedNodes
import CommandShell.Proofs.ReadingPlace
import CommandShell.Sandbox
import CommandShell.Session

/-! The shell takes no input that belongs to its commands. It takes one line at a time and nothing
behind it, the commands of the line take what they ask for, and the next line begins where they
stopped. -/
namespace CommandShell

namespace World
variable {h k : Nat} {w w' : World}

theorem taking_add (hold : h < w.fresh) (f : OpenFile) : w.Taking h [] (w.add f).2 where
  contiguous := position?_congr (by rw [file?_add, if_neg (Nat.ne_of_lt hold)]) fun _ _ => rfl
  sources j hj := by rw [source?, file?_add, if_neg (Nat.ne_of_lt hj), source?]
  fresh := Nat.le_succ _

theorem elsewhere_add (hold : h < w.fresh) {f : OpenFile}
    (hf : ∀ number, w.source? h = some (.pipe number) → f.source ≠ .pipe number) :
    (w.add f).2.Elsewhere h w.fresh where
  old := Nat.lt_succ_self _
  ne := Nat.ne_of_gt hold
  source number hn := by
    rw [(taking_add hold f).sources h hold] at hn
    simpa [source?, file?_add] using hf number hn

theorem Elsewhere.close (he : w.Elsewhere h k) (j : Nat) : (w.close j).Elsewhere h k where
  old := he.old
  ne := he.ne
  source number hn := by
    rw [source?, file?_close] at hn ⊢
    split at hn
    · cases hn
    · split
      · simp
      · exact he.source number hn

theorem Elsewhere.unbind (he : w.Elsewhere h k) (n : Nat) : (w.unbind n).Elsewhere h k :=
  ⟨he.old, he.ne, he.source⟩

/-- A file that is opened by its path is another one. -/
theorem taking_openPath (hold : h < w.fresh) {access : Disk.Access} {cwd : Place} {path : Bytes}
    {result : Except PathError Nat} (ho : w.openPath access cwd path = (result, w')) :
    w.Taking h [] w' ∧ ∀ k, result = .ok k → w.fresh ≤ k ∧ w'.Elsewhere h k := by
  have hrequest : w.Taking h [] w.request.2 := .of_quiet w.quiet_request rfl
  unfold openPath at ho
  simp only at ho
  split at ho
  · cases ho
    exact ⟨hrequest, by simp⟩
  · split at ho
    · cases ho
      exact ⟨hrequest, by simp⟩
    · next stream disk hopen =>
      cases ho
      have hdisk := hrequest.then_nothing (taking_disk disk)
      have hnext : h < World.fresh { w.request.2 with disk } := hold
      refine ⟨hdisk.then_nothing (taking_add hnext _), ?_⟩
      rintro k ⟨⟩
      exact ⟨Nat.le_refl _, elsewhere_add hnext (by simp)⟩

/-- A new pipe is another one, and so are its ends. -/
theorem taking_openPipe {streams : Streams} (hs : w.Shares h streams) {room : Option Nat}
    {result : Option PipeEnds} (ho : w.openPipe room = (result, w')) :
    w.Taking h [] w' ∧ ∀ ends, result = some ends →
      w'.Elsewhere h ends.read ∧ w'.Elsewhere h ends.write ∧
        w.fresh ≤ ends.read ∧ w.fresh ≤ ends.write ∧ w.fresh ≤ ends.number := by
  unfold openPipe at ho
  simp only at ho
  split at ho
  · cases ho
    exact ⟨.of_quiet w.quiet_request rfl, by simp⟩
  · cases ho
    have hpipe : w.Taking h [] (w.request.2.withPipe room) := by
      refine ⟨position?_congr rfl fun number hn => ?_, fun _ _ => rfl, Nat.le_succ _⟩
      exact (pipe?_withPipe w.request.2 number room).trans
        (if_neg (Nat.ne_of_lt (hs.pipe number hn)))
    have hne (number : Nat) (hn : w.source? h = some (.pipe number)) : w.fresh ≠ number :=
      Nat.ne_of_gt (hs.pipe number hn)
    have hp := hs.later hpipe
    have hread := taking_add hp.old { source := .pipe w.fresh }
    have hr := hp.later hread
    have hwrite := taking_add hr.old { source := .pipe w.fresh }
    have hreadEnd := elsewhere_add hp.old (f := { source := .pipe w.fresh }) fun number hn he =>
      hne number hn (Source.pipe.inj he)
    refine ⟨(hpipe.then_nothing hread).then_nothing hwrite, ?_⟩
    rintro ends ⟨⟩
    refine ⟨hreadEnd.later hr.old hwrite, elsewhere_add hr.old fun number hn he => ?_,
      Nat.le_succ _, Nat.le_add_right w.fresh 2, Nat.le_refl _⟩
    rw [hread.sources h hp.old] at hn
    exact hne number hn (Source.pipe.inj he)

end World

namespace Executor

/-- Streams that share an open file with others who read it: only their input may be this file, and
events go elsewhere. -/
structure Guards (ex : Executor) (h : Nat) (streams : Streams) (w : World) : Prop
    extends w.Shares h streams where
  recorder : ∀ k ∈ ex.recorder.file?, w.Elsewhere h k

/-- What a program that is started takes. -/
def programTakes (ex : Executor) (h : Nat) (streams : Streams) (argv : List Bytes) (path dir : Bytes)
    (invocation : Invocation) (s : Running) : List Take :=
  let pid : Int := (s.world.started + 1 : Nat)
  (ex.programs invocation).takes h streams invocation.dir (ex.recorder.record "event"
    (.runCommand { command := some argv, path, dir, pid }) s.world.begin)

/-- What a command takes, if it is found and started. -/
def spawnTakes (ex : Executor) (h : Nat) (streams : Streams) (argv : List Bytes) (s : Running) :
    List Take :=
  match Search.lookup s.world.disk s.here.env s.here.dir (argv.headD []) with
  | .error _ => []
  | .ok path =>
    match Launch.prepare s.world.disk s.here.dir path argv s.here.env.listing with
    | .error _ => []
    | .ok invocation =>
      match ex.shortage invocation with
      | some _ => []
      | none => ex.programTakes h streams argv path s.here.dir invocation s

section
variable {ex : Executor} {h : Nat} {streams : Streams} {w w' : World} {ts : List Take}
  {argv : List Bytes} {s : Running}

theorem Guards.later (hg : ex.Guards h streams w) (ht : w.Taking h ts w') :
    ex.Guards h streams w' where
  toShares := hg.toShares.later ht
  recorder k hk := (hg.recorder k hk).later hg.old ht

theorem Guards.inner (hg : ex.Guards h streams w) {inner : Streams} (hi : w.Shares h inner) :
    ex.Guards h inner w where
  toShares := hi
  recorder := hg.recorder

theorem taking_record (hg : ex.Guards h streams w) (subject : Bytes) (e : Event) :
    w.Taking h [] (ex.recorder.record subject e w) := by
  have hr := hg.recorder
  cases hrec : ex.recorder with
  | silent => exact .refl w
  | broken => exact .of_quiet (w.quiet_record .broken subject e) rfl
  | memory => exact .of_quiet (w.quiet_record .memory subject e) rfl
  | file k session =>
    rw [hrec] at hr
    exact World.taking_write (hr k rfl) _

theorem taking_say (hg : ex.Guards h streams s.world) (text : Bytes) :
    s.world.Taking h [] ((ex.say streams text).run s).2.world :=
  World.taking_write hg.error _

theorem taking_reportSide (hg : ex.Guards h streams s.world) (side : Bytes) (status : Status) :
    s.world.Taking h [] ((ex.reportSide streams side status).run s).2.world := by
  rw [run_reportSide]
  split
  · exact taking_say hg _
  · exact .refl _

theorem taking_notStarted (hg : ex.Guards h streams s.world) (subject reason : Bytes)
    (status : Status) :
    s.world.Taking h []
      ((ex.notStarted streams argv subject reason status).run s).2.world := by
  have hsay := taking_say hg (subject ++ ": " ++ reason)
  exact hsay.then_nothing (taking_record (hg.later hsay) ..)

theorem taking_runProgram (hg : ex.Guards h streams s.world) (path dir : Bytes)
    (invocation : Invocation) :
    s.world.Taking h (ex.programTakes h streams argv path dir invocation s)
      ((ex.runProgram streams argv path dir invocation).run s).2.world := by
  have hbegin : s.world.Taking h [] s.world.begin := ⟨rfl, fun _ _ => rfl, Nat.le_refl _⟩
  have hstart := hbegin.then_nothing (taking_record (hg.later hbegin) "event"
    (.runCommand { command := some argv, path, dir, pid := (s.world.started + 1 : Nat) }))
  have hran := hstart.trans
    ((ex.programs invocation).taking_run invocation.dir (hg.later hstart).toShares)
  have hended (w : World) (number : Nat) : w.Taking h [] (w.tell (.ended number)) :=
    ⟨rfl, fun _ _ => rfl, Nat.le_refl _⟩
  have hdone := hran.then_nothing (hended _ (s.world.started + 1))
  rw [run_runProgram]
  exact hdone.then_nothing (taking_record (hg.later hdone) ..)

theorem taking_spawn (hg : ex.Guards h streams s.world) (argv : List Bytes) :
    s.world.Taking h (ex.spawnTakes h streams argv s) ((ex.spawn streams argv).run s).2.world := by
  rw [run_spawn, spawnTakes]
  cases Search.lookup s.world.disk s.here.env s.here.dir (argv.headD []) with
  | error e => exact taking_notStarted hg ..
  | ok path =>
    dsimp only
    cases Launch.prepare s.world.disk s.here.dir path argv s.here.env.listing with
    | error e => exact taking_notStarted hg ..
    | ok invocation =>
      dsimp only
      cases ex.shortage invocation with
      | some e => exact taking_notStarted hg ..
      | none => exact taking_runProgram hg ..

theorem taking_builtin (hg : ex.Guards h streams s.world) (b : Builtin) :
    s.world.Taking h [] ((ex.builtin streams argv b).run s).2.world := by
  cases b with
  | cd =>
    rw [run_cd]
    split
    · next text here _ =>
      have hprint := World.taking_write hg.output text
      exact hprint.then_nothing (taking_record (hg.later hprint) ..)
    · next e _ =>
      have hsay := taking_say hg (argv.headD [] ++ ": " ++ e.message)
      exact hsay.then_nothing (taking_record (hg.later hsay) ..)

theorem shares_set (hs : w.Shares h streams) {k : Nat} (hk : w.Elsewhere h k) (slot : Slot) :
    w.Shares h (slot.set streams k) := by
  cases slot with
  | input => exact { hs with input := .inr hk }
  | output => exact { hs with output := hk }
  | error => exact { hs with error := hk }

/-- Targets are opened elsewhere. If one cannot be opened, those opened before are closed. -/
theorem taking_openTargets {list : List Target} {opened : List Nat}
    (hold : h < w.fresh) (hg : ex.Guards h streams s.world) (ht : w.Taking h [] s.world)
    (hopened : ∀ k ∈ opened, w.fresh ≤ k) {result : Option (Streams × List Nat)} {after : Running}
    (hrun : (ex.openTargets argv list streams opened).run s = (result, after)) :
    w.Taking h [] after.world ∧ ∀ inner handles, result = some (inner, handles) →
      after.world.Shares h inner ∧ ∀ k ∈ handles, w.fresh ≤ k := by
  induction list generalizing streams s opened with
  | nil =>
    cases hrun
    refine ⟨ht, ?_⟩
    rintro inner handles ⟨⟩
    exact ⟨hg.toShares, hopened⟩
  | cons target rest ih =>
    rcases hopen : s.world.openPath target.access [] (Path.resolve s.here.dir target.path) with
      ⟨e | handle, world⟩
    · obtain ⟨hpath, -⟩ := World.taking_openPath hg.old hopen
      rw [run_openTargets_error hopen] at hrun
      cases hrun
      refine ⟨?_, by simp⟩
      have hrefused := hg.later hpath
      have hsay := taking_say (s := { s with world }) hrefused
        ("error opening " ++ target.title ++ " file: " ++
          ("open " ++ Path.resolve s.here.dir target.path ++ ": " ++ e.message))
      have htold := (ht.then_nothing hpath).then_nothing hsay
      exact (htold.then_nothing (taking_record (hrefused.later hsay) ..)).foldl_close hold hopened
    · obtain ⟨hpath, hnew⟩ := World.taking_openPath hg.old hopen
      obtain ⟨hle, helse⟩ := hnew handle rfl
      rw [run_openTargets_ok hopen] at hrun
      have hshares := shares_set (hg.toShares.later hpath) helse target.slot
      refine ih ((hg.later hpath).inner hshares) (ht.then_nothing hpath) ?_ hrun
      intro k hk
      rcases List.mem_append.mp hk with hk | hk
      · exact hopened k hk
      · obtain rfl := List.mem_singleton.mp hk
        exact Nat.le_trans ht.fresh hle

end

end Executor

/-- What a command that was reached takes from an open file. A group takes nothing itself. -/
def Visit.takes (ex : Executor) (h : Nat) (v : Visit) : List Take :=
  match v.node with
  | .node .plain (name :: args) files _ _ =>
    match Builtin.ofName? name with
    | some _ => []
    | none =>
      match (ex.openTargets (name :: args) (Executor.targets files) v.streams []).run
        v.before with
      | (none, _) => []
      | (some (inner, _), s) => ex.spawnTakes h inner (name :: args) s
  | _ => []

namespace Executor
variable {ex : Executor} {h : Nat}

theorem taking_plain {streams : Streams} {s : Running} (hg : ex.Guards h streams s.world)
    (argv : List Bytes) (files : Redirections) (l r : Tree) :
    let v : Visit := ⟨.node .plain argv files l r, streams, s⟩
    s.world.Taking h (v.takes ex h) ((ex.plain argv files streams).run s).2.world := by
  cases argv with
  | nil => exact taking_say hg _
  | cons name args =>
    dsimp only [Visit.takes]
    rw [run_plain_cons]
    cases Builtin.ofName? name with
    | some b => exact taking_builtin hg b
    | none =>
      dsimp only
      rw [run_redirected]
      rcases ho : (ex.openTargets (name :: args) (targets files) streams []).run s with
        ⟨_ | ⟨inner, opened⟩, after⟩
      · exact (taking_openTargets hg.old hg (.refl _) (by simp) ho).1
      · obtain ⟨hopen, hinner⟩ := taking_openTargets hg.old hg (.refl _) (by simp) ho
        obtain ⟨hshares, hnew⟩ := hinner inner opened rfl
        have hspawn := hopen.trans (taking_spawn ((hg.later hopen).inner hshares) (name :: args))
        exact hspawn.foldl_close hg.old hnew

/-- What a run takes from an open file is what the commands that it reaches take. -/
theorem taking_execute (t : Tree) (streams : Streams) (s : Running)
    (hg : ex.Guards h streams s.world) :
    s.world.Taking h ((ex.visits t streams s).flatMap (Visit.takes ex h))
      ((ex.execute t streams).run s).2.world := by
  induction t generalizing streams s with
  | absent => exact taking_say hg _
  | node kind argv files l r ihl ihr =>
    cases kind with
    | plain =>
      rw [visits, List.flatMap_singleton]
      exact taking_plain hg ..
    | sequence =>
      rw [run_sequence, visits, List.flatMap_append]
      have hl := ihl streams s hg
      have hm := hl.then_nothing
        (taking_reportSide (hg.later hl) "left" ((ex.execute l streams).run s).1)
      have hr := hm.trans (ihr streams _ (hg.later hm))
      exact hr.then_nothing (taking_reportSide (hg.later hr) "right" _)
    | and | or =>
      simp only [run_and, run_or, visits, List.flatMap_append]
      have hl := ihl streams s hg
      split
      · simpa using hl
      · exact hl.trans (ihr streams _ (hg.later hl))
    | pipe =>
      change s.world.Taking h _ ((ex.pipe (ex.execute l) (ex.execute r) streams).run s).2.world
      rw [run_pipe, visits, pipeResult, pipeWith]
      generalize pipeRoom streams s (ex.execute l) (ex.execute r) = room
      rcases ho : s.world.openPipe room with ⟨_ | ends, world⟩
      · obtain ⟨hopen, -⟩ := World.taking_openPipe hg.toShares ho
        exact hopen.then_nothing (taking_say (s := { s with world }) (hg.later hopen) _)
      · obtain ⟨hopen, hends⟩ := World.taking_openPipe hg.toShares ho
        obtain ⟨hread, hwrite, hr, hw, hn⟩ := hends ends rfl
        -- The new pipe and its ends have numbers that the shared file cannot have, so that it does
        -- not matter for the file when they are closed.
        have hnumber (number : Nat) (hs : s.world.source? h = some (.pipe number)) :
            number < ends.number := Nat.lt_of_lt_of_le (hg.pipe number hs) hn
        have hinner := hg.later hopen
        have hl := ihl { streams with output := ends.write } ⟨s.here.fork, world⟩
          (hinner.inner { hinner.toShares with output := hwrite })
        have hleft := ((hopen.trans hl).close hg.old hw).unbind hg.old hnumber
        have hinput := ((hread.later hinner.old hl).close ends.write).unbind ends.number
        have hmiddle := hg.later hleft
        have hright := hleft.trans (ihr { streams with input := ends.read } ⟨s.here.fork, _⟩
          (hmiddle.inner { hmiddle.toShares with input := .inr hinput }))
        rw [List.flatMap_append]
        exact (hright.close hg.old hr).dropPipe hg.old hnumber
    | subshell =>
      rw [run_subshell, run_redirected, visits, List.flatMap_cons]
      rcases ho : (ex.openTargets argv (targets files) streams []).run s with
        ⟨_ | ⟨inner, opened⟩, after⟩
      · exact (taking_openTargets hg.old hg (.refl _) (by simp) ho).1
      · obtain ⟨hopen, hinner⟩ := taking_openTargets hg.old hg (.refl _) (by simp) ho
        obtain ⟨hshares, hnew⟩ := hinner inner opened rfl
        have hbody := hopen.trans (ihl inner after ((hg.later hopen).inner hshares))
        exact hbody.foldl_close hg.old hnew
    | unknown => exact taking_say hg _

end Executor

/-! Lines. -/

/-- The first line with its newline, if it has one. -/
def LineInput.first (input : Bytes) : Bytes :=
  input.takeWhile (· != 10) ++ (input.dropWhile (· != 10)).take 1

namespace World
variable {h : Nat}

theorem data_consume (w : World) (n : Nat) : (w.consume h n).data h = w.data h := by
  rw [data, data, source?_consume, disk_consume]

/-- What cannot be read. -/
def IsDirectory (w : World) (h : Nat) : Prop := w.source? h = some (.disk .directory)

theorem available_of_isDirectory {w : World} (hd : w.IsDirectory h) : w.available h = [] := by
  rw [IsDirectory, source?, Option.map_eq_some_iff] at hd
  obtain ⟨⟨source, offset, append⟩, hf, rfl⟩ := hd
  simp only [available, hf]

theorem readByte_of_isDirectory {w : World} (hd : w.IsDirectory h) :
    w.readByte h = (.error .isDirectory, w) := by
  rw [IsDirectory, source?, Option.map_eq_some_iff] at hd
  obtain ⟨⟨source, offset, append⟩, hf, rfl⟩ := hd
  simp only [readByte, hf]

theorem readByte_of_not_isDirectory {w : World} (hd : ¬ w.IsDirectory h) :
    w.readByte h = (.ok (w.available h).head?, w.consume h (min 1 (w.available h).length)) := by
  unfold readByte
  split
  · next hf => exact absurd (by rw [IsDirectory, source?, hf]; rfl) hd
  · cases ha : w.available h <;> simp [read, ha]

/-- So many bytes were read, and nothing else happened. -/
structure Advanced (h : Nat) (w : World) (n : Nat) (w' : World) : Prop where
  quiet : w.Quiet w'
  position : w'.position? h = (w.position? h).map (Position.advance n)
  data : w'.data h = w.data h

theorem advanced_consume (w : World) (n : Nat) : w.Advanced h n (w.consume h n) :=
  ⟨w.quiet_consume h n, w.position?_consume h n, w.data_consume n⟩

theorem advanced_refl (w : World) : w.Advanced h 0 w := by
  refine ⟨.refl w, ?_, rfl⟩
  cases w.position? h with
  | none => rfl
  | some p => exact congrArg some p.advance_zero.symm

theorem Advanced.trans {a b c : World} {n m : Nat} (hn : a.Advanced h n b) (hm : b.Advanced h m c) :
    a.Advanced h (n + m) c where
  quiet := hn.quiet.trans hm.quiet
  position := by
    rw [hm.position, hn.position, Option.map_map]
    exact congrArg (Option.map · _) (funext fun p => p.advance_advance n m)
  data := hm.data.trans hn.data

theorem Advanced.taking {w w' : World} {bytes : Bytes} (ha : w.Advanced h bytes.length w')
    (hb : bytes <+: w.available h) (taker : Taker) : w.Taking h [⟨taker, w, bytes⟩] w' where
  contiguous := ⟨rfl, hb, ha.position⟩
  sources k _ := source?_of_table ha.quiet.table k
  fresh := Nat.le_of_eq ha.quiet.fresh.symm

theorem Advanced.taking_nothing {w w' : World} (ha : w.Advanced h 0 w') : w.Taking h [] w' :=
  .of_quiet ha.quiet (ha.position.trans w.advanced_refl.position.symm)

theorem Advanced.available {w w' : World} {n : Nat} (ha : w.Advanced h n w') :
    w'.available h = (w.available h).drop n := by
  rw [available_eq_unread, ha.position, ha.data, available_eq_unread]
  cases w.position? h with
  | none => simp
  | some p => exact p.unread_advance n _

/-- A line is taken byte by byte, and nothing behind it. -/
theorem readLine_advanced (n : Nat) (line : Bytes) {w : World} (hd : ¬ w.IsDirectory h)
    (hn : (w.available h).length ≤ n) :
    let input := w.available h
    let result := LineInput.readLine (·.readByte h) n line w
    result.1 = .ok (if line.isEmpty && input.isEmpty then none
      else some (line.reverse ++ input.takeWhile (· != 10))) ∧
    w.Advanced h (LineInput.first input).length result.2 := by
  induction n generalizing line w with
  | zero =>
    have ha : w.available h = [] := List.eq_nil_of_length_eq_zero (Nat.le_zero.mp hn)
    rw [ha]
    exact ⟨by simp [LineInput.readLine], w.advanced_refl⟩
  | succ n ih =>
    have hbyte := readByte_of_not_isDirectory hd
    cases ha : w.available h with
    | nil =>
      rw [ha] at hbyte
      simp only [LineInput.readLine, hbyte]
      exact ⟨by simp, w.advanced_consume 0⟩
    | cons b rest =>
      have hone : min 1 (b :: rest).length = 1 := by simp
      rw [ha, hone] at hbyte
      simp only [LineInput.readLine, hbyte, List.head?_cons]
      split
      · next hb =>
        subst hb
        exact ⟨by simp, w.advanced_consume 1⟩
      · next hb =>
        have hrest : (w.consume h 1).available h = rest := by
          rw [(w.advanced_consume 1).available, ha]
          rfl
        have hlength : ((w.consume h 1).available h).length ≤ n := by
          rw [hrest]
          rw [ha] at hn
          exact Nat.le_of_succ_le_succ hn
        have hsource : ¬ (w.consume h 1).IsDirectory h := by
          rwa [IsDirectory, source?_consume]
        obtain ⟨htext, hadvanced⟩ := ih (b :: line) hsource hlength
        rw [hrest] at htext hadvanced
        refine ⟨by simp [htext, hb], ?_⟩
        have hfirst : LineInput.first (b :: rest) = b :: LineInput.first rest := by
          simp [LineInput.first, hb]
        rw [hfirst, List.length_cons, Nat.add_comm]
        exact (w.advanced_consume 1).trans hadvanced

end World

namespace Session

/-- What the commands of a line take from the standard input. -/
def lineTakes (s : Session) (line : Bytes) (st : State) : List Take :=
  if line.isBlank then []
  else match Line.parse line with
  | .error _ | .ok .absent => []
  | .ok tree =>
    (s.executor.visits (s.aliases.expand tree) s.streams st.running).flatMap
      (Visit.takes s.executor s.streams.input)

/-- What is taken from the standard input while so many lines are read and run: each line with its
newline, and then what its commands take. -/
def takes (s : Session) : Nat → State → List Take
  | 0, _ => []
  | n + 1, st =>
    match s.readLine st with
    | (.line text, next) =>
      let world := st.running.world
      ⟨.shell, world, LineInput.first (world.available s.streams.input)⟩ ::
        (s.lineTakes text next ++ s.takes n (s.handle (.line text) next).2)
    | _ => []

variable {s : Session} {st : State}

theorem taking_banner (hg : s.executor.Guards s.streams.input s.streams st.running.world)
    (text : Bytes) :
    st.running.world.Taking s.streams.input [] (s.banner text st).running.world := by
  unfold banner
  split
  · exact World.taking_write hg.output text
  · exact .refl _

theorem taking_runLine (hg : s.executor.Guards s.streams.input s.streams st.running.world)
    {line : Bytes} (hb : ¬ line.isBlank) :
    st.running.world.Taking s.streams.input (s.lineTakes line st)
      (s.runLine line st).running.world := by
  rw [lineTakes, if_neg hb]
  cases hp : Line.parse line with
  | error fault =>
    rw [runLine_of_error hp]
    have hprint := World.taking_write hg.error
      (s.config.name ++ ": syntax error: " ++ fault.message ++ "\n")
    exact hprint.then_nothing (Executor.taking_record (hg.later hprint) "input" _)
  | ok tree =>
    cases tree with
    | absent =>
      rw [runLine_of_absent hp]
      exact .refl _
    | node kind argv files l r =>
      rw [runLine_of_tree hp (by simp)]
      have hrun := Executor.taking_execute (s.aliases.expand (.node kind argv files l r)) s.streams
        st.running hg
      exact hrun.then_nothing (Executor.taking_record (hg.later hrun) "input" _)

theorem readLine_of_isDirectory (hd : st.running.world.IsDirectory s.streams.input) :
    s.readLine st = (.failed ("read /dev/stdin: " ++ PathError.isDirectory.message), st) := by
  simp only [readLine, LineInput.readLine, World.readByte_of_isDirectory hd]
  rfl

/-- What comes of reading a line. -/
theorem readLine_cases (s : Session) (st : State) :
    let before := st.running.world
    let input := before.available s.streams.input
    let after := (s.readLine st).2.running.world
    before.Advanced s.streams.input (LineInput.first input).length after ∧
      if input.isEmpty then (s.readLine st).1 = .ended ∨ ∃ reason, (s.readLine st).1 = .failed reason
      else (s.readLine st).1 = .line (input.takeWhile (· != 10)) := by
  dsimp only
  by_cases hd : st.running.world.IsDirectory s.streams.input
  · rw [World.available_of_isDirectory hd, readLine_of_isDirectory hd]
    exact ⟨st.running.world.advanced_refl, .inr ⟨_, rfl⟩⟩
  · obtain ⟨htext, hadvanced⟩ := World.readLine_advanced
      ((st.running.world.available s.streams.input).length + 1) [] hd (Nat.le_succ _)
    refine ⟨hadvanced, ?_⟩
    unfold readLine
    dsimp only
    rw [htext]
    cases st.running.world.available s.streams.input with
    | nil => exact .inl rfl
    | cons => rfl

theorem isPrefix_first (input : Bytes) : LineInput.first input <+: input := by
  have hsplit := List.takeWhile_append_dropWhile (p := (· != 10)) (l := input)
  conv_rhs => rw [← hsplit]
  exact (List.prefix_append_right_inj _).mpr (List.take_prefix ..)

theorem taking_handle (hg : s.executor.Guards s.streams.input s.streams st.running.world)
    (text : Bytes) :
    st.running.world.Taking s.streams.input (s.lineTakes text st)
      (s.handle (.line text) st).2.running.world := by
  unfold handle
  dsimp only
  split
  · next hb =>
    rw [lineTakes, if_pos hb]
    exact .refl _
  · next hb => exact taking_runLine hg hb

/-- Whatever is taken from the standard input while lines are read and run is a line of the shell or
taken by a command, and each begins where the one before it ended. -/
theorem taking_readAndRun (n : Nat)
    (hg : s.executor.Guards s.streams.input s.streams st.running.world) :
    st.running.world.Taking s.streams.input (s.takes n st)
      (s.readAndRun n st).2.running.world := by
  induction n generalizing st with
  | zero => exact .refl _
  | succ n ih =>
    obtain ⟨hadvanced, hreading⟩ := s.readLine_cases st
    rw [takes, readAndRun]
    rcases hr : s.readLine st with ⟨reading, next⟩
    simp only [hr] at hadvanced hreading
    cases hinput : st.running.world.available s.streams.input with
    | nil =>
      -- No line: the session ends, and what it still writes goes elsewhere.
      simp only [hinput] at hadvanced hreading
      have hread := hadvanced.taking_nothing
      obtain rfl | ⟨reason, rfl⟩ : reading = .ended ∨ ∃ reason, reading = .failed reason := hreading
      · exact hread.then_nothing (taking_banner (hg.later hread) _)
      · exact hread.then_nothing ⟨rfl, fun _ _ => rfl, Nat.le_refl _⟩
    | cons b rest =>
      obtain ⟨text, rfl⟩ : ∃ text, reading = .line text := by
        rw [hinput] at hreading
        exact ⟨_, hreading⟩
      have hread := hadvanced.taking (isPrefix_first _) .shell
      have hline := hread.trans (taking_handle (hg.later hread) text)
      have hrest := hline.trans (ih (hg.later hline))
      simpa [handle] using hrest

/-- A line has no newline in it, and what is left to read is what stands behind its newline. -/
theorem available_readLine {text : Bytes} {next : State} (hr : s.readLine st = (.line text, next)) :
    let unread (st : State) := st.running.world.available s.streams.input
    10 ∉ text ∧ (unread st = text ++ 10 :: unread next ∨ unread st = text ∧ unread next = []) := by
  intro unread
  obtain ⟨hadvanced, hreading⟩ := s.readLine_cases st
  have hleft : unread next = (unread st).drop (LineInput.first (unread st)).length := by
    simpa only [hr] using hadvanced.available
  have htext : (unread st).takeWhile (· != 10) = text := by
    rw [hr] at hreading
    split at hreading
    · simp at hreading
    · exact (Reading.line.inj hreading).symm
  have hsplit := List.takeWhile_append_dropWhile (p := (· != 10)) (l := unread st)
  rw [LineInput.first, htext] at hleft
  rw [htext] at hsplit
  refine ⟨fun hmem => ?_, ?_⟩
  · rw [← htext] at hmem
    simpa using List.mem_takeWhile_imp hmem
  · cases hd : (unread st).dropWhile (· != 10) with
    | nil =>
      rw [hd, List.append_nil] at hsplit
      exact .inr ⟨hsplit.symm, by simp [hleft, hd, hsplit]⟩
    | cons b rest =>
      obtain rfl : b = 10 := by
        have hhead := List.head?_dropWhile_not (· != 10) (unread st)
        simpa [hd] using hhead
      rw [hd] at hsplit hleft
      refine .inl ?_
      rw [hleft, ← hsplit]
      simp

/-- If no line adds to the standard input, a session ends within one reading more than there are bytes. -/
theorem endsWithin_of_runLine_le (s : Session)
    (h : ∀ line st, ((s.runLine line st).running.world.available s.streams.input).length ≤
      (st.running.world.available s.streams.input).length) (n : Nat) (st : State)
    (hn : (st.running.world.available s.streams.input).length < n) : s.endsWithin n st = true := by
  induction n generalizing st with
  | zero => cases hn
  | succ n ih =>
    rw [endsWithin]
    obtain ⟨hadvanced, hreading⟩ := s.readLine_cases st
    rcases hr : s.readLine st with ⟨reading, next⟩
    simp only [hr] at hadvanced hreading
    cases hinput : st.running.world.available s.streams.input with
    | nil =>
      rw [hinput] at hreading
      obtain rfl | ⟨reason, rfl⟩ : reading = .ended ∨ ∃ reason, reading = .failed reason := hreading
      · rfl
      · rfl
    | cons b rest =>
      obtain ⟨text, rfl⟩ : ∃ text, reading = .line text := by
        rw [hinput] at hreading
        exact ⟨_, hreading⟩
      have hleft : (next.running.world.available s.streams.input).length < n := by
        rw [hadvanced.available, hinput, List.length_drop]
        rw [hinput] at hn
        have hone : 0 < (LineInput.first (b :: rest)).length := by
          by_cases hb : b = 10 <;> simp [LineInput.first, hb]
        simp only [List.length_cons] at hn ⊢
        omega
      refine ih _ ?_
      split
      · exact hleft
      · exact Nat.lt_of_le_of_lt (h text next) hleft

/-- Whenever the shell has read a line, what is left to read is what stands behind its newline. And
however many lines of a session have been read and run, the input that is gone is, in order, the lines
that were read and what their commands took: each piece stands where the one before it ended, and as
long as nobody writes to the input, the pieces and what is left are what there was. For the latter the
standard input has to be an open file of its own. -/
theorem commands_get_their_input (s : Session) (st : State) :
    let h := s.streams.input
    let unread (st : State) := st.running.world.available h
    (∀ now text next, s.readLine now = (.line text, next) → 10 ∉ text ∧
      (unread now = text ++ 10 :: unread next ∨ unread now = text ∧ unread next = [])) ∧
    (s.executor.Guards h s.streams st.running.world → ∀ n,
      let start := st.running.world
      let after := (s.readAndRun n (s.welcome st)).2
      let takes := s.takes n (s.welcome st)
      Contiguous h (start.position? h) takes (after.running.world.position? h) ∧
      ((∀ t ∈ takes, t.world.data h = start.data h) → after.running.world.data h = start.data h →
        unread st = takes.flatMap Take.bytes ++ unread after)) := by
  intro h unread
  refine ⟨fun _ _ _ => available_readLine, fun hg n => ?_⟩
  have hwelcome : st.running.world.Taking h [] (s.welcome st).running.world := taking_banner hg _
  have htaking := hwelcome.trans (taking_readAndRun n (hg.later hwelcome))
  exact ⟨htaking.contiguous, htaking.available_eq⟩

/-- A session in which every program takes three bytes. -/
private def tasting : Session where
  config := {}
  aliases := ⟨[]⟩
  executor := { name := [], programs := fun _ => .read (fun _ => 3) fun _ => .exit 0 }
  streams := Sandbox.streams

private def tastingStart : State where
  running :=
    { here := { dir := "/", env := .empty }
      world := Sandbox.start (({} : Disk).putFile ["p"] 0o755 Launch.imageMark) "/p\nab\n\n/p\nc" }

set_option maxRecDepth 4000 in
/-- A program is run twice, and the second time less is left than it asks for. -/
theorem commands_get_their_input_twice :
    let start := tastingStart.running.world
    let next := tasting.readLine tastingStart
    let after := (tasting.readAndRun 4 (tasting.welcome tastingStart)).2.running.world
    let takes := tasting.takes 4 (tasting.welcome tastingStart)
    next.1 = .line "/p" ∧ next.2.running.world.available 0 = "ab\n\n/p\nc" ∧
    takes.map Take.taker = [.shell, .command, .shell, .shell, .command] ∧
    takes.map Take.bytes = (["/p\n", "ab\n", "\n", "/p\n", "c"] : List Bytes) ∧
    Contiguous 0 (start.position? 0) takes (after.position? 0) ∧
    start.available 0 = takes.flatMap Take.bytes ++ after.available 0 := by
  intro start next after takes
  have hother (k : Nat) (hk : k = 1 ∨ k = 2) : start.Elsewhere 0 k := by
    rcases hk with rfl | rfl
    · exact ⟨by decide, by decide, fun _ hn => by cases hn⟩
    · exact ⟨by decide, by decide, fun _ hn => by cases hn⟩
  have hg : tasting.executor.Guards 0 tasting.streams start :=
    { old := by decide
      pipe := fun _ hn => by cases hn
      input := .inl rfl
      output := hother 1 (.inl rfl)
      error := hother 2 (.inr rfl)
      recorder := fun _ hk => by cases hk }
  obtain ⟨hlines, htakes⟩ := tasting.commands_get_their_input tastingStart
  obtain ⟨hcontiguous, hall⟩ := htakes hg 4
  have hreading : next.1 = .line "/p" := by
    subst next
    cbv
  have hinput : start.available 0 = ("/p" : Bytes) ++ 10 :: ("ab\n\n/p\nc" : Bytes) := by
    subst start
    cbv
  refine ⟨hreading, ?_, ?_, ?_, hcontiguous, hall (fun t ht => ?_) ?_⟩
  · obtain ⟨-, hleft | ⟨hleft, -⟩⟩ := hlines tastingStart "/p" _ (Prod.ext hreading rfl)
    · exact (List.cons.inj (List.append_cancel_left (hleft.symm.trans hinput))).2
    · exact absurd (hinput.symm.trans hleft) (by simp)
  · subst takes
    cbv
  · subst takes
    cbv
  · have hdata : takes.map (fun t => t.world.data 0) = List.replicate 5 (start.data 0) := by
      subst takes start
      cbv
    exact List.eq_of_mem_replicate (hdata ▸ List.mem_map_of_mem ht)
  · cbv

end Session

end CommandShell
