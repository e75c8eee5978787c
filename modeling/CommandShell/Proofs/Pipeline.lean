import CommandShell.Proofs.Bracketing
import CommandShell.Proofs.EnvironmentCopy
import CommandShell.Proofs.GrantedRun
import CommandShell.Proofs.StreamFunction

/-! Pipelines of commands that are functions of their input streams. A pipe between two of them does
what the two functions joined do, so that a pipeline does the same however it is bracketed. -/
namespace CommandShell

/-- Where the stages of a pipeline run: the copy of the surroundings that each of them starts from,
the streams of the whole pipeline, what its output leads to, and what the stages need of the disk. -/
structure Setting where
  here : Surroundings
  streams : Streams
  target : Option Source
  fits : Disk → Prop
  fork_here : here.fork = here

namespace Setting
variable (S : Setting)

/-- A world in which a stage can be run: no pipe will be refused, the output of the pipeline leads
where it led, and the disk is fit. -/
structure Reached (w : World) : Prop where
  numbered : w.Numbered
  granted : w.Granted
  fresh : S.streams.output < w.fresh
  target : w.source? S.streams.output = S.target
  fits : S.fits w.disk

/-- An open file that a stage can read: the input of the whole pipeline, or an end of a pipe. -/
def Input (w : World) (k : Nat) : Prop :=
  k < w.fresh ∧ (k = S.streams.input ∨ ∃ n, w.source? k = some (.pipe n))

def Output (w : World) (k : Nat) : Prop :=
  k < w.fresh ∧ (k = S.streams.output ∨ ∃ n, w.source? k = some (.pipe n))

section
variable {S} {w w' : World} {k : Nat} (hf : w.fresh ≤ w'.fresh) (hs : w'.source? k = w.source? k)
include hf hs

theorem Input.later (h : S.Input w k) : S.Input w' k :=
  ⟨Nat.lt_of_lt_of_le h.1 hf, hs ▸ h.2⟩

theorem Output.later (h : S.Output w k) : S.Output w' k :=
  ⟨Nat.lt_of_lt_of_le h.1 hf, hs ▸ h.2⟩

end

/-- Open files that a stage can be given to read and to write. -/
structure Wired (w : World) (i o : Nat) : Prop where
  input : S.Input w i
  output : S.Output w o
  apart : w.Apart i o

/-- The streams of a stage. -/
def wire (i o : Nat) : Streams := { input := i, output := o, error := S.streams.error }

/-- What a stage does if it is a function of its input: it takes so much of its input, writes its
output, reports a status, and leaves the other streams and pipes alone. -/
structure Filtered (f : StreamFunction) (w : World) (i o : Nat) (status : Status) (after : World) :
    Prop where
  status : status = (f.effect (w.room o) (w.available i)).status
  input : after.view i = (w.consume i (f.effect (w.room o) (w.available i)).taken).view i
  output : after.view o = (w.write o (f.effect (w.room o) (w.available i)).written).2.view o
  others : ∀ k, S.Input w k ∨ S.Output w k → w.Apart k i → w.Apart k o → after.view k = w.view k
  fits : S.fits after.disk

/-- A tree that is a function of its input wherever it can stand in the pipeline. -/
def Filters (ex : Executor) (f : StreamFunction) (t : Tree) : Prop :=
  ∀ (w : World) (i o : Nat), S.Reached w → S.Wired w i o →
    let run := (ex.execute t (S.wire i o)).run ⟨S.here, w⟩
    S.Filtered f w i o run.1 run.2.world

end Setting

namespace World
variable {w w' : World}

theorem Apart.symm {j k : Nat} (h : w.Apart j k) : w.Apart k j :=
  ⟨h.ne.symm, fun source hk hj => h.source source hj hk⟩

theorem Apart.of_source? {j k : Nat} (h : w.Apart j k) (hj : w'.source? j = w.source? j)
    (hk : w'.source? k = w.source? k) : w'.Apart j k :=
  ⟨h.ne, fun source hj' hk' => h.source source (hj ▸ hj') (hk ▸ hk')⟩

/-- The view of an end of a pipe. -/
theorem view_of_source?_pipe {k n : Nat} (h : w.source? k = some (.pipe n)) :
    ∃ append, w.view k = some ⟨.pipe n, append, 0, w.pipe? n⟩ := by
  obtain ⟨f, hf, hs⟩ := Option.map_eq_some_iff.mp h
  exact ⟨f.append, by simp [view, hf, hs, behind]⟩

theorem available_of_view {k : Nat} (h : w'.view k = w.view k) : w'.available k = w.available k := by
  rw [available_eq_view, available_eq_view, h]

theorem room_of_view {k : Nat} (h : w'.view k = w.view k) : w'.room k = w.room k := by
  rw [room_eq_view, room_eq_view, h]

theorem Numbered.source?_ne (h : w.Numbered) (k : Nat) : w.source? k ≠ some (.pipe w.fresh) :=
  fun hs => Nat.lt_irrefl _ ((h.source?_lt hs).2 _ rfl)

namespace NewPipe
variable {opened : World} {room : Option Nat} {ends : PipeEnds} (h : w.NewPipe opened room ends)
include h

theorem source?_end {k : Nat} (hk : k = ends.read ∨ k = ends.write) :
    opened.source? k = some (.pipe ends.number) := by
  obtain rfl := h.ends
  rw [source?, h.file?]
  rcases hk with rfl | rfl <;> simp

theorem source?_old {k : Nat} (hk : k < w.fresh) : opened.source? k = w.source? k := by
  rw [source?, h.file?, if_neg (by omega), if_neg (by omega), source?]

theorem ne_end {k e : Nat} (hk : k < w.fresh) (he : e = ends.read ∨ e = ends.write) : k ≠ e := by
  obtain rfl := h.ends
  rcases he with rfl | rfl <;> dsimp only <;> omega

/-- What was open before does not lead to the new pipe. -/
theorem source?_ne (hn : w.Numbered) {k : Nat} (hk : w'.source? k = w.source? k) :
    w'.source? k ≠ some (.pipe ends.number) := by
  obtain rfl := h.ends
  rw [hk]
  exact hn.source?_ne k

theorem apart_end (hn : w.Numbered) {k e : Nat} (hk : k < w.fresh)
    (he : e = ends.read ∨ e = ends.write) (hks : w'.source? k = w.source? k)
    (hes : w'.source? e = some (.pipe ends.number)) : w'.Apart k e where
  ne := h.ne_end hk he
  source source hk' he' := by
    cases hes.symm.trans he'
    exact absurd hk' (h.source?_ne hn hks)

theorem lt_fresh {e : Nat} (he : e = ends.read ∨ e = ends.write) : e < opened.fresh := by
  rw [h.fresh]
  obtain rfl := h.ends
  rcases he with rfl | rfl <;> dsimp only <;> omega

theorem read_ne_write : ends.read ≠ ends.write := by
  obtain rfl := h.ends
  dsimp only
  omega

/-! What was open before looks the same when a side of the pipe has ended. -/

theorem view_leave (hn : w.Numbered) {k : Nat} (hk : k < w.fresh)
    (hs : w'.source? k = w.source? k) :
    ((w'.close ends.write).unbind ends.number).view k = w'.view k := by
  have hne : k ≠ ends.write := h.ne_end hk (.inr rfl)
  rw [view_unbind_of_ne, view_close_of_ne hne]
  rw [source?_close_of_ne hne]
  exact h.source?_ne hn hs

theorem view_drop (hn : w.Numbered) {k : Nat} (hk : k < w.fresh) (hs : w'.source? k = w.source? k) :
    ((w'.close ends.read).dropPipe ends.number).view k = w'.view k := by
  have hne : k ≠ ends.read := h.ne_end hk (.inl rfl)
  rw [view_dropPipe_of_ne, view_close_of_ne hne]
  rw [source?_close_of_ne hne]
  exact h.source?_ne hn hs

/-- If there was enough room for a text, then it is in the pipe when its writer has ended. -/
theorem pipe?_leave {s : Bytes} (hs : w'.source? ends.write = some (.pipe ends.number))
    (hv : w'.view ends.write = (opened.write ends.write s).2.view ends.write)
    (hfit : ∀ n, room = some n → s.length ≤ n) :
    ((w'.close ends.write).unbind ends.number).pipe? ends.number = some { waiting := s } := by
  obtain ⟨append, hend⟩ := view_of_source?_pipe hs
  rw [hv, view_write, h.view_end (.inr rfl)] at hend
  have hput : w'.pipe? ends.number = some (Pipe.put s { room }) :=
    (congrArg View.held (Option.some.inj hend)).symm
  have hfree : ((w'.close ends.write).unbind ends.number).pipe? ends.number =
      (w'.pipe? ends.number).map fun p => { p with room := none } := by
    rw [pipe?_unbind]
    simp only [if_true]
    rfl
  rw [hfree, hput, Option.map_some, Pipe.put_unbound hfit]

end NewPipe

end World

namespace Executor
variable {ex : Executor} {S : Setting} {l r : Tree} {f g : StreamFunction} {w opened : World}
  {room : Option Nat} {ends : World.PipeEnds} {i o : Nat}

/-- After a stage has been run, another one can be run, and the same files are open. -/
structure Ran (S : Setting) (f : StreamFunction) (w : World) (i o : Nat) (status : Status)
    (after : World) : Prop extends S.Filtered f w i o status after where
  reached : S.Reached after
  later : w.fresh ≤ after.fresh
  source? : ∀ k, after.source? k = w.source? k

theorem ran_of_filters {t : Tree} (h : S.Filters ex f t) (hw : S.Reached w) (hio : S.Wired w i o) :
    let run := (ex.execute t (S.wire i o)).run ⟨S.here, w⟩
    Ran S f w i o run.1 run.2.world := by
  have hdone := h w i o hw hio
  obtain ⟨trail, hset⟩ := ex.execute_settled t (S.wire i o) ⟨S.here, w⟩ hw.numbered
  have hsource := World.source?_of_table hset.table
  have hreached : S.Reached ((ex.execute t (S.wire i o)).run ⟨S.here, w⟩).2.world :=
    ⟨hw.numbered.settled hset, ex.keepsGranted_execute (S.wire i o) t ⟨S.here, w⟩ hw.granted,
      Nat.lt_of_lt_of_le hw.fresh hset.fresh, (hsource _).trans hw.target, hdone.fits⟩
  exact ⟨hdone, hreached, hset.fresh, hsource⟩

/-- What the left side of a pipe leaves: its output is in the pipe and some of its input is taken. -/
structure LeftDone (S : Setting) (w : World) (ends : World.PipeEnds) (i : Nat) (first : Effect)
    (middle : World) : Prop where
  reached : S.Reached middle
  fresh : ends.read < middle.fresh ∧ w.fresh ≤ middle.fresh
  source? : ∀ k < w.fresh, middle.source? k = w.source? k
  readEnd : middle.source? ends.read = some (.pipe ends.number)
  pipe? : middle.pipe? ends.number = some { waiting := first.written }
  input : middle.view i = (w.consume i first.taken).view i
  others : ∀ k, S.Input w k ∨ S.Output w k → w.Apart k i → middle.view k = w.view k

section
variable {here : Surroundings} (hhere : here.fork = S.here) (hw : S.Reached w)
  (hio : S.Wired w i o) (ho : w.openPipe room = (some ends, opened))
  (hp : w.NewPipe opened room ends)

include hw ho hp in
theorem reached_openPipe : S.Reached opened where
  numbered := hw.numbered.openPipe ho
  granted := hp.granted
  fresh := Nat.lt_of_lt_of_le hw.fresh (by rw [hp.fresh]; omega)
  target := (hp.source?_old hw.fresh).trans hw.target
  fits := by
    rw [hp.disk]
    exact hw.fits

include hw hio hp in
theorem wired_left : S.Wired opened i ends.write where
  input := hio.input.later (by rw [hp.fresh]; omega) (hp.source?_old hio.input.1)
  output := ⟨hp.lt_fresh (.inr rfl), .inr ⟨_, hp.source?_end (.inr rfl)⟩⟩
  apart := hp.apart_end hw.numbered hio.input.1 (.inr rfl) (hp.source?_old hio.input.1)
    (hp.source?_end (.inr rfl))

include hhere hw hio ho hp

theorem leftDone_of_filters (hl : S.Filters ex f l) :
    LeftDone S w ends i (f.effect room (w.available i))
      (leftSide (ex.execute l) (S.wire i o) here ends opened) := by
  have hrun := ran_of_filters hl (reached_openPipe hw ho hp) (wired_left hw hio hp)
  have hside : leftSide (ex.execute l) (S.wire i o) here ends opened =
      (((ex.execute l (S.wire i ends.write)).run ⟨S.here, opened⟩).2.world.close ends.write).unbind
        ends.number := by
    rw [← hhere]
    rfl
  rw [hside]
  generalize (ex.execute l (S.wire i ends.write)).run ⟨S.here, opened⟩ = run at hrun
  obtain ⟨⟨-, hinput, houtput, hothers, hfits⟩, hreached, hlater, hsource⟩ := hrun
  -- the pipe is new, and the input looks as it did before the pipe was made
  have hview := hp.view_old hw.numbered hio.input.1
  have hroom : opened.room ends.write = room := by
    rw [World.room_eq_view, hp.view_end (.inr rfl)]
    rfl
  rw [hroom, World.available_of_view hview] at hinput houtput
  have hold {k : Nat} (hk : k < w.fresh) : run.2.world.source? k = w.source? k :=
    (hsource k).trans (hp.source?_old hk)
  have hclosed {k : Nat} (hk : k ≠ ends.write) :
      ((run.2.world.close ends.write).unbind ends.number).source? k = run.2.world.source? k :=
    World.source?_close_of_ne hk
  constructor
  · refine ⟨(hreached.numbered.close _).quiet (World.quiet_unbind _ _), hreached.granted,
      hreached.fresh, ?_, hfits⟩
    rw [hclosed (hp.ne_end hw.fresh (.inr rfl))]
    exact hreached.target
  · exact ⟨Nat.lt_of_lt_of_le (hp.lt_fresh (.inl rfl)) hlater,
      Nat.le_trans (by rw [hp.fresh]; omega) hlater⟩
  · intro k hk
    rw [hclosed (hp.ne_end hk (.inr rfl)), hold hk]
  · rw [hclosed hp.read_ne_write, hsource, hp.source?_end (.inl rfl)]
  · refine hp.pipe?_leave ((hsource _).trans (hp.source?_end (.inr rfl))) houtput ?_
    rintro n rfl
    exact StreamFunction.length_written_le ..
  · rw [hp.view_leave hw.numbered hio.input.1 (hold hio.input.1), hinput, World.view_consume,
      World.view_consume, hview]
  · intro k hk hapart
    have hlt : k < w.fresh := hk.elim And.left And.left
    have hsame := hp.source?_old hlt
    have hle : w.fresh ≤ opened.fresh := by
      rw [hp.fresh]
      omega
    rw [hp.view_leave hw.numbered hlt (hold hlt), hothers k, hp.view_old hw.numbered hlt]
    · exact hk.imp (·.later hle hsame) (·.later hle hsame)
    · exact hapart.of_source? hsame (hp.source?_old hio.input.1)
    · exact hp.apart_end hw.numbered hlt (.inr rfl) hsame (hp.source?_end (.inr rfl))

/-- What comes of a pipe whose sides have such effects. -/
structure PipeDone (S : Setting) (w : World) (i o : Nat) (here : Surroundings) (first last : Effect)
    (p : Piped) : Prop where
  status : p.status = Status.exitCode last.status
  written : p.written = first.written.length
  unread : p.unread = first.written.length - last.taken
  here : p.after.here = here
  input : p.after.world.view i = (w.consume i first.taken).view i
  output : p.after.world.view o = (w.write o last.written).2.view o
  others : ∀ k, S.Input w k ∨ S.Output w k → w.Apart k i → w.Apart k o →
    p.after.world.view k = w.view k
  fits : S.fits p.after.world.disk

theorem pipeDone_of_filters (hl : S.Filters ex f l) (hr : S.Filters ex g r) :
    let first := f.effect room (w.available i)
    PipeDone S w i o here first (g.effect (w.room o) first.written)
      (pipeSides (ex.execute l) (ex.execute r) (S.wire i o) here ends opened) := by
  intro first
  have hdone := leftDone_of_filters hhere hw hio ho hp hl
  simp only [pipeSides]
  generalize leftSide (ex.execute l) (S.wire i o) here ends opened = middle at hdone
  have hold {k : Nat} (hk : k < w.fresh) : middle.source? k = w.source? k := hdone.source? k hk
  have hapart {k : Nat} (hk : k < w.fresh) : middle.Apart k ends.read :=
    hp.apart_end hw.numbered hk (.inl rfl) (hold hk) hdone.readEnd
  have hwired : S.Wired middle ends.read o :=
    ⟨⟨hdone.fresh.1, .inr ⟨_, hdone.readEnd⟩⟩,
      hio.output.later hdone.fresh.2 (hold hio.output.1), (hapart hio.output.1).symm⟩
  have hrun := ran_of_filters hr hdone.reached hwired
  have hside : rightSide (ex.execute r) (S.wire i o) here ends middle =
      let run := (ex.execute r (S.wire ends.read o)).run ⟨S.here, middle⟩
      (Status.exitCode run.1, run.2.world) := by
    rw [← hhere]
    rfl
  rw [hside]
  dsimp only at hrun ⊢
  generalize (ex.execute r (S.wire ends.read o)).run ⟨S.here, middle⟩ = run at hrun
  obtain ⟨⟨hstatus, hinput, houtput, hothers, hfits⟩, -, -, hsource⟩ := hrun
  -- the right side reads what the left one wrote, and writes where the pipe as a whole does
  have hview := hdone.others o (.inr hio.output) hio.apart.symm
  obtain ⟨append, hend⟩ := World.view_of_source?_pipe hdone.readEnd
  rw [hdone.pipe?] at hend
  have havailable : middle.available ends.read = first.written := by
    rw [World.available_eq_view, hend]
    rfl
  rw [havailable, World.room_of_view hview] at hstatus hinput houtput
  have hlook {k : Nat} (hk : k < w.fresh) :
      ((run.2.world.close ends.read).dropPipe ends.number).view k = run.2.world.view k :=
    hp.view_drop hw.numbered hk ((hsource k).trans (hold hk))
  have hkeep {k : Nat} (hk : S.Input w k ∨ S.Output w k) (ho : w.Apart k o) :
      run.2.world.view k = middle.view k := by
    have hlt : k < w.fresh := hk.elim And.left And.left
    refine hothers k ?_ (hapart hlt) (ho.of_source? (hold hlt) (hold hio.output.1))
    exact hk.imp (·.later hdone.fresh.2 (hold hlt)) (·.later hdone.fresh.2 (hold hlt))
  constructor
  · exact congrArg Status.exitCode hstatus
  · exact congrArg List.length havailable
  · change (run.2.world.available ends.read).length = _
    rw [World.available_eq_view, hinput, World.view_consume, hend]
    change (List.drop 0 (List.drop _ first.written)).length = _
    rw [List.drop_zero, List.length_drop]
  · rfl
  · rw [hlook hio.input.1, hkeep (.inl hio.input) hio.apart, hdone.input]
  · rw [hlook hio.output.1, houtput, World.view_write, World.view_write, hview]
  · intro k hk hki hko
    rw [hlook (hk.elim And.left And.left), hkeep hk hko, hdone.others k hk hki]
  · exact hfits

end

/-- A pipe between two functions of their input is the two functions joined. -/
theorem filters_pipe_at {here : Surroundings} (hhere : here.fork = S.here) (hl : S.Filters ex f l)
    (hr : S.Filters ex g r) (argv : List Bytes) (files : Redirections) (hw : S.Reached w)
    (hio : S.Wired w i o) :
    let run := (ex.execute (.node .pipe argv files l r) (S.wire i o)).run ⟨here, w⟩
    S.Filtered (f.comp g) w i o run.1 run.2.world ∧ run.2.here = here := by
  have hpiped (room : Option Nat) : ∃ p,
      pipeWith (ex.execute l) (ex.execute r) (S.wire i o) room ⟨here, w⟩ = .ok p ∧
        PipeDone S w i o here (f.effect room (w.available i))
          (g.effect (w.room o) (f.effect room (w.available i)).written) p := by
    obtain ⟨ends, opened, ho, hp⟩ := hw.granted.openPipe room
    exact ⟨_, by rw [pipeWith, ho], pipeDone_of_filters hhere hw hio ho hp hl hr⟩
  have hroom : pipeRoom (S.wire i o) ⟨here, w⟩ (ex.execute l) (ex.execute r) =
      f.roomBefore g (w.room o) (w.available i) := by
    obtain ⟨p, hp, hdone⟩ := hpiped none
    have htaken := g.taken_le (w.room o) (f.output (w.available i))
    have hwritten : p.written = (f.output (w.available i)).length := hdone.written
    have hunread : p.unread = (f.output (w.available i)).length -
        (g.effect (w.room o) (f.output (w.available i))).taken := hdone.unread
    rw [pipeRoom, hp, StreamFunction.roomBefore]
    simp only [hunread, hwritten, Nat.sub_sub_self htaken]
  obtain ⟨p, hp, hdone⟩ := hpiped (f.roomBefore g (w.room o) (w.available i))
  rw [StreamFunction.effect_written] at hdone
  have hrun : (ex.execute (.node .pipe argv files l r) (S.wire i o)).run ⟨here, w⟩ =
      (p.status, p.after) := by
    change (ex.pipe (ex.execute l) (ex.execute r) (S.wire i o)).run ⟨here, w⟩ = _
    rw [run_pipe, hroom, pipeResult, hp]
  rw [hrun]
  exact ⟨⟨hdone.status, hdone.input, hdone.output, hdone.others, hdone.fits⟩, hdone.here⟩

/-- The setting of a pipeline that is run from a state. -/
def settingAt (streams : Streams) (fits : Disk → Prop) (s : Running) : Setting where
  here := s.here.fork
  streams
  target := s.world.source? streams.output
  fits
  fork_here := s.here.fork_fork

/-- What comes of a pipeline: what goes through all of its stages is written to its output, and the
status is the low byte of the last one's. -/
theorem run_pipeline {ts : List Tree} {t : Tree} {streams : Streams} {fits : Disk → Prop}
    {s : Running} {fs : List StreamFunction} (h : Bracketing .pipe ts t) (hlen : 2 ≤ ts.length)
    (hstages : List.Forall₂ ((settingAt streams fits s).Filters ex) (fs ++ [g]) ts)
    (hw : (settingAt streams fits s).Reached s.world)
    (hio : (settingAt streams fits s).Wired s.world streams.input streams.output) :
    let x := StreamFunction.through fs (s.world.available streams.input)
    let last := g.effect (s.world.room streams.output) x
    let run := (ex.execute t streams).run s
    run.1 = Status.exitCode last.status ∧ run.2.here = s.here ∧
      run.2.world.view streams.output =
        (s.world.write streams.output last.written).2.view streams.output := by
  let S := settingAt streams fits s
  let joined (f : StreamFunction) (t : Tree) := ∀ here : Surroundings, here.fork = S.here →
    ∀ {w : World} {i o : Nat}, S.Reached w → S.Wired w i o →
      let run := (ex.execute t (S.wire i o)).run ⟨here, w⟩
      S.Filtered f w i o run.1 run.2.world ∧ run.2.here = here
  have hmeans {f : StreamFunction} {t : Tree} (hf : joined f t) : S.Filters ex f t :=
    fun _ _ _ hw hio => (hf S.here S.fork_here hw hio).1
  obtain ⟨f, rest, hvalues, -, hjoined⟩ := h.product StreamFunction.comp hmeans
    (fun argv files hl hr _ hhere _ _ _ => filters_pipe_at hhere hl hr argv files) hstages
  -- the last function is the last stage's, and all the others are joined before it
  cases fs with
  | nil =>
    have hone := hstages.length_eq
    simp only [List.nil_append, List.length_singleton] at hone
    omega
  | cons first fs =>
    rw [List.cons_append, List.cons_eq_cons] at hvalues
    obtain ⟨rfl, rfl⟩ := hvalues
    obtain ⟨hdone, hhere⟩ := hjoined hlen s.here rfl hw hio
    rw [List.foldl_append] at hdone
    rw [← StreamFunction.output_foldl_comp]
    exact ⟨hdone.status, hhere, hdone.output⟩

end Executor

end CommandShell
